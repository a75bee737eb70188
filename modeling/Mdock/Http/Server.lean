import Mdock.App.Accounts
import Mdock.App.Creation
import Mdock.App.FileLocks
import Mdock.Store.Access
import Mdock.WebDAV.Handler

/-! The HTTP server: its routes, what stands before them, and their handlers. A request is
served alone: it is answered from the tables, the files and the locks it meets. -/
namespace Mdock.Http
open Mdock.Go Mdock.Lib Mdock.Store Mdock.Vault Mdock.Locks Mdock.Locks.Expiry Mdock.App

/-! ### Requests and answers -/

inductive PublicRoute
  | register
  | login
  deriving DecidableEq

/-- The routes of a vault, after its slug; `path` and `owner` come from the query. -/
inductive VaultRoute
  | details
  | rename
  | archive
  | unarchive
  | webdav
  | members
  | listFiles (path : Bytes)
  | createFile
  | deletePath (path : Bytes)
  | readFileContent (path : Bytes)
  | writeFileContent
  | createDir
  | movePath
  | acquireFileLock
  | heartbeatFileLock
  | releaseFileLock (path owner : Bytes)
  | restoreGitFile
  deriving DecidableEq

inductive UserRoute
  | me
  | logout
  | changeOwnPassword
  | vaults (archived : Bytes)
  | createVault
  | vault (slug : Bytes) (route : VaultRoute)
  deriving DecidableEq

inductive AdminRoute
  | users
  | createUser
  | setPassword (login : Bytes)
  | disableUser (login : Bytes)
  | enableUser (login : Bytes)
  | revokeSessions (login : Bytes)
  deriving DecidableEq

/-- The groups of the router. -/
inductive Route
  | pub (route : PublicRoute)
  | user (route : UserRoute)
  | admin (route : AdminRoute)
  deriving DecidableEq

/-- `isSafeMethod` of the method of a route. -/
def VaultRoute.safe : VaultRoute → Bool
  | .details | .webdav | .members | .listFiles _ | .readFileContent _ => true
  | _ => false

def Route.safe : Route → Bool
  | .user .me | .user (.vaults _) | .admin .users => true
  | .user (.vault _ route) => route.safe
  | _ => false

/-- The fields of the JSON bodies; one that is not given is empty. -/
structure Fields where
  username : Bytes := []
  password : Bytes := []
  setupToken : Bytes := []
  currentPassword : Bytes := []
  newPassword : Bytes := []
  name : Bytes := []
  path : Bytes := []
  content : Bytes := []
  owner : Bytes := []
  fromPath : Bytes := []
  toPath : Bytes := []
  hash : Bytes := []
  deriving DecidableEq

/-- A cookie or a header that is not there is empty; a body that is not JSON is `none`. -/
structure Request where
  route : Route
  session : Bytes := []
  csrfCookie : Bytes := []
  csrfHeader : Bytes := []
  body : Option Fields := none

/-- What is in an answer besides its status. -/
inductive Payload
  | error (text : String)
  | ok
  | user (login : Bytes) (isAdmin : Bool)
  | session (user : User) (id : Bytes) (expiresAt : Instant)
  | vaults (items : List (Store.Vault × Bytes))
  | vault (item : Store.Vault × Bytes)
  | members (item : Store.Vault × Bytes) (members : List (User × Member))
  | users (users : List User)
  | created (user : User) (item : Store.Vault)
  | entries (entries : List Entry)
  | file (info : Info)
  | content (info : Info) (data : Bytes)
  | lock (lock : Lock)

structure Response where
  status : Nat
  payload : Payload

/-- `writeJSON` of an error. -/
def fail (status : Nat) (text : String) : Response := ⟨status, .error text⟩

def internalError : Response := fail 500 "internal_error"

def notFound : Response := fail 404 "404 page not found"

/-! ### The server -/

/-- The configuration, and what is not the program's own: bcrypt, the first bytes of SHA-256,
`git checkout`, and what `net/url` checks of a host. -/
structure Server where
  bcrypt : Accounts.Bcrypt
  digest : Bytes → Bytes
  checkout : Tree → Loc → Bytes → Bytes → Option Tree
  authorityOk : Bytes → Bool
  vaultService : Vault.Service
  lockTTL : Int
  firstAdminToken : Bytes
  sessionTTL : Int

/-- What a request meets: statements that fail when something is created, the clocks, what is
drawn at random, the answers of the rate limiter and of the git queue. -/
structure Env where
  faults : Step → Bool
  now : Instant
  clock : Nat → Instant
  salt : Bytes
  draw : Bytes
  token : Bytes
  allowed : Bool
  queueOk : Bool

structure State where
  db : Db
  files : App.World

namespace Server
variable (srv : Server) (env : Env)

def creation (password : Bytes) : Creation.Env :=
  ⟨env.faults, srv.bcrypt.generateFromPassword env.salt password, env.now, env.draw,
    srv.sessionTTL, srv.firstAdminToken⟩

/-- `VaultForUserBySlug`, as the file operations use it. -/
def vaultFor (d : Db) (userID : Int) (slug : Bytes) : Option VaultRow :=
  (d.vaultForUserBySlug userID slug false).map fun x => ⟨x.1.id, x.1.slug, x.1.path⟩

def files (d : Db) : App.Service :=
  ⟨srv.vaultService, srv.lockTTL, vaultFor d, srv.checkout, env.queueOk⟩

/-! ### Accounts -/

/-- `RegisterUser` and its handler. -/
def register (body : Option Fields) (d : Db) : Response × Db :=
  match body with
  | none => (fail 400 "invalid_json", d)
  | some f =>
    if env.allowed = false then (fail 429 "rate_limited", d)
    else
      match Creation.registerUser (srv.creation env f.password) f.username f.password f.setupToken d
      with
      | (.ok (user, _, id, expiresAt), d) => (⟨201, .session user id expiresAt⟩, d)
      | (.error .userExists, d) => (fail 409 "user_exists", d)
      | (.error .registrationClosed, d) => (fail 403 "registration_closed", d)
      | (.error .invalidSetupToken, d) => (fail 403 "invalid_setup_token", d)
      | (.error _, d) => (fail 400 "invalid_registration", d)

def login (body : Option Fields) (d : Db) : Response × Db :=
  match body with
  | none => (fail 400 "invalid_json", d)
  | some f =>
    if env.allowed = false then (fail 429 "rate_limited", d)
    else
      match Accounts.authenticate srv.bcrypt d.users f.username f.password with
      | none => (fail 401 "invalid_credentials", d)
      | some user =>
        match Creation.createSession (srv.creation env f.password) user.id d with
        | (.ok (id, expiresAt), d) => (⟨200, .session user id expiresAt⟩, d)
        | (.error _, d) => (internalError, d)

/-- `SetPassword`, then `DeleteSessionsForLogin`; `none` where bcrypt makes no hash, or without
a login or a password, and `false` where there is no such user. -/
def setPassword (login password : Bytes) (d : Db) : Option Bool × Db :=
  if trimSpace login = [] ∨ password = [] then (none, d)
  else
    match srv.bcrypt.generateFromPassword env.salt password with
    | none => (none, d)
    | some hash =>
      if d.users.getUserByLogin login = none then (some false, d)
      else
        (some true, { d with
          users := d.users.setPassword login hash
          sessions := d.users.deleteSessionsForLogin d.sessions login })

def changeOwnPassword (user : User) (body : Option Fields) (d : Db) : Response × Db :=
  match body with
  | none => (fail 400 "invalid_json", d)
  | some f =>
    if f.currentPassword = [] ∨ f.newPassword = [] then (fail 400 "password_required", d)
    else
      match Accounts.authenticate srv.bcrypt d.users user.login f.currentPassword with
      | none => (fail 401 "invalid_credentials", d)
      | some _ =>
        match srv.setPassword env user.login f.newPassword d with
        | (some true, d) => (⟨200, .ok⟩, d)
        | (_, d) => (internalError, d)

def adminSetPassword (login : Bytes) (body : Option Fields) (d : Db) : Response × Db :=
  match body with
  | none => (fail 400 "invalid_json", d)
  | some f =>
    if f.password = [] then (fail 400 "password_required", d)
    else
      match srv.setPassword env login f.password d with
      | (some true, d) => (⟨200, .ok⟩, d)
      | (some false, d) => (notFound, d)
      | (none, d) => (internalError, d)

def adminCreateUser (body : Option Fields) (d : Db) : Response × Db :=
  match body with
  | none => (fail 400 "invalid_json", d)
  | some f =>
    if f.username = [] ∨ f.password = [] then (fail 400 "login_and_password_required", d)
    else
      match Creation.createUser (srv.creation env f.password) f.username f.password d with
      | (.ok (user, item), d) => (⟨201, .created user item⟩, d)
      | (.error .userExists, d) => (fail 409 "user_exists", d)
      | (.error _, d) => (fail 400 "invalid_user", d)

/-- `SetUserDisabled` of the app and its handler. -/
def adminSetUserDisabled (login : Bytes) (disabled : Bool) (d : Db) : Response × Db :=
  match d.users.getUserByLogin login with
  | none => (notFound, d)
  | some u =>
    if disabled ∧ u.isAdmin ∧ ¬ u.disabled ∧ d.users.countActiveAdmins ≤ 1 then
      (fail 409 "last_active_admin", d)
    else
      let users := d.users.setUserDisabled login disabled
      (⟨200, .ok⟩, { d with
        users := users
        sessions :=
          if disabled then users.deleteSessionsForLogin d.sessions login else d.sessions })

def adminRevokeSessions (login : Bytes) (d : Db) : Response × Db :=
  match d.users.getUserByLogin login with
  | none => (notFound, d)
  | some _ =>
    (⟨200, .ok⟩, { d with sessions := d.users.deleteSessionsForLogin d.sessions login })

def adminRoute (body : Option Fields) (d : Db) : AdminRoute → Response × Db
  | .users => (⟨200, .users d.listUsers⟩, d)
  | .createUser => srv.adminCreateUser env body d
  | .setPassword login => srv.adminSetPassword env login body d
  | .disableUser login => adminSetUserDisabled login true d
  | .enableUser login => adminSetUserDisabled login false d
  | .revokeSessions login => adminRevokeSessions login d

/-! ### Vaults -/

def listVaults (user : User) (archived : Bytes) (d : Db) : Response :=
  match d.listVaultsForUserArchived user.id (trimSpace archived) with
  | none => fail 400 "invalid_archived_filter"
  | some items => ⟨200, .vaults items⟩

def createVault (user : User) (body : Option Fields) (d : Db) : Response × Db :=
  match body with
  | none => (fail 400 "invalid_json", d)
  | some f =>
    if trimSpace f.name = [] then (fail 400 "name_required", d)
    else
      match Creation.createVault (srv.creation env f.password) user.id f.name d with
      | (.ok item, d) => (⟨201, .vault (item, roleOwner)⟩, d)
      | (.error _, d) => (internalError, d)

inductive OwnerErr
  | noRows | forbidden

/-- `requireVaultOwner`. -/
def requireVaultOwner (user : User) (slug : Bytes) (d : Db) : Except OwnerErr Store.Vault :=
  match d.vaultForUserBySlug user.id slug true with
  | none => .error .noRows
  | some (item, role) => if role = roleOwner then .ok item else .error .forbidden

/-- `handleVaultError`. -/
def vaultError : OwnerErr → Response
  | .noRows => notFound
  | .forbidden => fail 403 "forbidden"

/-- The answer to a change of the vault `id`: its row, as it is now. -/
def updated (id : Int) (d : Db) : Response :=
  match d.vaultByID id with
  | none => notFound
  | some item => ⟨200, .vault (item, roleOwner)⟩

def renameVault (user : User) (slug : Bytes) (body : Option Fields) (d : Db) : Response × Db :=
  match body with
  | none => (fail 400 "invalid_json", d)
  | some f =>
    if trimSpace f.name = [] then (fail 400 "name_required", d)
    else
      match requireVaultOwner user slug d with
      | .error e => (vaultError e, d)
      | .ok item =>
        let d := { d with vaults := d.vaults.updateName item.id (trimSpace f.name) }
        (updated item.id d, d)

def setVaultArchived (user : User) (slug : Bytes) (archived : Bool) (d : Db) : Response × Db :=
  match requireVaultOwner user slug d with
  | .error e => (vaultError e, d)
  | .ok item =>
    let d := { d with vaults := d.vaults.setArchived item.id archived }
    (updated item.id d, d)

/-- `userVault`. -/
def userVault (user : User) (slug : Bytes) (includeArchived : Bool) (d : Db) : Response :=
  match d.vaultForUserBySlug user.id slug includeArchived with
  | none => notFound
  | some item => ⟨200, .vault item⟩

def vaultMembers (user : User) (slug : Bytes) (d : Db) : Response :=
  match requireVaultOwner user slug d with
  | .error e => vaultError e
  | .ok item => ⟨200, .members (item, roleOwner) (d.listVaultMembers item.id)⟩

/-! ### Files -/

/-- `handleFileError`; a file system that says what is missing gets a 404 instead of a 500. -/
def fileError : App.Err → Response
  | .noVault => fail 404 "not_found"
  | .invalidFilePath => fail 400 "invalid_path"
  | .invalidCommitHash => fail 400 "invalid_commit_hash"
  | .binaryFile => fail 415 "binary_file"
  | .lock .locked => fail 423 "locked"
  | .lock .notOwner => fail 409 "lock_not_owner"
  | _ => internalError

/-- `webLockOwner`. -/
def webLockOwner (session : Bytes) (userID : Int) (clientOwner : Bytes) : Bytes :=
  utf8 "web:" ++ formatInt userID ++ utf8 ":" ++
    if trimSpace clientOwner ≠ [] then
      srv.digest (formatInt userID ++ utf8 ":" ++ clientOwner)
    else srv.digest session

/-- `queryPath`. -/
def queryPath (path : Bytes) : Bytes := if path = [] then dot else path

/-- Answer with what an operation on the files returns. -/
def fileOp {α : Type} (op : Op App.Err App.World α) (ok : α → Response) (w : App.World) :
    Response × App.World :=
  match op w with
  | (.ok a, w) => (ok a, w)
  | (.error e, w) => (fileError e, w)

/-- Decode the body, and ask for a path. -/
def withPath (body : Option Fields) (paths : Fields → List Bytes) (w : App.World)
    (op : Fields → Response × App.World) : Response × App.World :=
  match body with
  | none => (fail 400 "invalid_json", w)
  | some f => if ∃ p ∈ paths f, trimSpace p = [] then (fail 400 "path_required", w) else op f

/-- `ListFiles`. -/
def listFiles (s : App.Service) (userID : Int) (slug path : Bytes) :
    Op App.Err App.World (List Entry) := do
  let (item, rel) ← Op.ofExcept (s.fileMutationContext userID slug path true)
  fun w =>
    match s.vaultService.list w.tree item.path rel with
    | .ok entries => (.ok entries, w)
    | .error e => (.error (.vault e), w)

/-- The routes of a vault that work on its files and locks. -/
def fileRoute (user : User) (r : Request) (d : Db) (slug : Bytes) (w : App.World) :
    VaultRoute → Response × App.World
  | .listFiles path =>
    fileOp (listFiles (srv.files env d) user.id slug (queryPath path))
      (fun l => ⟨200, .entries l⟩) w
  | .readFileContent path =>
    fileOp ((srv.files env d).readTextFile user.id slug (queryPath path))
      (fun a => ⟨200, .content a.2.1 a.2.2⟩) w
  | .createFile => withPath r.body (fun f => [f.path]) w fun f =>
    fileOp ((srv.files env d).createTextFile env.clock user.id slug f.path f.content
      (srv.webLockOwner r.session user.id [])) (fun a => ⟨201, .file a.2⟩) w
  | .writeFileContent => withPath r.body (fun f => [f.path]) w fun f =>
    fileOp ((srv.files env d).writeTextFile env.clock user.id slug f.path f.content
      (srv.webLockOwner r.session user.id f.owner)) (fun a => ⟨200, .file a.2⟩) w
  | .createDir => withPath r.body (fun f => [f.path]) w fun f =>
    fileOp ((srv.files env d).createDir env.clock user.id slug f.path
      (srv.webLockOwner r.session user.id [])) (fun a => ⟨201, .file a.2⟩) w
  | .movePath => withPath r.body (fun f => [f.fromPath, f.toPath]) w fun f =>
    fileOp ((srv.files env d).movePath env.clock user.id slug f.fromPath f.toPath
      (srv.webLockOwner r.session user.id [])) (fun _ => ⟨200, .ok⟩) w
  | .deletePath path =>
    if trimSpace (queryPath path) = [] then (fail 400 "path_required", w)
    else
      fileOp ((srv.files env d).deletePath env.clock user.id slug (queryPath path)
        (srv.webLockOwner r.session user.id [])) (fun _ => ⟨200, .ok⟩) w
  | .acquireFileLock => withPath r.body (fun _ => []) w fun f =>
    fileOp ((srv.files env d).acquireFileLock env.clock user.id slug f.path
      (srv.webLockOwner r.session user.id f.owner)) (fun l => ⟨200, .lock l⟩) w
  | .heartbeatFileLock => withPath r.body (fun _ => []) w fun f =>
    fileOp ((srv.files env d).heartbeatFileLock env.clock user.id slug f.path
      (srv.webLockOwner r.session user.id f.owner)) (fun _ => ⟨200, .ok⟩) w
  | .releaseFileLock path owner =>
    if trimSpace (queryPath path) = [] then (fail 400 "path_required", w)
    else
      fileOp ((srv.files env d).releaseFileLock user.id slug (queryPath path)
        (srv.webLockOwner r.session user.id owner)) (fun _ => ⟨200, .ok⟩) w
  | .restoreGitFile =>
    match r.body with
    | none => (fail 400 "invalid_json", w)
    | some f =>
      if trimSpace f.hash = [] ∨ trimSpace f.path = [] then (fail 400 "hash_and_path_required", w)
      else
        fileOp ((srv.files env d).restoreFileFromCommit env.clock user.id slug f.hash f.path
          (srv.webLockOwner r.session user.id [])) (fun a => ⟨200, .file a.2⟩) w
  | _ => (notFound, w)

def vaultRoute (user : User) (r : Request) (slug : Bytes) (s : State) :
    VaultRoute → Response × State
  | .details => (userVault user slug true s.db, s)
  | .webdav => (userVault user slug false s.db, s)
  | .members => (vaultMembers user slug s.db, s)
  | .rename =>
    let a := renameVault user slug r.body s.db
    (a.1, { s with db := a.2 })
  | .archive =>
    let a := setVaultArchived user slug true s.db
    (a.1, { s with db := a.2 })
  | .unarchive =>
    let a := setVaultArchived user slug false s.db
    (a.1, { s with db := a.2 })
  | route =>
    let a := srv.fileRoute env user r s.db slug s.files route
    (a.1, { s with files := a.2 })

/-! ### What stands before the handlers -/

/-- `requireSession`: the user of the session, or the status of the refusal. -/
def requireSession (d : Db) (session : Bytes) : Except Response User :=
  if session = [] then .error (fail 401 "unauthorized")
  else
    match d.users.validateSession d.sessions env.now session with
    | some user => .ok user
    | none =>
      if ∃ r ∈ d.sessions.rows, r.id = session ∧ (∃ u ∈ d.users.table.rows, u.id = r.userID) ∧
          reparse r.expiresAt = none then
        .error internalError
      else .error (fail 401 "unauthorized")

/-- What `requireCSRF` asks for. -/
def CSRF (r : Request) : Prop :=
  r.route.safe = true ∨ (r.csrfCookie ≠ [] ∧ r.csrfHeader ≠ [] ∧ r.csrfCookie = r.csrfHeader)

instance (r : Request) : Decidable (CSRF r) := inferInstanceAs (Decidable (_ ∨ _))

def userRoute (user : User) (r : Request) (s : State) : UserRoute → Response × State
  | .me => (⟨200, .user user.login user.isAdmin⟩, s)
  | .logout => (⟨200, .ok⟩, { s with
      db := { s.db with sessions := deleteSession s.db.sessions r.session } })
  | .changeOwnPassword =>
    let a := srv.changeOwnPassword env user r.body s.db
    (a.1, { s with db := a.2 })
  | .vaults archived => (listVaults user archived s.db, s)
  | .createVault =>
    let a := srv.createVault env user r.body s.db
    (a.1, { s with db := a.2 })
  | .vault slug route => srv.vaultRoute env user r slug s route

/-- A request to `/api`. -/
def serve (r : Request) (s : State) : Response × State :=
  match r.route with
  | .pub .register =>
    let a := srv.register env r.body s.db
    (a.1, { s with db := a.2 })
  | .pub .login =>
    let a := srv.login env r.body s.db
    (a.1, { s with db := a.2 })
  | .user route =>
    match requireSession env s.db r.session with
    | .error reply => (reply, s)
    | .ok user =>
      if CSRF r then srv.userRoute env user r s route else (fail 403 "csrf_required", s)
  | .admin route =>
    match requireSession env s.db r.session with
    | .error reply => (reply, s)
    | .ok user =>
      if CSRF r then
        if user.isAdmin then
          let a := srv.adminRoute env r.body s.db route
          (a.1, { s with db := a.2 })
        else (fail 403 "forbidden", s)
      else (fail 403 "csrf_required", s)

def davHandler : WebDAV.Handler Tree FileLocks :=
  WebDAV.handler srv.vaultService srv.lockTTL srv.authorityOk

/-- `authenticate` of the WebDAV handler, up to the path of the request. -/
def davUser (d : Db) (auth : Option (Bytes × Bytes)) : Except WebDAV.Reply User :=
  if env.allowed = false then .error ⟨429, "rate limited", none⟩
  else
    match auth.bind fun a => Accounts.authenticate srv.bcrypt d.users a.1 a.2 with
    | none => .error ⟨401, "unauthorized", none⟩
    | some user => .ok user

/-- A request to `/webdav` that may change something. -/
def serveDAV (auth : Option (Bytes × Bytes)) (r : WebDAV.Request) (s : State) :
    WebDAV.Reply × State :=
  match srv.davUser env s.db auth with
  | .error reply => (reply, s)
  | .ok user =>
    let a := srv.davHandler.serve (vaultFor s.db user.id) user.login env.token (env.clock 0)
      (env.clock 1) r ⟨s.files.tree, s.files.locks⟩
    (a.1, { s with files := ⟨a.2.tree, a.2.locks⟩ })

end Server

/-! ### Runs -/

/-- A request, and what it meets. -/
inductive Call
  | api (env : Env) (r : Request)
  | dav (env : Env) (auth : Option (Bytes × Bytes)) (r : WebDAV.Request)

/-- The state that a call leaves. -/
def Call.after (srv : Server) (s : State) : Call → State
  | .api env r => (srv.serve env r s).2
  | .dav env auth r => (srv.serveDAV env auth r s).2

/-- The session id that would be drawn. -/
def Call.draw : Call → Bytes
  | .api env _ | .dav env _ _ => env.draw

/-- The state that a run of calls leaves. -/
def Server.run (srv : Server) (s : State) (calls : List Call) : State :=
  calls.foldl (Call.after srv) s

end Mdock.Http
