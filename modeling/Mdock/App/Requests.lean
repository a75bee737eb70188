import Mathlib.Logic.Function.Basic
import Mdock.App.Files
import Mdock.Lib.Run
import Mdock.Vault.Containment
import Mdock.Vault.FileTree
import Mdock.WebDAV.Handler

/-! Requests on one vault that run side by side. A request is a list of tasks; each task is
one call of the vault service or of the lock service, and a step of the machine is one task
of one request. -/
namespace Mdock.App.Requests
open Mdock.Go Mdock.Lib Mdock.Vault Mdock.Locks Mdock.Store
open Mdock.WebDAV (Target maxPutBytes mutationOwner overwrites parseDestination parsePath
  requestLockToken webdavSource)

/-- `item` is the vault, `checkout` is `git checkout hash -- path` in a repository. -/
structure Config where
  vaultService : Vault.Service
  plain : ∀ n ∈ vaultService.root, Plain n
  item : VaultRow
  lockTTL : Int
  authorityOk : Bytes → Bool
  checkout : FileTree → Loc → Bytes → Bytes → Option FileTree

inductive Source
  | web | webdav
  deriving DecidableEq

def Source.text : Source → Bytes
  | .web => webSource
  | .webdav => webdavSource

/-- The requests that change files, and the two that take and give back a lock by name. -/
inductive Request
  | writeTextFile (relPath content owner : Bytes)
  | createTextFile (relPath content owner : Bytes)
  | createDir (relPath owner : Bytes)
  | movePath (fromPath toPath owner : Bytes)
  | deletePath (relPath owner : Bytes)
  | restoreFileFromCommit (hash relPath owner : Bytes)
  | acquireFileLock (relPath owner : Bytes)
  | releaseFileLock (relPath owner : Bytes)
  | webdav (r : WebDAV.Request) (login : Bytes)

/-- What a request does to a path whose lock it holds. -/
inductive Change
  | write (data : Bytes)
  | mkdir
  | delete
  | rename (newRel : Bytes)
  | restore (hash : Bytes)
  deriving DecidableEq

/-- `absent`, `present`, `parentOk`, `statSource` and `statDestination` are calls of `Stat`;
`transient` and `getLock` begin a `withFileMutationLock`. -/
inductive Task
  | absent (rel : Bytes)
  | present (rel : Bytes)
  | parentOk (rel : Bytes)
  | statSource (rel : Bytes)
  | ensureMoveUnlocked (rel : Bytes) (isDir : Bool)
  | statDestination (rel owner : Bytes) (release overwrite : Bool)
  | ensureVault
  | transient (rel : Bytes) (change : Change)
  | getLock (rel owner : Bytes) (change : Change)
  | acquire (source : Source) (rel owner : Bytes) (release : Bool) (change : Change)
  | run (rel owner : Bytes) (release : Bool) (change : Change)
  | release (rel owner : Bytes)
  | enqueue
  | acquireFileLock (rel owner : Bytes)
  | releaseFileLock (rel owner : Bytes)
  deriving DecidableEq

/-- A request under way, and whether it has failed. -/
structure Call where
  request : Request
  todo : List Task
  failed : Bool

/-- A change that went through. -/
structure Event where
  call : Nat
  request : Request
  rel : Bytes
  change : Change
  before : FileTree
  after : FileTree

/-- Beside the program's state: until when an `AcquireFileLock` promised an owner a path, and
the changes so far. -/
structure State where
  clock : Instant
  tree : FileTree
  locks : FileLocks
  calls : List Call
  held : Bytes × Bytes → Option Instant
  log : List Event

inductive Act
  | tick (now : Instant)
  | enter (r : Request)
  | advance (i : Nat)
  | refuse (i : Nat)

namespace Config
variable (c : Config)

/-- `NewHandler` has a default where the web service has none. -/
def ttl : Source → Int
  | .web => c.lockTTL
  | .webdav => if c.lockTTL ≤ 0 then 30 * 1000000000 else c.lockTTL

def clean (relPath : Bytes) : Option Bytes := (cleanFilePath relPath false).toOption

/-- `withFileMutationLock` asks whether the owner has the lock, if it has a name. -/
def webChange (rel owner : Bytes) (change : Change) : Task :=
  if owner = [] then .transient rel change else .getLock rel owner change

/-- The WebDAV methods that change files. -/
def davTasks (r : WebDAV.Request) (t : Target) : Option (List Task) :=
  let owner := mutationOwner r t
  let release := decide (requestLockToken r = [])
  match r.method with
  | .put =>
    match r.body with
    | none => none
    | some data =>
      if maxPutBytes < data.length then none
      else some [.acquire .webdav t.rel owner release (.write data)]
  | .mkcol =>
    if t.rel = dot then none
    else some [.absent t.rel, .parentOk t.rel, .acquire .webdav t.rel owner release .mkdir]
  | .delete =>
    if t.rel = dot then none
    else some [.present t.rel, .acquire .webdav t.rel owner release .delete]
  | .move =>
    if r.destination = [] then none
    else
      match parseDestination c.authorityOk r.destination with
      | .error _ => none
      | .ok (slug, rel) =>
        if slug ≠ t.vault.slug ∨ t.rel = dot ∨ rel = dot then none
        else some [.present t.rel, .statDestination rel owner release (decide (overwrites r)),
          .acquire .webdav t.rel owner release (.rename rel)]
  | .lock | .unlock => none

/-- The tasks of a request that is not refused for what it says. -/
def tasks : Request → Option (List Task)
  | .writeTextFile relPath content owner => (clean relPath).map fun rel =>
    [webChange rel owner (.write content), .enqueue, .present rel]
  | .createTextFile relPath content owner => (clean relPath).map fun rel =>
    [.absent rel, webChange rel owner (.write content), .enqueue, .present rel]
  | .createDir relPath owner => (clean relPath).map fun rel =>
    [webChange rel owner .mkdir, .enqueue, .present rel]
  | .movePath fromPath toPath owner => (clean fromPath).bind fun src =>
    (clean toPath).map fun dst =>
      [.absent dst, .statSource src, webChange src owner (.rename dst), .enqueue]
  | .deletePath relPath owner => (clean relPath).map fun rel =>
    [webChange rel owner .delete, .enqueue]
  | .restoreFileFromCommit hash relPath owner => (clean relPath).map fun rel =>
    [.ensureVault, webChange rel owner (.restore hash), .enqueue, .present rel]
  | .acquireFileLock relPath owner => (clean relPath).map fun rel => [.acquireFileLock rel owner]
  | .releaseFileLock relPath owner => (clean relPath).map fun rel => [.releaseFileLock rel owner]
  | .webdav r login =>
    match parsePath r.path with
    | .error _ => none
    | .ok (slug, rel) => if slug = c.item.slug then c.davTasks r ⟨login, c.item, rel⟩ else none

def stat (t : FileTree) (rel : Bytes) : Except Vault.Err Info :=
  c.vaultService.stat t.tree c.item.path rel

def parentIsDir (t : FileTree) (rel : Bytes) : Bool :=
  if dir rel = dot then true
  else
    match c.stat t (dir rel) with
    | .ok info => info.isDir
    | .error _ => false

def done (res : Except Vault.Err Unit × FileTree) : Option FileTree :=
  match res with
  | (.ok (), t) => some t
  | (.error _, _) => none

/-- The tree a change leaves; a change that fails leaves the tree as it was. -/
def change (rel : Bytes) (t : FileTree) : Change → Option FileTree
  | .write data => done (t.writeFile c.vaultService c.item.path rel data)
  | .mkdir => done (t.mkdir c.vaultService c.item.path rel)
  | .delete => done (t.delete c.vaultService c.item.path rel)
  | .rename newRel => done (t.rename c.vaultService c.item.path rel newRel)
  | .restore hash =>
    match c.vaultService.vaultRoot c.item.path with
    | .error _ => none
    | .ok root =>
      if Service.validCommitHash hash ∧ rel ≠ [] ∧ rel ≠ dot then c.checkout t root hash rel else none

end Config

namespace State
variable (s : State) (i : Nat) (call : Call)

/-- The call goes on with other tasks. -/
def goOn (todo : List Task) : State :=
  { s with calls := s.calls.set i { call with todo := todo } }

/-- The call fails; of its tasks only those that clean up are left. -/
def fail (todo : List Task) : State :=
  { s with calls := s.calls.set i { call with todo := todo, failed := true } }

/-- A call of the lock service, and how the request goes on. -/
def locking {α : Type} (res : Except Locks.Err α × FileLocks) (todo : α → Option (List Task)) :
    State :=
  match res with
  | (.error _, t) => { s with locks := t }.fail i call []
  | (.ok a, t) =>
    match todo a with
    | none => { s with locks := t }.fail i call []
    | some todo => { s with locks := t }.goOn i call todo

end State

namespace Config
variable (c : Config)

/-- What gives the lock back. -/
def after (rel owner : Bytes) (release : Bool) : List Task :=
  if release then [.release rel owner] else []

def perform (s : State) (i : Nat) (call : Call) (rest : List Task) : Task → State
  | .absent rel => if (c.stat s.tree rel).isOk then s.fail i call [] else s.goOn i call rest
  | .present rel => if (c.stat s.tree rel).isOk then s.goOn i call rest else s.fail i call []
  | .parentOk rel => if c.parentIsDir s.tree rel then s.goOn i call rest else s.fail i call []
  | .statSource rel =>
    match c.stat s.tree rel with
    | .error _ => s.fail i call []
    | .ok info => s.goOn i call (.ensureMoveUnlocked rel info.isDir :: rest)
  | .ensureMoveUnlocked rel isDir =>
    if isDir then
      s.locking i call (activeUnder s.locks s.clock c.item.id rel) fun items =>
        if items = [] then some rest else none
    else
      s.locking i call (Locks.get s.locks s.clock c.item.id rel) fun existing =>
        if existing = none then some rest else none
  | .statDestination rel owner release overwrite =>
    if (c.stat s.tree rel).isOk then
      if overwrite then
        s.goOn i call (.parentOk rel :: .acquire .webdav rel owner release .delete :: rest)
      else s.fail i call []
    else s.goOn i call (.parentOk rel :: rest)
  | .ensureVault =>
    match s.tree.ensureVault c.vaultService c.item.path with
    | none => s.fail i call []
    | some t => { s with tree := t }.goOn i call rest
  | .transient rel change =>
    s.goOn i call (.acquire .web rel (Service.transientOwner s.clock) true change :: rest)
  | .getLock rel owner change =>
    s.locking i call (Locks.get s.locks s.clock c.item.id rel) fun existing =>
      some (.acquire .web rel owner (decide (existing.map Lock.owner ≠ some owner)) change :: rest)
  | .acquire source rel owner release change =>
    s.locking i call
      (Locks.acquire s.locks s.clock c.item.id rel owner source.text (c.ttl source))
      fun _ => some (.run rel owner release change :: rest)
  | .run rel owner release change =>
    match c.change rel s.tree change with
    | none => s.fail i call (after rel owner release)
    | some t =>
      { s with tree := t, log := s.log ++ [Event.mk i call.request rel change s.tree t] }.goOn i call
        (after rel owner release ++ rest)
  | .release rel owner =>
    { s with locks := Locks.release s.locks c.item.id rel owner }.goOn i call rest
  | .enqueue => s.goOn i call rest
  | .acquireFileLock rel owner =>
    match Locks.acquire s.locks s.clock c.item.id rel owner webSource c.lockTTL with
    | (.error _, t) => { s with locks := t }.fail i call []
    | (.ok l, t) =>
      { s with locks := t, held := Function.update s.held (rel, owner) (some l.expiresAt) }.goOn i
        call rest
  | .releaseFileLock rel owner =>
    { s with
      locks := Locks.release s.locks c.item.id rel owner
      held := Function.update s.held (rel, owner) none }.goOn i call rest

/-- The next task of a call; only the git queue may refuse one. -/
def step (s : State) : Act → Option State
  | .tick now => if s.clock ≤ now then some { s with clock := now } else none
  | .enter r => (c.tasks r).map fun todo => { s with calls := s.calls ++ [⟨r, todo, false⟩] }
  | .advance i =>
    match s.calls[i]? with
    | some call =>
      match call.todo with
      | task :: rest => some (c.perform s i call rest task)
      | [] => none
    | none => none
  | .refuse i =>
    match s.calls[i]? with
    | some call =>
      match call.todo with
      | .enqueue :: _ => some (s.fail i call [])
      | _ => none
    | none => none

/-- At the start no request is under way; locks may be held. -/
def machine : Machine State Act where
  init s := s.calls = [] ∧ s.log = [] ∧ ∀ k e, s.held k = some e → s.clock < e →
    ∃ r ∈ s.locks.rows, r.key = (c.item.id, k.1) ∧ r.owner = k.2
  step := c.step

end Config

/-! ### One step -/

section Steps
variable {c : Config} {s s' : State} {i : Nat} {call : Call}

@[simp] theorem goOn_tree (todo : List Task) : (s.goOn i call todo).tree = s.tree := rfl
@[simp] theorem goOn_log (todo : List Task) : (s.goOn i call todo).log = s.log := rfl
@[simp] theorem goOn_calls (todo : List Task) :
    (s.goOn i call todo).calls = s.calls.set i { call with todo := todo } := rfl
@[simp] theorem fail_tree (todo : List Task) : (s.fail i call todo).tree = s.tree := rfl
@[simp] theorem fail_log (todo : List Task) : (s.fail i call todo).log = s.log := rfl
@[simp] theorem fail_calls (todo : List Task) :
    (s.fail i call todo).calls = s.calls.set i { call with todo := todo, failed := true } := rfl

/-- A call of the lock service changes the lock table and its own call only. -/
theorem locking_cases {α : Type} (res : Except Locks.Err α × FileLocks)
    (todo : α → Option (List Task)) :
    s.locking i call res todo = { s with locks := res.2 }.fail i call [] ∨
      ∃ a l, res.1 = .ok a ∧ todo a = some l ∧
        s.locking i call res todo = { s with locks := res.2 }.goOn i call l := by
  unfold State.locking
  obtain ⟨r, t⟩ := res
  cases r with
  | error e => exact .inl rfl
  | ok a =>
    cases hl : todo a with
    | none => simp [hl]
    | some l => exact .inr ⟨a, l, rfl, hl, by simp [hl]⟩

/-- A step of the machine is time, a new request, a task, or a refusal of the git queue. -/
theorem step_cases {a : Act} (h : c.step s a = some s') :
    (∃ now, s.clock ≤ now ∧ s' = { s with clock := now }) ∨
    (∃ r todo, c.tasks r = some todo ∧ s' = { s with calls := s.calls ++ [⟨r, todo, false⟩] }) ∨
    (∃ i call task rest, a = .advance i ∧ s.calls[i]? = some call ∧ call.todo = task :: rest ∧
      s' = c.perform s i call rest task) ∨
    ∃ i call rest, s.calls[i]? = some call ∧ call.todo = .enqueue :: rest ∧
      s' = s.fail i call [] := by
  cases a with
  | tick now =>
    simp only [Config.step] at h
    split at h
    · rename_i hle
      exact .inl ⟨now, hle, (Option.some.inj h).symm⟩
    · cases h
  | enter r =>
    obtain ⟨todo, htodo, rfl⟩ := Option.map_eq_some_iff.mp h
    exact .inr (.inl ⟨r, todo, htodo, rfl⟩)
  | advance i =>
    simp only [Config.step] at h
    split at h
    · rename_i call hcall
      split at h
      · rename_i task rest htodo
        exact .inr (.inr (.inl ⟨i, call, task, rest, rfl, hcall, htodo, (Option.some.inj h).symm⟩))
      · cases h
    · cases h
  | refuse i =>
    simp only [Config.step] at h
    split at h
    · rename_i call hcall
      split at h
      · rename_i rest htodo
        exact .inr (.inr (.inr ⟨i, call, rest, hcall, htodo, (Option.some.inj h).symm⟩))
      · cases h
    · cases h

theorem getElem?_set_cases {l : List Call} {x y : Call} {j : Nat}
    (h : (l.set i x)[j]? = some y) : j ≠ i ∧ l[j]? = some y ∨ j = i ∧ y = x := by
  by_cases hij : j = i
  · subst hij
    rw [List.getElem?_set_self'] at h
    obtain ⟨z, -, rfl⟩ := Option.map_eq_some_iff.mp h
    exact .inr ⟨rfl, rfl⟩
  · rw [List.getElem?_set_ne (Ne.symm hij)] at h
    exact .inl ⟨hij, h⟩

end Steps

/-! ### The vault with two notes -/

def noteConfig : Config where
  vaultService := noteService
  plain := noteService_plain
  item := ⟨1, utf8 "notes", utf8 "v"⟩
  lockTTL := 30000000000
  authorityOk _ := true
  checkout _ _ _ _ := none

def noteStart : State := ⟨0, ⟨notes, notes_rooted⟩, Keyed.empty, [], fun _ => none, []⟩

theorem noteStart_init : noteConfig.machine.init noteStart := ⟨rfl, rfl, fun _ _ h => by cases h⟩

end Mdock.App.Requests
