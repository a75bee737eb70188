import Mathlib.Logic.Function.Basic
import Mdock.Lib.Run
import Mdock.Store.Users

/-! The calls of the app service that create, disable and authenticate users, as the SQL
statements they issue. Any number of calls is under way; a step is one statement of one of
them, a transaction being one statement, for the store has a single connection. -/
namespace Mdock.App.Accounts
open Mdock.Go Mdock.Lib Mdock.Store Mdock.Locks.Expiry

/-- `bcrypt`: a hash is made from a random salt, and not from every password. -/
structure Bcrypt where
  generateFromPassword : Bytes → Bytes → Option Bytes
  compareHashAndPassword : Bytes → Bytes → Bool

structure Config where
  firstAdminToken : Bytes
  sessionTTL : Int

inductive Request
  | setUserDisabled (login : Bytes) (disabled : Bool)
  | createUser (username password : Bytes)
  | registerUser (username password setupToken : Bytes)
  | bootstrapUser (login password : Bytes)
  | login (username password : Bytes)
  | setUserPassword (login password : Bytes)
  | changeOwnPassword (login currentPassword newPassword : Bytes)
  deriving DecidableEq

inductive Err
  | noRows | lastActiveAdmin | registrationClosed | invalidSetupToken | required | userExists
  | invalidCredentials | hash | io
  deriving DecidableEq

/-- Which call makes a user. -/
inductive Maker
  | createUser | registerUser | bootstrapUser
  deriving DecidableEq

/-- The password a login was let in with: the number of updates the login's password had
seen when it was read. -/
structure Verified where
  login : Bytes
  updates : Nat
  deriving DecidableEq

/-- How far a call has come, and what it goes on with. -/
inductive Phase
  | idle
  | entered (r : Request)
  | counting (login : Bytes)
  | disabling (login : Bytes) (disabled : Bool)
  | revoking (login : Bytes)
  | checking (maker : Maker) (username password : Bytes)
  | hashing (maker : Maker) (login password : Bytes)
  | inserting (maker : Maker) (login password : Bytes)
  | promoting (id : Int) (login : Bytes)
  | enabling (login : Bytes)
  | made (maker : Maker) (id : Int)
  | starting (userID : Int) (verified : Option Verified)
  | authenticated (login newPassword : Bytes)
  | updating (login password : Bytes)
  | sweeping (login : Bytes) (updates : Nat)
  | changed (login : Bytes) (updates : Nat)
  | issued (sessionID : Bytes) (verified : Option Verified)
  | done
  | failed (e : Err)
  deriving DecidableEq

/-- What a statement changes. -/
inductive Statement
  | select
  | insertUser (maker : Maker) (login password : Bytes)
  | setUserAdmin (id : Int)
  | setUserDisabled (login : Bytes) (disabled : Bool)
  | setPassword (login password : Bytes)
  | insertSession (id : Bytes) (userID : Int)
  | deleteSessions (login : Bytes) (updates : Nat)
  deriving DecidableEq

/-- The database, the calls, and for the accounts: how often each password was updated, up to
which update a change of it has deleted the sessions, which users registered themselves, and
which session ids were drawn. -/
structure State where
  clock : Instant
  users : Users
  sessions : Sessions
  call : Nat → Phase
  updates : Bytes → Nat
  swept : Bytes → Nat
  registered : List Int
  drawn : List Bytes

inductive Act
  | tick (now : Instant)
  | enter (i : Nat) (r : Request)
  | exec (i : Nat) (draw : Bytes)
  | fail (i : Nat)

variable (crypt : Bcrypt) (cfg : Config)

/-- The user that `Authenticate` lets in. -/
def authenticate (users : Users) (login password : Bytes) : Option User :=
  (users.getUserByLogin login).filter fun u =>
    !u.disabled && crypt.compareHashAndPassword u.password password

/-- The start of `createUser`: its arguments and its first statement. -/
def check (users : Users) (maker : Maker) (username password : Bytes) : Phase :=
  if trimSpace username = [] ∨ password = [] then .failed .required
  else if (users.getUserByLogin (trimSpace username)).isSome then .failed .userExists
  else .hashing maker (trimSpace username) password

/-- `SetPassword` up to its statement; `salt` is drawn by bcrypt. -/
def rehash (salt login password : Bytes) : Phase :=
  if trimSpace login = [] ∨ password = [] then .failed .required
  else
    match crypt.generateFromPassword salt password with
    | none => .failed .hash
    | some hash => .updating login hash

/-- The next statement of a call and how the call goes on; what is drawn serves as a salt or
as a session id. -/
def next (s : State) (draw : Bytes) : Phase → Option (Statement × Phase)
  | .entered (.setUserDisabled login disabled) =>
    match s.users.getUserByLogin login with
    | none => some (.select, .failed .noRows)
    | some u =>
      if disabled ∧ u.isAdmin ∧ ¬ u.disabled then some (.select, .counting login)
      else some (.select, .disabling login disabled)
  | .counting login =>
    if s.users.countActiveAdmins ≤ 1 then some (.select, .failed .lastActiveAdmin)
    else some (.select, .disabling login true)
  | .disabling login disabled =>
    some (.setUserDisabled login disabled, if disabled then .revoking login else .done)
  | .revoking login => some (.deleteSessions login 0, .done)
  | .entered (.createUser username password) =>
    some (.select, check s.users .createUser username password)
  | .entered (.registerUser username password setupToken) =>
    if 0 < s.users.countUsers then some (.select, .failed .registrationClosed)
    else if cfg.firstAdminToken ≠ [] ∧ setupToken ≠ cfg.firstAdminToken then
      some (.select, .failed .invalidSetupToken)
    else some (.select, .checking .registerUser username password)
  | .checking maker username password => some (.select, check s.users maker username password)
  | .entered (.bootstrapUser login password) =>
    match s.users.getUserByLogin login with
    | some u => some (.select, .promoting u.id u.login)
    | none => some (.select, .hashing .bootstrapUser login password)
  | .promoting id login => some (.setUserAdmin id, .enabling login)
  | .enabling login => some (.setUserDisabled login false, .done)
  | .hashing maker login password =>
    match crypt.generateFromPassword draw password with
    | none => some (.select, .failed .hash)
    | some hash => some (.select, .inserting maker login hash)
  | .inserting maker login password =>
    if (s.users.getUserByLogin login).isSome then some (.select, .failed .io)
    else some (.insertUser maker login password, .made maker (s.users.seq + 1))
  | .made maker id =>
    some (.select, if maker = .registerUser then .starting id none else .done)
  | .entered (.login username password) =>
    match authenticate crypt s.users username password with
    | none => some (.select, .failed .invalidCredentials)
    | some u => some (.select, .starting u.id (some ⟨username, s.updates username⟩))
  | .starting userID verified =>
    if draw ∈ s.drawn then none
    else some (.insertSession draw userID, .issued draw verified)
  | .entered (.setUserPassword login password) =>
    some (.select, rehash crypt draw login password)
  | .entered (.changeOwnPassword login currentPassword newPassword) =>
    match authenticate crypt s.users login currentPassword with
    | none => some (.select, .failed .invalidCredentials)
    | some _ => some (.select, .authenticated login newPassword)
  | .authenticated login newPassword => some (.select, rehash crypt draw login newPassword)
  | .updating login password =>
    if (s.users.getUserByLogin login).isSome then
      some (.setPassword login password, .sweeping login (s.updates login + 1))
    else some (.select, .failed .noRows)
  | .sweeping login updates => some (.deleteSessions login updates, .changed login updates)
  | .idle | .changed _ _ | .issued _ _ | .done | .failed _ => none

def State.setCall (s : State) (i : Nat) (p : Phase) : State :=
  { s with call := Function.update s.call i p }

def State.run (s : State) : Statement → State
  | .select => s
  | .insertUser maker login password =>
    { s with
      users := s.users.insert login password (decide (maker ≠ .createUser))
      registered :=
        if maker = .registerUser then s.registered ++ [s.users.seq + 1] else s.registered }
  | .setUserAdmin id => { s with users := s.users.setUserAdmin id true }
  | .setUserDisabled login disabled => { s with users := s.users.setUserDisabled login disabled }
  | .setPassword login password =>
    { s with
      users := s.users.setPassword login password
      updates := Function.update s.updates login (s.updates login + 1) }
  | .insertSession id userID =>
    { s with
      sessions := s.sessions.upsert ⟨id, userID, s.clock + cfg.sessionTTL, s.clock⟩
      drawn := s.drawn ++ [id] }
  | .deleteSessions login updates =>
    { s with
      sessions := s.users.deleteSessionsForLogin s.sessions login
      swept := Function.update s.swept login (max (s.swept login) updates) }

/-- A call that has begun and not ended may fail at any statement, without effect. -/
def Phase.running : Phase → Bool
  | .idle | .changed _ _ | .issued _ _ | .done | .failed _ => false
  | _ => true

def step (s : State) : Act → Option State
  | .tick now => if s.clock ≤ now then some { s with clock := now } else none
  | .enter i r => if s.call i = .idle then some (s.setCall i (.entered r)) else none
  | .exec i draw =>
    (next crypt cfg s draw (s.call i)).map fun (st, p) => (s.run cfg st).setCall i p
  | .fail i => if (s.call i).running then some (s.setCall i (.failed .io)) else none

/-- Any clock and any tables of the given kind, no call begun. -/
def machine (users : Users → Prop) : Machine State Act where
  init s := users s.users ∧ (∀ i, s.call i = .idle) ∧ s.registered = [] ∧
    ∀ r ∈ s.sessions.rows, r.id ∈ s.drawn
  step := step crypt cfg

/-- `ValidateSession` in a state. -/
def State.validateSession (s : State) (id : Bytes) : Option User :=
  s.users.validateSession s.sessions s.clock id

variable {crypt cfg}

/-- Everything a step can do. -/
theorem step_cases {s t : State} {a : Act} (h : step crypt cfg s a = some t) :
    (∃ now, a = .tick now ∧ s.clock ≤ now ∧ t = { s with clock := now }) ∨
    (∃ i r, a = .enter i r ∧ s.call i = .idle ∧ t = s.setCall i (.entered r)) ∨
    (∃ i, a = .fail i ∧ t = s.setCall i (.failed .io)) ∨
    ∃ i draw st p, a = .exec i draw ∧ next crypt cfg s draw (s.call i) = some (st, p) ∧
      t = (s.run cfg st).setCall i p := by
  cases a with
  | tick now =>
    simp only [step, Option.ite_none_right_eq_some, Option.some.injEq] at h
    exact .inl ⟨now, rfl, h.1, h.2.symm⟩
  | enter i r =>
    simp only [step, Option.ite_none_right_eq_some, Option.some.injEq] at h
    exact .inr (.inl ⟨i, r, rfl, h.1, h.2.symm⟩)
  | exec i draw =>
    obtain ⟨⟨st, p⟩, hn, rfl⟩ := Option.map_eq_some_iff.mp h
    exact .inr (.inr (.inr ⟨i, draw, st, p, rfl, hn, rfl⟩))
  | fail i =>
    simp only [step, Option.ite_none_right_eq_some, Option.some.injEq] at h
    exact .inr (.inr (.inl ⟨i, rfl, h.2.symm⟩))

/-- The statements that change something, and how their calls go on. -/
inductive Writes (s : State) (draw : Bytes) : Phase → Statement → Phase → Prop
  | disabling (login : Bytes) (disabled : Bool) : Writes s draw (.disabling login disabled)
      (.setUserDisabled login disabled) (if disabled then .revoking login else .done)
  | revoking (login : Bytes) : Writes s draw (.revoking login) (.deleteSessions login 0) .done
  | promoting (id : Int) (login : Bytes) :
      Writes s draw (.promoting id login) (.setUserAdmin id) (.enabling login)
  | enabling (login : Bytes) :
      Writes s draw (.enabling login) (.setUserDisabled login false) .done
  | inserting (maker : Maker) (login password : Bytes) :
      s.users.getUserByLogin login = none → Writes s draw (.inserting maker login password)
        (.insertUser maker login password) (.made maker (s.users.seq + 1))
  | starting (userID : Int) (verified : Option Verified) : draw ∉ s.drawn →
      Writes s draw (.starting userID verified) (.insertSession draw userID)
        (.issued draw verified)
  | updating (login password : Bytes) : (s.users.getUserByLogin login).isSome →
      Writes s draw (.updating login password) (.setPassword login password)
        (.sweeping login (s.updates login + 1))
  | sweeping (login : Bytes) (updates : Nat) :
      Writes s draw (.sweeping login updates) (.deleteSessions login updates)
        (.changed login updates)

/-- The phases in which a statement has just been answered that only reads. -/
def Phase.afterSelect (s : State) : Phase → Prop
  | .issued _ _ | .changed _ _ | .sweeping _ _ | .idle => False
  | .starting userID (some v) =>
    v.updates = s.updates v.login ∧ ∃ u, s.users.getUserByLogin v.login = some u ∧ u.id = userID
  | _ => True

theorem check_afterSelect (s : State) (maker : Maker) (username password : Bytes) :
    (check s.users maker username password).afterSelect s := by
  unfold check
  split
  · trivial
  · split <;> trivial

theorem rehash_afterSelect (s : State) (salt login password : Bytes) :
    (rehash crypt salt login password).afterSelect s := by
  unfold rehash
  split
  · trivial
  · split <;> trivial

theorem next_cases {s : State} {draw : Bytes} {p p' : Phase} {st : Statement}
    (h : next crypt cfg s draw p = some (st, p')) :
    st = .select ∧ p'.afterSelect s ∨ Writes s draw p st p' := by
  cases p with
  | entered r =>
    cases r with
    | setUserDisabled login disabled =>
      simp only [next] at h
      split at h
      · cases h
        exact .inl ⟨rfl, trivial⟩
      · split at h <;> cases h <;> exact .inl ⟨rfl, trivial⟩
    | createUser username password =>
      cases h
      exact .inl ⟨rfl, check_afterSelect s _ _ _⟩
    | registerUser username password setupToken =>
      simp only [next] at h
      split at h
      · cases h
        exact .inl ⟨rfl, trivial⟩
      · split at h <;> cases h <;> exact .inl ⟨rfl, trivial⟩
    | bootstrapUser login password =>
      simp only [next] at h
      split at h <;> cases h <;> exact .inl ⟨rfl, trivial⟩
    | login username password =>
      simp only [next] at h
      split at h
      · cases h
        exact .inl ⟨rfl, trivial⟩
      · rename_i u hu
        cases h
        exact .inl ⟨rfl, rfl, u, (Option.filter_eq_some_iff.mp hu).1, rfl⟩
    | setUserPassword login password =>
      cases h
      exact .inl ⟨rfl, rehash_afterSelect s _ _ _⟩
    | changeOwnPassword login currentPassword newPassword =>
      simp only [next] at h
      split at h <;> cases h <;> exact .inl ⟨rfl, trivial⟩
  | counting login =>
    simp only [next] at h
    split at h <;> cases h <;> exact .inl ⟨rfl, trivial⟩
  | disabling login disabled =>
    cases h
    exact .inr (.disabling login disabled)
  | revoking login =>
    cases h
    exact .inr (.revoking login)
  | checking maker username password =>
    cases h
    exact .inl ⟨rfl, check_afterSelect s _ _ _⟩
  | hashing maker login password =>
    simp only [next] at h
    split at h <;> cases h <;> exact .inl ⟨rfl, trivial⟩
  | inserting maker login password =>
    simp only [next] at h
    split at h
    · cases h
      exact .inl ⟨rfl, trivial⟩
    · rename_i hn
      cases h
      exact .inr (.inserting maker login password (Option.not_isSome_iff_eq_none.mp hn))
  | promoting id login =>
    cases h
    exact .inr (.promoting id login)
  | enabling login =>
    cases h
    exact .inr (.enabling login)
  | made maker id =>
    simp only [next, Option.some.injEq, Prod.mk.injEq] at h
    obtain ⟨rfl, rfl⟩ := h
    refine .inl ⟨rfl, ?_⟩
    split <;> trivial
  | starting userID verified =>
    simp only [next] at h
    split at h
    · cases h
    · rename_i hn
      cases h
      exact .inr (.starting userID verified hn)
  | authenticated login newPassword =>
    cases h
    exact .inl ⟨rfl, rehash_afterSelect s _ _ _⟩
  | updating login password =>
    simp only [next] at h
    split at h
    · rename_i hs
      cases h
      exact .inr (.updating login password hs)
    · cases h
      exact .inl ⟨rfl, trivial⟩
  | sweeping login updates =>
    cases h
    exact .inr (.sweeping login updates)
  | idle | changed _ _ | issued _ _ | done | failed _ => cases h

/-! ### Two administrators -/

/-- Stands for bcrypt in examples: the salt before the password. -/
def saltedText : Bcrypt where
  generateFromPassword salt password := some (salt ++ password)
  compareHashAndPassword hash password := decide (password <:+ hash)

def openConfig : Config := ⟨[], 3600000000000⟩

def start (users : Users) : State :=
  ⟨0, users, Keyed.empty, fun _ => .idle, fun _ => 0, fun _ => 0, [], []⟩

def twoAdmins : Users :=
  (Users.empty.insert (utf8 "ann") (utf8 "1secret") true).insert (utf8 "bob") (utf8 "2secret") true

end Mdock.App.Accounts
