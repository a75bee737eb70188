import Mdock.Store.Vaults

/-! What a failed `RegisterUser`, `CreateUser` or `CreateVault` leaves in the database. The
transaction of the store is committed before the vault is prepared and the session is made. -/
namespace Mdock.App.Creation
open Mdock.Go Mdock.Lib Mdock.Store Mdock.Locks.Expiry

/-- What a call meets: the steps that fail, what bcrypt makes of the password, the clock, the
session id that is drawn, and the configuration. -/
structure Env where
  faults : Step → Bool
  hash : Option Bytes
  now : Instant
  draw : Bytes
  sessionTTL : Int
  firstAdminToken : Bytes

variable (env : Env)

/-- `PrepareVault`: none of its steps is a statement on the tables here. -/
def prepareVault : Op CreateErr Db Unit := do
  stmt env.faults .ensureVault
  stmt env.faults .initIfNeeded
  stmt env.faults .ensureMainBranch
  stmt env.faults .queueForVault
  stmt env.faults .replayPending
  stmt env.faults .recoveryCommit

def createSession (userID : Int) : Op CreateErr Db (Bytes × Instant) := do
  stmt env.faults .randomHex
  stmt env.faults .insertSession
  let d ← Op.get
  Op.require ((d.sessions.get? env.draw).isNone ∧ ∃ u ∈ d.users.table.rows, u.id = userID) .io
  let expiresAt := env.now + env.sessionTTL
  Op.modify fun d => { d with sessions := d.sessions.upsert ⟨env.draw, userID, expiresAt, env.now⟩ }
  pure (env.draw, expiresAt)

def registerUser (username password setupToken : Bytes) :
    Op CreateErr Db (User × Vault × Bytes × Instant) := do
  stmt env.faults .countUsers
  let d ← Op.get
  Op.require (d.users.countUsers = 0) .registrationClosed
  Op.require (env.firstAdminToken = [] ∨ setupToken = env.firstAdminToken) .invalidSetupToken
  let (user, item) ← Store.createUser env.faults username password env.hash true env.now
  prepareVault env
  let (sessionID, expiresAt) ← createSession env user.id
  pure (user, item, sessionID, expiresAt)

def createUser (username password : Bytes) : Op CreateErr Db (User × Vault) := do
  let (user, item) ← Store.createUser env.faults username password env.hash false env.now
  prepareVault env
  pure (user, item)

def createVault (userID : Int) (name : Bytes) : Op CreateErr Db Vault := do
  let item ← createVaultForUser env.faults userID name kindShared env.now
  prepareVault env
  pure item

inductive Call
  | registerUser (username password setupToken : Bytes)
  | createUser (username password : Bytes)
  | createVault (userID : Int) (name : Bytes)

namespace Call

/-- A call, without what it returns. -/
def run : Call → Op CreateErr Db Unit
  | .registerUser username password setupToken =>
    (fun _ => ()) <$> Creation.registerUser env username password setupToken
  | .createUser username password => (fun _ => ()) <$> Creation.createUser env username password
  | .createVault userID name => (fun _ => ()) <$> Creation.createVault env userID name

/-- A call up to the commit of its transaction; it returns the user a session is made for. -/
def create : Call → Op CreateErr Db Int
  | .registerUser username password setupToken => do
    stmt env.faults .countUsers
    let d ← Op.get
    Op.require (d.users.countUsers = 0) .registrationClosed
    Op.require (env.firstAdminToken = [] ∨ setupToken = env.firstAdminToken) .invalidSetupToken
    let (user, _) ← Store.createUser env.faults username password env.hash true env.now
    pure user.id
  | .createUser username password => do
    let (user, _) ← Store.createUser env.faults username password env.hash false env.now
    pure user.id
  | .createVault userID name => do
    let _ ← createVaultForUser env.faults userID name kindShared env.now
    pure userID

/-- Whether a session is made. -/
def registers : Call → Bool
  | .registerUser .. => true
  | _ => false

/-- A call after the commit. -/
def finish (c : Call) (userID : Int) : Op CreateErr Db Unit := do
  prepareVault env
  if c.registers then
    let _ ← createSession env userID
    pure ()
  else pure ()

/-- The steps after the commit. -/
def laterSteps (c : Call) : List Step :=
  [.ensureVault, .initIfNeeded, .ensureMainBranch, .queueForVault, .replayPending,
    .recoveryCommit] ++ if c.registers then [.randomHex, .insertSession] else []

/-- Nothing fails after the commit. -/
def Finishes (c : Call) (d : Db) : Prop :=
  (∀ s ∈ c.laterSteps, env.faults s = false) ∧
    (c.registers = true → d.sessions.get? env.draw = none)

theorem run_eq (c : Call) : c.run env = c.create env >>= c.finish env := by
  cases c with
  | registerUser username password setupToken =>
    simp only [run, create, finish, registers, Creation.registerUser, map_bind, map_pure, bind_assoc,
      pure_bind, if_true]
  | createUser username password =>
    simp only [run, create, finish, registers, Creation.createUser, map_bind, map_pure, bind_assoc,
      pure_bind, Bool.false_eq_true, if_false]
  | createVault userID name =>
    simp only [run, create, finish, registers, Creation.createVault, map_bind, map_pure, bind_assoc,
      pure_bind, Bool.false_eq_true, if_false]

end Call

/-! ### After the commit -/

section Later
variable {env : Env} {d d' : Db} {τ : Type} {φ : Db → τ}

theorem keeps_prepareVault : Op.Keeps φ (prepareVault env) :=
  (keeps_stmt _).bind fun _ => (keeps_stmt _).bind fun _ => (keeps_stmt _).bind fun _ =>
    (keeps_stmt _).bind fun _ => (keeps_stmt _).bind fun _ => keeps_stmt _

theorem keeps_createSession (userID : Int) : Op.Keeps Db.tables (createSession env userID) :=
  (keeps_stmt _).bind fun _ => (keeps_stmt _).bind fun _ => Op.keeps_get.bind fun _ =>
    (Op.keeps_require _ _).bind fun _ => Op.Keeps.bind (fun _ => rfl) fun _ => Op.keeps_pure _

theorem keeps_finish (c : Call) (userID : Int) : Op.Keeps Db.tables (c.finish env userID) := by
  refine keeps_prepareVault.bind fun _ => ?_
  split
  · exact (keeps_createSession userID).bind fun _ => Op.keeps_pure _
  · exact Op.keeps_pure _

theorem prepareVault_ok {a : Unit} : prepareVault env d = (.ok a, d') ↔
    (∀ s ∈ [Step.ensureVault, .initIfNeeded, .ensureMainBranch, .queueForVault, .replayPending,
      .recoveryCommit], env.faults s = false) ∧ d' = d := by
  simp only [prepareVault, Op.bind_ok, stmt_ok, List.forall_mem_cons, List.not_mem_nil]
  constructor
  · rintro ⟨-, d₁, ⟨h₁, rfl⟩, -, d₂, ⟨h₂, rfl⟩, -, d₃, ⟨h₃, rfl⟩, -, d₄, ⟨h₄, rfl⟩, -, d₅, ⟨h₅, rfl⟩,
      h₆, rfl⟩
    exact ⟨⟨h₁, h₂, h₃, h₄, h₅, h₆, fun _ h => h.elim⟩, rfl⟩
  · rintro ⟨⟨h₁, h₂, h₃, h₄, h₅, h₆, -⟩, rfl⟩
    exact ⟨(), _, ⟨h₁, rfl⟩, (), _, ⟨h₂, rfl⟩, (), _, ⟨h₃, rfl⟩, (), _, ⟨h₄, rfl⟩, (), _, ⟨h₅, rfl⟩,
      h₆, rfl⟩

theorem createSession_ok {userID : Int} : (∃ a d', createSession env userID d = (.ok a, d')) ↔
    (∀ s ∈ [Step.randomHex, .insertSession], env.faults s = false) ∧
      d.sessions.get? env.draw = none ∧ ∃ u ∈ d.users.table.rows, u.id = userID := by
  simp only [createSession, Op.bind_ok, stmt_ok, Op.get_ok, Op.require_ok, Op.modify_ok, Op.pure_ok,
    List.forall_mem_cons, List.not_mem_nil, Option.isNone_iff_eq_none]
  constructor
  · rintro ⟨a, d', -, d₁, ⟨h₁, rfl⟩, -, d₂, ⟨h₂, rfl⟩, d₃, d₄, ⟨rfl, rfl⟩, -, d₅, ⟨hfree, rfl⟩, -⟩
    exact ⟨⟨h₁, h₂, fun _ h => h.elim⟩, hfree⟩
  · rintro ⟨⟨h₁, h₂, -⟩, hfree⟩
    exact ⟨_, _, (), _, ⟨h₁, rfl⟩, (), _, ⟨h₂, rfl⟩, _, _, ⟨rfl, rfl⟩, (), _, ⟨hfree, rfl⟩, (), _, rfl,
      rfl, rfl⟩

/-- The steps after the commit all go through just where none of them fails. -/
theorem finish_ok {c : Call} {userID : Int}
    (hu : c.registers = true → ∃ u ∈ d.users.table.rows, u.id = userID) :
    (∃ d', c.finish env userID d = (.ok (), d')) ↔ c.Finishes env d := by
  constructor
  · rintro ⟨d', h⟩
    obtain ⟨⟨⟩, d₁, hprep, h₁⟩ := Op.bind_ok.mp h
    obtain ⟨hsteps, rfl⟩ := prepareVault_ok.mp hprep
    cases hc : c.registers with
    | false =>
      refine ⟨by simpa [Call.laterSteps, hc] using hsteps, fun hr => ?_⟩
      rw [hc] at hr
      cases hr
    | true =>
      rw [hc, if_pos rfl] at h₁
      obtain ⟨a, d₂, hsession, -⟩ := Op.bind_ok.mp h₁
      obtain ⟨hlast, hfree, -⟩ := createSession_ok.mp ⟨a, d₂, hsession⟩
      refine ⟨?_, fun _ => hfree⟩
      rw [Call.laterSteps, hc, if_pos rfl, List.forall_mem_append]
      exact ⟨hsteps, hlast⟩
  · rintro ⟨hsteps, hfree⟩
    rw [Call.laterSteps, List.forall_mem_append] at hsteps
    have hprep : prepareVault env d = (.ok (), d) := prepareVault_ok.mpr ⟨hsteps.1, rfl⟩
    rw [Call.finish, Op.bind_of_ok hprep]
    cases hc : c.registers with
    | false => exact ⟨d, rfl⟩
    | true =>
      rw [hc, if_pos rfl] at hsteps
      obtain ⟨a, d₂, hsession⟩ := createSession_ok.mpr ⟨hsteps.2, hfree hc, hu hc⟩
      rw [if_pos rfl, Op.bind_of_ok hsession]
      exact ⟨d₂, rfl⟩

theorem atomic_create (c : Call) : Op.Atomic Db.tables (c.create env) := by
  cases c with
  | registerUser username password setupToken =>
    refine Op.Atomic.after (keeps_stmt _) fun _ => Op.Atomic.after Op.keeps_get fun _ => ?_
    refine Op.Atomic.after (Op.keeps_require _ _) fun _ => ?_
    refine Op.Atomic.after (Op.keeps_require _ _) fun _ => ?_
    exact (atomic_createUser _ _ _ _ _).returning fun a => a.1.id
  | createUser username password =>
    exact (atomic_createUser _ _ _ _ _).returning fun a => a.1.id
  | createVault userID name => exact (atomic_createVaultForUser _ _ _ _).returning fun _ => userID

/-- A transaction that is committed makes a user or a vault. -/
theorem create_ok {c : Call} {userID : Int} (h : c.create env d = (.ok userID, d')) :
    d'.tables ≠ d.tables ∧
      (c.registers = true → d'.sessions = d.sessions ∧ ∃ u ∈ d'.users.table.rows, u.id = userID) := by
  have hmade : ∀ {login password hash isAdmin} {d₁ : Db},
      (do
        let a ← Store.createUser env.faults login password hash isAdmin env.now
        pure a.1.id) d₁ = (.ok userID, d') →
      d'.tables ≠ d₁.tables ∧ d'.sessions = d₁.sessions ∧
        ∃ u ∈ d'.users.table.rows, u.id = userID := by
    intro login password hash isAdmin d₁ h
    obtain ⟨a, d₂, hmade, h⟩ := Op.bind_ok.mp h
    obtain ⟨rfl, rfl⟩ := Op.pure_ok.mp h
    obtain ⟨hcount, hrest⟩ := createUser_ok hmade
    refine ⟨fun he => ?_, hrest⟩
    have husers : d₂.users = d₁.users := congrArg Prod.fst he
    rw [husers] at hcount
    omega
  cases c with
  | registerUser username password setupToken =>
    obtain ⟨⟨⟩, d₁, hstmt, h₁⟩ := Op.bind_ok.mp h
    obtain ⟨-, rfl⟩ := stmt_ok.mp hstmt
    obtain ⟨d₂, d₃, hget, h₂⟩ := Op.bind_ok.mp h₁
    obtain ⟨rfl, rfl⟩ := Op.get_ok.mp hget
    obtain ⟨⟨⟩, d₄, hopen, h₃⟩ := Op.bind_ok.mp h₂
    obtain ⟨-, rfl⟩ := Op.require_ok.mp hopen
    obtain ⟨⟨⟩, d₅, htoken, h₄⟩ := Op.bind_ok.mp h₃
    obtain ⟨-, rfl⟩ := Op.require_ok.mp htoken
    exact ⟨(hmade h₄).1, fun _ => (hmade h₄).2⟩
  | createUser username password => exact ⟨(hmade h).1, fun he => by cases he⟩
  | createVault userID' name =>
    obtain ⟨v, d₁, hvault, h₁⟩ := Op.bind_ok.mp h
    obtain ⟨-, rfl⟩ := Op.pure_ok.mp h₁
    have hlen := createVaultForUser_ok hvault
    refine ⟨fun he => ?_, fun he => by cases he⟩
    have hvaults : d₁.vaults = d.vaults := congrArg (fun x => x.2.1) he
    rw [hvaults] at hlen
    omega

end Later

/-- A call that fails leaves the tables just where its transaction is not committed, or nothing
fails after the commit. -/
theorem failed_sameTables_iff (env : Env) (c : Call) (d : Db) :
    (∀ e d', c.run env d = (.error e, d') → d'.tables = d.tables) ↔
      ((c.create env d).1.isOk = true → c.Finishes env d) := by
  rw [Call.run_eq]
  cases hc : c.create env d with
  | mk res d₁ =>
    cases res with
    | error e =>
      simp only [Except.isOk, Except.toBool, Bool.false_eq_true, false_imp_iff, iff_true]
      intro e' d' h
      rw [Op.bind_of_error hc] at h
      cases h
      exact atomic_create c d e _ hc
    | ok userID =>
      obtain ⟨hne, hreg⟩ := create_ok hc
      have hfin : (∃ d', c.finish env userID d₁ = (.ok (), d')) ↔ c.Finishes env d := by
        rw [finish_ok fun h => (hreg h).2]
        refine and_congr_right fun _ => forall_congr' fun h => ?_
        rw [(hreg h).1]
      rw [Op.bind_of_ok hc, ← hfin]
      simp only [Except.isOk, Except.toBool, true_imp_iff]
      cases hres : c.finish env userID d₁ with
      | mk res d₂ =>
        have hsame : d₂.tables = d₁.tables := (keeps_finish c userID).of_eq hres
        cases res with
        | ok a => exact iff_of_true (fun e d' h => by cases h) ⟨d₂, rfl⟩
        | error e =>
          refine iff_of_false (fun h => hne ?_) fun ⟨d', h⟩ => by cases h
          rw [← hsame]
          exact h e d₂ rfl

/-! ### A registration without git -/

def emptyDb : Db := ⟨Users.empty, Vaults.empty, Keyed.empty, Keyed.empty⟩

def registerAnn : Call := .registerUser (utf8 "ann") (utf8 "secret") []

/-- Everything goes through but the given step. -/
def failing (s : Option Step) : Env := ⟨fun s' => decide (some s' = s), some [], 0, [1], 3600, []⟩

/-- The repository is not made; the user stays, and the call that is made again is refused. -/
theorem failed_registration_stays : ∃ d', registerAnn.run (failing (some .initIfNeeded)) emptyDb =
    (.error .io, d') ∧ d'.tables ≠ emptyDb.tables ∧
      (registerAnn.run (failing none) d').1 = .error .registrationClosed := by
  have hrun : (registerAnn.run (failing (some .initIfNeeded)) emptyDb).1 = .error .io ∧
      (registerAnn.run (failing (some .initIfNeeded)) emptyDb).2.users.countUsers = 1 ∧
      (registerAnn.run (failing none)
        (registerAnn.run (failing (some .initIfNeeded)) emptyDb).2).1 =
          .error .registrationClosed := by decide +kernel
  refine ⟨_, Prod.ext hrun.1 rfl, fun he => ?_, hrun.2.2⟩
  have husers : (registerAnn.run (failing (some .initIfNeeded)) emptyDb).2.users = emptyDb.users :=
    congrArg Prod.fst he
  rw [husers] at hrun
  exact absurd hrun.2.1 (by decide)

end Mdock.App.Creation
