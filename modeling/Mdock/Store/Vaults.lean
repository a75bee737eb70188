import Mdock.Go.Strings
import Mdock.Lib.Op
import Mdock.Store.Slug
import Mdock.Store.Users

/-! The tables `vaults` and `vault_members`, the transactions that make users and vaults, and
the statements between which a call of them can fail. -/
namespace Mdock.Store
open Mdock.Go Mdock.Lib Mdock.Locks.Expiry

structure Vault where
  id : Int
  name : Bytes
  slug : Bytes
  kind : Bytes
  path : Bytes
  archived : Bool
  remoteURL : Bytes
  lastPushAt : Bytes
  lastPushError : Bytes
  createdAt : Instant
  deriving DecidableEq

def kindPersonal : Bytes := utf8 "personal"
def kindShared : Bytes := utf8 "shared"
def roleOwner : Bytes := utf8 "owner"

/-- The table `vaults`: slugs, paths and ids are unique, ids count up from `seq`. -/
structure Vaults where
  table : Keyed Vault.slug
  seq : Int
  ids : (table.rows.map Vault.id).Nodup
  paths : (table.rows.map Vault.path).Nodup
  le_seq : ∀ v ∈ table.rows, v.id ≤ seq

structure Member where
  vaultID : Int
  userID : Int
  role : Bytes
  createdAt : Instant
  deriving DecidableEq

def Member.key (m : Member) : Int × Int := (m.vaultID, m.userID)

abbrev Members := Keyed Member.key

namespace Vaults

def empty : Vaults :=
  ⟨Keyed.empty, 0, by simp [Keyed.empty], by simp [Keyed.empty], by simp [Keyed.empty]⟩

/-- `INSERT INTO vaults`: the new id and table, or `none` where a constraint fails. -/
def insert (t : Vaults) (name slug kind path : Bytes) (now : Instant) : Option (Int × Vaults) :=
  if h : slug ∉ t.table.rows.map Vault.slug ∧ path ∉ t.table.rows.map Vault.path then
    some (t.seq + 1,
      { table := ⟨t.table.rows ++ [⟨t.seq + 1, name, slug, kind, path, false, [], [], [], now⟩], by
          rw [List.map_append]
          exact Users.nodup_concat t.table.nodup h.1⟩
        seq := t.seq + 1
        ids := by
          rw [List.map_append]
          refine Users.nodup_concat t.ids fun hm => ?_
          obtain ⟨v, hv, he⟩ := List.mem_map.mp hm
          have hle := t.le_seq v hv
          simp only at he
          omega
        paths := by
          rw [List.map_append]
          exact Users.nodup_concat t.paths h.2
        le_seq := by
          intro v hv
          rcases List.mem_append.mp hv with hv | hv
          · have := t.le_seq v hv
            omega
          · exact (congrArg Vault.id (List.mem_singleton.mp hv)).le })
  else none

/-- The paths stay unique where no other vault has the new one. -/
theorem nodup_setPath (t : Vaults) {id : Int} {path : Bytes}
    (h : ∀ v ∈ t.table.rows, v.path = path → v.id = id) :
    (t.table.rows.map fun v => if v.id = id then path else v.path).Nodup := by
  refine List.Nodup.map_on ?_ (List.Nodup.of_map _ t.paths)
  intro a ha b hb he
  have hid : a.id = b.id → a = b := fun he => List.inj_on_of_nodup_map t.ids ha hb he
  have hpath : a.path = b.path → a = b := fun he => List.inj_on_of_nodup_map t.paths ha hb he
  by_cases hai : a.id = id
  · by_cases hbi : b.id = id
    · exact hid (hai.trans hbi.symm)
    · rw [if_pos hai, if_neg hbi] at he
      exact absurd (h b hb he.symm) hbi
  · by_cases hbi : b.id = id
    · rw [if_neg hai, if_pos hbi] at he
      exact absurd (h a ha he) hai
    · rw [if_neg hai, if_neg hbi] at he
      exact hpath he

/-- `UPDATE vaults SET path WHERE id`, `none` where another vault has the path. -/
def setPath (t : Vaults) (id : Int) (path : Bytes) : Option Vaults :=
  if h : ∀ v ∈ t.table.rows, v.path = path → v.id = id then
    some
      { table := t.table.updateWhere (fun v => decide (v.id = id)) (fun v => { v with path := path })
          fun _ => rfl
        seq := t.seq
        ids := by
          have hk : (Vault.id ∘ fun v => if decide (v.id = id) then { v with path := path } else v) =
              Vault.id := by
            funext v
            by_cases hv : v.id = id <;> simp [hv]
          rw [Keyed.updateWhere, List.map_map, hk]
          exact t.ids
        paths := by
          have hk : (Vault.path ∘ fun v => if decide (v.id = id) then { v with path := path } else v) =
              fun v => if v.id = id then path else v.path := by
            funext v
            by_cases hv : v.id = id <;> simp [hv]
          rw [Keyed.updateWhere, List.map_map, hk]
          exact t.nodup_setPath h
        le_seq := by
          intro v hv
          obtain ⟨a, ha, rfl⟩ := List.mem_map.mp hv
          by_cases h : a.id = id <;> simpa [h] using t.le_seq a ha }
  else none

end Vaults

/-! ### Users and vaults are made -/

/-- The tables that these calls use. -/
structure Db where
  users : Users
  vaults : Vaults
  members : Members
  sessions : Sessions

/-- The tables that name accounts and vaults. -/
def Db.tables (d : Db) : Users × Vaults × Members := (d.users, d.vaults, d.members)

/-- What can fail by itself in a call: statements, the commit, the preparation of a vault. -/
inductive Step
  | countUsers | getUser | begin | insertUser | userID | insertVault (slug : Bytes) | vaultID
  | insertMember | setPath | commit
  | ensureVault | initIfNeeded | ensureMainBranch | queueForVault | replayPending | recoveryCommit
  | randomHex | insertSession
  deriving DecidableEq

inductive CreateErr
  | required | userExists | hash | userIDRequired | nameRequired | noSlug | registrationClosed
  | invalidSetupToken | io
  deriving DecidableEq

section Create
variable (faults : Step → Bool)

/-- A step that fails if it is meant to. -/
def stmt (s : Step) : Op CreateErr Db Unit := Op.require (faults s = false) .io

/-- `BeginTx` to `Commit`, with the deferred `Rollback`. -/
def withTx {α : Type} (body : Op CreateErr Db α) : Op CreateErr Db α := Op.transaction do
  stmt faults .begin
  let a ← body
  stmt faults .commit
  pure a

/-- `%d`. -/
def sprintInt (n : Int) : Bytes :=
  (if n < 0 then utf8 "-" else []) ++ if n = 0 then utf8 "0" else decimal n.natAbs n.natAbs

def pendingVaultPath (slug : Bytes) : Bytes := utf8 "__pending__-" ++ slug

/-- `INSERT INTO vault_members`, with its foreign keys. -/
def insertMember (m : Member) : Op CreateErr Db Unit := do
  stmt faults .insertMember
  let d ← Op.get
  Op.require ((d.members.get? m.key).isNone ∧ (∃ u ∈ d.users.table.rows, u.id = m.userID) ∧
    ∃ v ∈ d.vaults.table.rows, v.id = m.vaultID) .io
  Op.modify fun d => { d with members := d.members.upsert m }

/-- `UPDATE vaults SET path`. -/
def setVaultPath (vaultID : Int) (path : Bytes) : Op CreateErr Db Unit := do
  stmt faults .setPath
  let d ← Op.get
  match d.vaults.setPath vaultID path with
  | none => Op.ofExcept (.error .io)
  | some vaults => Op.modify fun d => { d with vaults := vaults }

/-- The loop over the slugs: one that is taken is passed over. -/
def insertVault (userID : Int) (name kind : Bytes) (now : Instant) : List Bytes →
    Op CreateErr Db Vault
  | [] => Op.ofExcept (.error .noSlug)
  | slug :: slugs => do
    stmt faults (.insertVault slug)
    let d ← Op.get
    match d.vaults.insert name slug kind (pendingVaultPath slug) now with
    | none => insertVault userID name kind now slugs
    | some (vaultID, vaults) => do
      Op.modify fun d => { d with vaults := vaults }
      stmt faults .vaultID
      insertMember faults ⟨vaultID, userID, roleOwner, now⟩
      let path := utf8 "vault-" ++ sprintInt vaultID
      setVaultPath faults vaultID path
      pure ⟨vaultID, name, slug, kind, path, false, [], [], [], now⟩

def vaultSlugs (name : Bytes) : List Bytes :=
  let base := slug (runes name)
  (List.range 100).map fun i => if i = 0 then base else base ++ utf8 "-" ++ sprintInt (i + 1)

def createVaultForUserTx (userID : Int) (name kind : Bytes) (now : Instant) :
    Op CreateErr Db Vault := do
  let name := trimSpace name
  Op.require (name ≠ []) .nameRequired
  insertVault faults userID name kind now (vaultSlugs name)

def createVaultForUser (userID : Int) (name kind : Bytes) (now : Instant) :
    Op CreateErr Db Vault := do
  Op.require (userID ≠ 0) .userIDRequired
  let kind := if kind = [] then kindShared else kind
  withTx faults (createVaultForUserTx faults userID name kind now)

/-- `hash` is what bcrypt makes of the password. -/
def createUser (login password : Bytes) (hash : Option Bytes) (isAdmin : Bool) (now : Instant) :
    Op CreateErr Db (User × Vault) := do
  let login := trimSpace login
  Op.require (login ≠ [] ∧ password ≠ []) .required
  stmt faults .getUser
  let d ← Op.get
  Op.require (d.users.getUserByLogin login = none) .userExists
  match hash with
  | none => Op.ofExcept (.error .hash)
  | some hash => withTx faults do
    stmt faults .insertUser
    let d ← Op.get
    Op.require (d.users.getUserByLogin login = none) .io
    Op.modify fun d => { d with users := d.users.insert login hash isAdmin }
    stmt faults .userID
    let userID := d.users.seq + 1
    let vault ← createVaultForUserTx faults userID login kindPersonal now
    pure (⟨userID, login, hash, isAdmin, false⟩, vault)

end Create

/-! ### Numerals -/

theorem sprintInt_of_nonneg {n : Int} (h : 0 ≤ n) :
    (∀ c ∈ sprintInt n, c ≠ dash) ∧ value (sprintInt n) = n.natAbs := by
  rw [sprintInt, if_neg (by omega), List.nil_append]
  split
  · rename_i h0
    subst h0
    exact ⟨by decide +kernel, by decide⟩
  · refine ⟨fun c hc => ?_, value_decimal le_rfl⟩
    rintro rfl
    exact absurd (decimal_digits _ _ _ hc) (by decide)

theorem sprintInt_of_neg {n : Int} (h : n < 0) :
    ∃ ds, sprintInt n = dash :: ds ∧ value ds = n.natAbs := by
  refine ⟨decimal n.natAbs n.natAbs, ?_, value_decimal le_rfl⟩
  rw [sprintInt, if_pos h, if_neg (by omega)]
  rfl

theorem sprintInt_inj {a b : Int} (h : sprintInt a = sprintInt b) : a = b := by
  have hsign : ∀ {m n : Int}, 0 ≤ m → n < 0 → sprintInt m ≠ sprintInt n := by
    intro m n hm hn he
    obtain ⟨ds, hds, -⟩ := sprintInt_of_neg hn
    exact (sprintInt_of_nonneg hm).1 dash (by rw [he, hds]; simp) rfl
  rcases lt_or_ge a 0 with ha | ha <;> rcases lt_or_ge b 0 with hb | hb
  · obtain ⟨da, hda, hva⟩ := sprintInt_of_neg ha
    obtain ⟨db, hdb, hvb⟩ := sprintInt_of_neg hb
    rw [hda, hdb, List.cons_inj_right] at h
    rw [h, hvb] at hva
    omega
  · exact absurd h.symm (hsign hb ha)
  · exact absurd h (hsign ha hb)
  · have hva := (sprintInt_of_nonneg ha).2
    rw [h, (sprintInt_of_nonneg hb).2] at hva
    omega

/-! ### What they leave -/

section Created
variable {faults : Step → Bool} {d d' : Db} {τ : Type} {φ : Db → τ}

theorem keeps_stmt (s : Step) : Op.Keeps φ (stmt faults s) := Op.keeps_require _ _

theorem stmt_ok {s : Step} {a : Unit} : stmt faults s d = (.ok a, d') ↔ faults s = false ∧ d' = d :=
  Op.require_ok

/-- A new vault touches neither users nor sessions. -/
theorem keeps_insertVault (userID : Int) (name kind : Bytes) (now : Instant) (slugs : List Bytes) :
    Op.Keeps (fun d : Db => (d.users, d.sessions))
      (insertVault faults userID name kind now slugs) := by
  induction slugs with
  | nil => exact Op.keeps_ofExcept _
  | cons slug slugs ih =>
    refine (keeps_stmt _).bind fun _ => Op.keeps_get.bind fun d => ?_
    split
    · exact ih
    · have hmember : ∀ m, Op.Keeps (fun d : Db => (d.users, d.sessions)) (insertMember faults m) :=
        fun m => (keeps_stmt _).bind fun _ => Op.keeps_get.bind fun _ =>
          (Op.keeps_require _ _).bind fun _ _ => rfl
      have hpath : ∀ id path, Op.Keeps (fun d : Db => (d.users, d.sessions))
          (setVaultPath faults id path) := fun id path =>
        (keeps_stmt _).bind fun _ => Op.keeps_get.bind fun d => by
          split
          · exact Op.keeps_ofExcept _
          · exact fun _ => rfl
      refine Op.Keeps.bind (fun _ => rfl) fun _ => (keeps_stmt _).bind fun _ => ?_
      exact (hmember _).bind fun _ => (hpath _ _).bind fun _ => Op.keeps_pure _

/-- The row that comes in, once it has its path. -/
theorem Vaults.setPath_insert {t u w : Vaults} {name slug kind path path' : Bytes} {now : Instant}
    {id : Int} (hi : t.insert name slug kind path now = some (id, u))
    (hs : u.setPath id path' = some w) : w.table.rows =
      t.table.rows ++ [⟨id, name, slug, kind, path', false, [], [], [], now⟩] := by
  unfold Vaults.insert at hi
  split at hi
  · cases hi
    unfold Vaults.setPath at hs
    split at hs
    · cases hs
      simp only [Keyed.updateWhere, List.map_append, List.map_cons, List.map_nil, decide_true,
        if_true]
      congr 1
      refine (List.map_congr_left fun v hv => ?_).trans (List.map_id _)
      have hle := t.le_seq v hv
      rw [if_neg (by simp only [decide_eq_true_eq]; omega)]
      rfl
    · cases hs
  · cases hi

theorem keeps_insertMember (m : Member) : Op.Keeps Db.vaults (insertMember faults m) :=
  (keeps_stmt _).bind fun _ => Op.keeps_get.bind fun _ => (Op.keeps_require _ _).bind fun _ _ => rfl

theorem setVaultPath_ok {id : Int} {path : Bytes}
    (h : setVaultPath faults id path d = (.ok (), d')) :
    d.vaults.setPath id path = some d'.vaults := by
  obtain ⟨⟨⟩, d₁, hstmt, h₁⟩ := Op.bind_ok.mp h
  obtain ⟨-, rfl⟩ := stmt_ok.mp hstmt
  obtain ⟨d₂, d₃, hget, h₂⟩ := Op.bind_ok.mp h₁
  obtain ⟨rfl, rfl⟩ := Op.get_ok.mp hget
  generalize hset : d₃.vaults.setPath id path = r at h₂
  cases r with
  | none => cases h₂
  | some vaults =>
    obtain rfl := Op.modify_ok.mp h₂
    rfl

/-- The row a new vault leaves has one of the slugs that were tried. -/
theorem insertVault_rows {userID : Int} {name kind : Bytes} {now : Instant} {slugs : List Bytes}
    {v : Vault}
    (h : insertVault faults userID name kind now slugs d = (.ok v, d')) :
    d'.vaults.table.rows = d.vaults.table.rows ++ [v] ∧ v.slug ∈ slugs ∧
      v.path = utf8 "vault-" ++ sprintInt v.id := by
  induction slugs with
  | nil => cases h
  | cons slug slugs ih =>
    obtain ⟨⟨⟩, d₁, hstmt, h₁⟩ := Op.bind_ok.mp h
    obtain ⟨-, rfl⟩ := stmt_ok.mp hstmt
    obtain ⟨d₂, d₃, hget, h₂⟩ := Op.bind_ok.mp h₁
    obtain ⟨rfl, rfl⟩ := Op.get_ok.mp hget
    generalize hins : d₃.vaults.insert name slug kind (pendingVaultPath slug) now = r at h₂
    cases r with
    | none =>
      obtain ⟨hrows, hslug, hpath⟩ := ih h₂
      exact ⟨hrows, List.mem_cons_of_mem slug hslug, hpath⟩
    | some a =>
      obtain ⟨id, vaults⟩ := a
      obtain ⟨⟨⟩, d₄, hmod, h₃⟩ := Op.bind_ok.mp h₂
      obtain rfl := Op.modify_ok.mp hmod
      obtain ⟨⟨⟩, d₅, hstmt', h₄⟩ := Op.bind_ok.mp h₃
      obtain ⟨-, rfl⟩ := stmt_ok.mp hstmt'
      obtain ⟨⟨⟩, d₆, hmember, h₅⟩ := Op.bind_ok.mp h₄
      obtain ⟨⟨⟩, d₇, hpath, h₆⟩ := Op.bind_ok.mp h₅
      obtain ⟨rfl, rfl⟩ := Op.pure_ok.mp h₆
      have hsame : d₆.vaults = vaults := (keeps_insertMember _).of_eq hmember
      have hset := setVaultPath_ok hpath
      rw [hsame] at hset
      exact ⟨Vaults.setPath_insert hins hset, List.mem_cons_self, rfl⟩

theorem withTx_ok {α : Type} {body : Op CreateErr Db α} {a : α}
    (h : withTx faults body d = (.ok a, d')) : body d = (.ok a, d') := by
  obtain ⟨⟨⟩, d₁, hbegin, h₁⟩ := Op.bind_ok.mp (Op.transaction_ok.mp h)
  obtain ⟨-, rfl⟩ := stmt_ok.mp hbegin
  obtain ⟨b, d₂, hbody, h₂⟩ := Op.bind_ok.mp h₁
  obtain ⟨⟨⟩, d₃, hcommit, h₃⟩ := Op.bind_ok.mp h₂
  obtain ⟨-, rfl⟩ := stmt_ok.mp hcommit
  obtain ⟨rfl, rfl⟩ := Op.pure_ok.mp h₃
  exact hbody

theorem createVaultForUserTx_ok {userID : Int} {name kind : Bytes} {now : Instant} {v : Vault}
    (h : createVaultForUserTx faults userID name kind now d = (.ok v, d')) :
    d'.vaults.table.rows.length = d.vaults.table.rows.length + 1 ∧ d'.users = d.users ∧
      d'.sessions = d.sessions := by
  obtain ⟨⟨⟩, d₁, hreq, h₁⟩ := Op.bind_ok.mp h
  obtain ⟨-, rfl⟩ := Op.require_ok.mp hreq
  have hkeep := (keeps_insertVault userID _ kind now _).of_eq h₁
  have hlen : d'.vaults.table.rows.length = d₁.vaults.table.rows.length + 1 := by
    rw [(insertVault_rows h₁).1, List.length_append, List.length_singleton]
  exact ⟨hlen, congrArg Prod.fst hkeep, congrArg Prod.snd hkeep⟩

theorem createVaultForUser_ok {userID : Int} {name kind : Bytes} {now : Instant} {v : Vault}
    (h : createVaultForUser faults userID name kind now d = (.ok v, d')) :
    d'.vaults.table.rows.length = d.vaults.table.rows.length + 1 := by
  obtain ⟨⟨⟩, d₁, hreq, h₁⟩ := Op.bind_ok.mp h
  obtain ⟨-, rfl⟩ := Op.require_ok.mp hreq
  exact (createVaultForUserTx_ok (withTx_ok h₁)).1

/-- A user that is made has a vault made by the same transaction. -/
theorem createUser_tx {login password : Bytes} {hash : Option Bytes} {isAdmin : Bool}
    {now : Instant} {a : User × Vault}
    (h : createUser faults login password hash isAdmin now d = (.ok a, d')) :
    ∃ hash, d.users.getUserByLogin (trimSpace login) = none ∧ a.1.id = d.users.seq + 1 ∧
      createVaultForUserTx faults (d.users.seq + 1) (trimSpace login) kindPersonal now
        { d with users := d.users.insert (trimSpace login) hash isAdmin } = (.ok a.2, d') := by
  obtain ⟨⟨⟩, d₁, hreq, h₁⟩ := Op.bind_ok.mp h
  obtain ⟨-, rfl⟩ := Op.require_ok.mp hreq
  obtain ⟨⟨⟩, d₂, hstmt, h₂⟩ := Op.bind_ok.mp h₁
  obtain ⟨-, rfl⟩ := stmt_ok.mp hstmt
  obtain ⟨d₃, d₄, hget, h₃⟩ := Op.bind_ok.mp h₂
  obtain ⟨rfl, rfl⟩ := Op.get_ok.mp hget
  obtain ⟨⟨⟩, d₅, hfree, h₄⟩ := Op.bind_ok.mp h₃
  obtain ⟨hnone, rfl⟩ := Op.require_ok.mp hfree
  cases hash with
  | none => cases h₄
  | some hash =>
    obtain ⟨⟨⟩, d₆, hins, h₅⟩ := Op.bind_ok.mp (withTx_ok h₄)
    obtain ⟨-, rfl⟩ := stmt_ok.mp hins
    obtain ⟨d₇, d₈, hget', h₆⟩ := Op.bind_ok.mp h₅
    obtain ⟨rfl, rfl⟩ := Op.get_ok.mp hget'
    obtain ⟨⟨⟩, d₉, hfree', h₇⟩ := Op.bind_ok.mp h₆
    obtain ⟨-, rfl⟩ := Op.require_ok.mp hfree'
    obtain ⟨⟨⟩, e₁, hmod, h₈⟩ := Op.bind_ok.mp h₇
    obtain rfl := Op.modify_ok.mp hmod
    obtain ⟨⟨⟩, e₂, hid, h₉⟩ := Op.bind_ok.mp h₈
    obtain ⟨-, rfl⟩ := stmt_ok.mp hid
    obtain ⟨v, e₃, htx, hpure⟩ := Op.bind_ok.mp h₉
    obtain ⟨rfl, rfl⟩ := Op.pure_ok.mp hpure
    exact ⟨hash, hnone, rfl, htx⟩

/-- A user that is made is in the table, and the table is one longer. -/
theorem createUser_ok {login password : Bytes} {hash : Option Bytes} {isAdmin : Bool}
    {now : Instant} {a : User × Vault}
    (h : createUser faults login password hash isAdmin now d = (.ok a, d')) :
    d'.users.countUsers = d.users.countUsers + 1 ∧ d'.sessions = d.sessions ∧
      ∃ u ∈ d'.users.table.rows, u.id = a.1.id := by
  obtain ⟨hash, hnone, hid, htx⟩ := createUser_tx h
  obtain ⟨-, husers, hsessions⟩ := createVaultForUserTx_ok htx
  rw [husers, hsessions, hid]
  exact ⟨Users.countUsers_insert hnone, rfl, _, (Users.mem_insert hnone).mpr (.inr rfl), rfl⟩

theorem atomic_createVaultForUser (userID : Int) (name kind : Bytes) (now : Instant) :
    Op.Atomic φ (createVaultForUser faults userID name kind now) :=
  Op.Atomic.after (Op.keeps_require _ _) fun _ => Op.atomic_transaction _

theorem atomic_createUser (login password : Bytes) (hash : Option Bytes) (isAdmin : Bool)
    (now : Instant) : Op.Atomic φ (createUser faults login password hash isAdmin now) := by
  refine Op.Atomic.after (Op.keeps_require _ _) fun _ => Op.Atomic.after (keeps_stmt _) fun _ => ?_
  refine Op.Atomic.after Op.keeps_get fun d => Op.Atomic.after (Op.keeps_require _ _) fun _ => ?_
  cases hash with
  | none => exact (Op.keeps_ofExcept _).atomic
  | some hash => exact Op.atomic_transaction _

end Created
end Mdock.Store
