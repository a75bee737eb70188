import Mdock.Store.Slugs

/-! Who may see what: the lookups of a vault by its members and of a user by a session, and the
statements that change vaults, passwords and sessions. -/
namespace Mdock.Store
open Mdock.Go Mdock.Lib Mdock.Locks.Expiry

namespace Db
variable (d : Db)

/-- `vaultForUserBySlug`: the vault with the role of the user in it. -/
def vaultForUserBySlug (userID : Int) (slug : Bytes) (includeArchived : Bool) :
    Option (Vault × Bytes) :=
  match d.vaults.table.get? slug with
  | none => none
  | some v =>
    match d.members.get? (v.id, userID) with
    | none => none
    | some m => if includeArchived ∨ v.archived = false then some (v, m.role) else none

/-- The three filters of `ListVaultsForUserArchived`; any other is an error. -/
def archivedFilter (archived : Bytes) : Option (Vault → Bool) :=
  if archived = utf8 "only" then some Vault.archived
  else if archived = utf8 "include" then some fun _ => true
  else if archived = [] ∨ archived = utf8 "active" then some fun v => !v.archived
  else none

def listVaultsForUserArchived (userID : Int) (archived : Bytes) : Option (List (Vault × Bytes)) :=
  (archivedFilter archived).map fun keep =>
    (d.vaults.table.rows.insertionSort fun a b => a.slug ≤ b.slug).filterMap fun v =>
      if keep v then (d.members.get? (v.id, userID)).map fun m => (v, m.role) else none

def vaultByID (id : Int) : Option Vault := d.vaults.table.rows.find? fun v => decide (v.id = id)

/-- `ListVaultMembers`: the users in a vault, with their rows there. -/
def listVaultMembers (vaultID : Int) : List (User × Member) :=
  (d.users.table.rows.insertionSort fun a b => a.login ≤ b.login).filterMap fun u =>
    (d.members.get? (vaultID, u.id)).map fun m => (u, m)

def listUsers : List User := d.users.table.rows.insertionSort fun a b => a.login ≤ b.login

end Db

namespace Vaults

/-- `UPDATE vaults SET f WHERE id`, for an `f` that leaves slug, path and id alone. -/
def updateByID (t : Vaults) (id : Int) (f : Vault → Vault) (hs : ∀ v, (f v).slug = v.slug)
    (hp : ∀ v, (f v).path = v.path) (hi : ∀ v, (f v).id = v.id) : Vaults where
  table := t.table.updateWhere (fun v => decide (v.id = id)) f hs
  seq := t.seq
  ids := by
    have hk : (Vault.id ∘ fun v => if decide (v.id = id) then f v else v) = Vault.id := by
      funext v
      by_cases h : v.id = id <;> simp [h, hi]
    rw [Keyed.updateWhere, List.map_map, hk]
    exact t.ids
  paths := by
    have hk : (Vault.path ∘ fun v => if decide (v.id = id) then f v else v) = Vault.path := by
      funext v
      by_cases h : v.id = id <;> simp [h, hp]
    rw [Keyed.updateWhere, List.map_map, hk]
    exact t.paths
  le_seq := by
    intro v hv
    obtain ⟨a, ha, rfl⟩ := List.mem_map.mp hv
    by_cases h : a.id = id <;> simpa [h, hi] using t.le_seq a ha

def updateName (t : Vaults) (id : Int) (name : Bytes) : Vaults :=
  t.updateByID id (fun v => { v with name := name }) (fun _ => rfl) (fun _ => rfl) fun _ => rfl

def setArchived (t : Vaults) (id : Int) (archived : Bool) : Vaults :=
  t.updateByID id (fun v => { v with archived := archived }) (fun _ => rfl) (fun _ => rfl)
    fun _ => rfl

theorem mem_updateByID {t : Vaults} {id : Int} {f : Vault → Vault} (hs : ∀ v, (f v).slug = v.slug)
    (hp : ∀ v, (f v).path = v.path) (hi : ∀ v, (f v).id = v.id) {v : Vault} :
    v ∈ (t.updateByID id f hs hp hi).table.rows ↔
      ∃ a ∈ t.table.rows, v = if a.id = id then f a else a := by
  simp only [updateByID, Keyed.updateWhere, List.mem_map, decide_eq_true_eq]
  exact exists_congr fun a => and_congr_right fun _ => eq_comm

theorem mem_setArchived {t : Vaults} {id : Int} {archived : Bool} {v : Vault} :
    v ∈ (t.setArchived id archived).table.rows ↔
      ∃ a ∈ t.table.rows, v = if a.id = id then { a with archived := archived } else a :=
  mem_updateByID _ _ _

end Vaults

/-- `DeleteSession`. -/
def deleteSession (t : Sessions) (id : Bytes) : Sessions :=
  if id = [] then t else t.deleteWhere fun r => decide (r.id = id)

/-! ### What a lookup finds -/

section Lookup
variable {d : Db} {userID : Int} {slug : Bytes} {includeArchived : Bool} {v : Vault} {role : Bytes}

theorem vaultForUserBySlug_some :
    d.vaultForUserBySlug userID slug includeArchived = some (v, role) ↔
      v ∈ d.vaults.table.rows ∧ v.slug = slug ∧ (includeArchived ∨ v.archived = false) ∧
        ∃ m ∈ d.members.rows, m.vaultID = v.id ∧ m.userID = userID ∧ m.role = role := by
  unfold Db.vaultForUserBySlug
  constructor
  · intro h
    split at h
    · cases h
    · rename_i w hw
      split at h
      · cases h
      · rename_i m hm
        split at h
        · rename_i ha
          cases h
          obtain ⟨hmem, hkey⟩ := Keyed.get?_eq_some_iff.mp hm
          obtain ⟨hvid, huid⟩ := Prod.mk.injEq .. ▸ hkey
          exact ⟨Keyed.mem_of_get? hw, Keyed.key_of_get? hw, ha, m, hmem, hvid, huid, rfl⟩
        · cases h
  · rintro ⟨hv, rfl, ha, m, hm, hvid, rfl, rfl⟩
    have hget : d.members.get? (v.id, m.userID) = some m :=
      Keyed.get?_eq_some_iff.mpr ⟨hm, by rw [Member.key, hvid]⟩
    simp only [Keyed.get?_of_mem hv, hget, ha, if_true]

theorem mem_listVaults {archived : Bytes} {l : List (Vault × Bytes)} {keep : Vault → Bool}
    (hk : Db.archivedFilter archived = some keep)
    (h : d.listVaultsForUserArchived userID archived = some l) :
    (v, role) ∈ l ↔ v ∈ d.vaults.table.rows ∧ keep v ∧
      ∃ m ∈ d.members.rows, m.vaultID = v.id ∧ m.userID = userID ∧ m.role = role := by
  rw [Db.listVaultsForUserArchived, hk] at h
  cases h
  simp only [List.mem_filterMap, List.mem_insertionSort]
  constructor
  · rintro ⟨w, hw, h⟩
    split at h
    · rename_i hkeep
      obtain ⟨m, hm, he⟩ := Option.map_eq_some_iff.mp h
      cases he
      obtain ⟨hmem, hkey⟩ := Keyed.get?_eq_some_iff.mp hm
      obtain ⟨hvid, huid⟩ := Prod.mk.injEq .. ▸ hkey
      exact ⟨hw, hkeep, m, hmem, hvid, huid, rfl⟩
    · cases h
  · rintro ⟨hv, hkeep, m, hm, hvid, rfl, rfl⟩
    have hget : d.members.get? (v.id, m.userID) = some m :=
      Keyed.get?_eq_some_iff.mpr ⟨hm, by rw [Member.key, hvid]⟩
    exact ⟨v, hv, by rw [if_pos hkeep, hget]; rfl⟩

end Lookup

/-! ### A vault that is made -/

/-- A new vault and its only member. -/
structure Founded (userID : Int) (d d' : Db) : Prop where
  users : d'.users = d.users
  sessions : d'.sessions = d.sessions
  rows : ∃ v now, d'.vaults.table.rows = d.vaults.table.rows ++ [v] ∧ v.id = d.vaults.seq + 1 ∧
    d'.vaults.seq = v.id ∧ IsSlug v.slug ∧ v.path = vaultPath v.id ∧
    d'.members = d.members.upsert ⟨v.id, userID, roleOwner, now⟩
  user : ∃ u ∈ d.users.table.rows, u.id = userID

section Made
variable {faults : Step → Bool} {d d' : Db} {userID : Int} {name kind : Bytes} {now : Instant}

theorem insertMember_ok {m : Member} {a : Unit} (h : insertMember faults m d = (.ok a, d')) :
    (∃ u ∈ d.users.table.rows, u.id = m.userID) ∧
      d' = { d with members := d.members.upsert m } := by
  obtain ⟨⟨⟩, d₁, hstmt, h₁⟩ := Op.bind_ok.mp h
  obtain ⟨-, rfl⟩ := stmt_ok.mp hstmt
  obtain ⟨d₂, d₃, hget, h₂⟩ := Op.bind_ok.mp h₁
  obtain ⟨rfl, rfl⟩ := Op.get_ok.mp hget
  obtain ⟨⟨⟩, d₄, hreq, h₃⟩ := Op.bind_ok.mp h₂
  obtain ⟨⟨-, hu, -⟩, rfl⟩ := Op.require_ok.mp hreq
  exact ⟨hu, Op.modify_ok.mp h₃⟩

theorem setVaultPath_eq {id : Int} {path : Bytes} {a : Unit}
    (h : setVaultPath faults id path d = (.ok a, d')) :
    ∃ vaults, d.vaults.setPath id path = some vaults ∧ d' = { d with vaults := vaults } := by
  obtain ⟨⟨⟩, d₁, hstmt, h₁⟩ := Op.bind_ok.mp h
  obtain ⟨-, rfl⟩ := stmt_ok.mp hstmt
  obtain ⟨d₂, d₃, hget, h₂⟩ := Op.bind_ok.mp h₁
  obtain ⟨rfl, rfl⟩ := Op.get_ok.mp hget
  generalize hset : d₃.vaults.setPath id path = r at h₂
  cases r with
  | none => cases h₂
  | some vaults => exact ⟨vaults, rfl, Op.modify_ok.mp h₂⟩

theorem Vaults.insert_seq {t u : Vaults} {slug path : Bytes} {id : Int}
    (h : t.insert name slug kind path now = some (id, u)) : id = t.seq + 1 ∧ u.seq = id := by
  unfold Vaults.insert at h
  split at h
  · cases h
    exact ⟨rfl, rfl⟩
  · cases h

theorem Vaults.setPath_seq {t u : Vaults} {id : Int} {path : Bytes}
    (h : t.setPath id path = some u) : u.seq = t.seq := by
  unfold Vaults.setPath at h
  split at h
  · cases h
    rfl
  · cases h

theorem insertVault_founded {slugs : List Bytes} {v : Vault}
    (hslugs : ∀ s ∈ slugs, IsSlug s)
    (h : insertVault faults userID name kind now slugs d = (.ok v, d')) : Founded userID d d' := by
  induction slugs with
  | nil => cases h
  | cons slug slugs ih =>
    obtain ⟨hrows, hslug, hpath⟩ := insertVault_rows h
    obtain ⟨⟨⟩, d₁, hstmt, h₁⟩ := Op.bind_ok.mp h
    obtain ⟨-, rfl⟩ := stmt_ok.mp hstmt
    obtain ⟨d₂, d₃, hget, h₂⟩ := Op.bind_ok.mp h₁
    obtain ⟨rfl, rfl⟩ := Op.get_ok.mp hget
    generalize hins : d₃.vaults.insert name slug kind (pendingVaultPath slug) now = r at h₂
    cases r with
    | none => exact ih (fun s hs => hslugs s (List.mem_cons_of_mem slug hs)) h₂
    | some a =>
      obtain ⟨id, vaults⟩ := a
      obtain ⟨hid, hseq⟩ := Vaults.insert_seq hins
      obtain ⟨⟨⟩, d₄, hmod, h₃⟩ := Op.bind_ok.mp h₂
      obtain rfl := Op.modify_ok.mp hmod
      obtain ⟨⟨⟩, d₅, hstmt', h₄⟩ := Op.bind_ok.mp h₃
      obtain ⟨-, rfl⟩ := stmt_ok.mp hstmt'
      obtain ⟨⟨⟩, d₆, hmember, h₅⟩ := Op.bind_ok.mp h₄
      obtain ⟨huser, rfl⟩ := insertMember_ok hmember
      obtain ⟨⟨⟩, d₇, hset, h₆⟩ := Op.bind_ok.mp h₅
      obtain ⟨vaults', hset', rfl⟩ := setVaultPath_eq hset
      obtain ⟨rfl, rfl⟩ := Op.pure_ok.mp h₆
      exact ⟨rfl, rfl, ⟨_, now, hrows, hid, (Vaults.setPath_seq hset').trans hseq,
        hslugs _ hslug, hpath, rfl⟩, huser⟩

theorem createVaultForUserTx_founded {v : Vault}
    (h : createVaultForUserTx faults userID name kind now d = (.ok v, d')) :
    Founded userID d d' := by
  obtain ⟨⟨⟩, d₁, hreq, h₁⟩ := Op.bind_ok.mp h
  obtain ⟨-, rfl⟩ := Op.require_ok.mp hreq
  exact insertVault_founded (fun s hs => isSlug_of_mem_vaultSlugs hs) h₁

theorem createVaultForUser_founded {v : Vault}
    (h : createVaultForUser faults userID name kind now d = (.ok v, d')) :
    Founded userID d d' := by
  obtain ⟨⟨⟩, d₁, hreq, h₁⟩ := Op.bind_ok.mp h
  obtain ⟨-, rfl⟩ := Op.require_ok.mp hreq
  exact createVaultForUserTx_founded (withTx_ok h₁)

end Made
end Mdock.Store
