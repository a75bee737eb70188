import Mdock.Locks.Expiry

/-! The tables `users` and `sessions`: the statements of the store that read and change them. -/
namespace Mdock.Store
open Mdock.Go Mdock.Lib Mdock.Locks.Expiry

/-- A row of `users`; `password` is the hash. -/
structure User where
  id : Int
  login : Bytes
  password : Bytes
  isAdmin : Bool
  disabled : Bool
  deriving DecidableEq

/-- An administrator who is not disabled. -/
def User.activeAdmin (u : User) : Bool := u.isAdmin && !u.disabled

/-- The table `users`: logins and ids are unique, ids count up from `seq`. -/
structure Users where
  table : Keyed User.login
  seq : Int
  ids : (table.rows.map User.id).Nodup
  le_seq : ∀ u ∈ table.rows, u.id ≤ seq

namespace Users

def empty : Users := ⟨Keyed.empty, 0, by simp [Keyed.empty], by simp [Keyed.empty]⟩

/-- `GetUserByLogin`. -/
def getUserByLogin (t : Users) (login : Bytes) : Option User := t.table.get? login

def countUsers (t : Users) : Nat := t.table.rows.length

def countActiveAdmins (t : Users) : Nat := (t.table.rows.filter User.activeAdmin).length

theorem nodup_concat {α : Type} {l : List α} {a : α} (hl : l.Nodup) (ha : a ∉ l) :
    (l ++ [a]).Nodup :=
  List.nodup_append.mpr ⟨hl, by simp, fun _ hx _ hy h => ha (List.mem_singleton.mp hy ▸ h ▸ hx)⟩

theorem new_id (t : Users) : t.seq + 1 ∉ t.table.rows.map User.id := by
  intro h
  obtain ⟨u, hu, he⟩ := List.mem_map.mp h
  have := t.le_seq u hu
  omega

theorem le_new_id (t : Users) {v : User} (hv : v.id = t.seq + 1) {u : User}
    (hu : u ∈ t.table.rows ++ [v]) : u.id ≤ t.seq + 1 := by
  rcases List.mem_append.mp hu with hu | hu
  · have := t.le_seq u hu
    omega
  · rw [List.mem_singleton.mp hu, hv]

/-- `INSERT INTO users`; a login that is taken stays as it is. -/
def insert (t : Users) (login password : Bytes) (isAdmin : Bool) : Users :=
  if h : login ∈ t.table.rows.map User.login then t
  else
    { table := ⟨t.table.rows ++ [⟨t.seq + 1, login, password, isAdmin, false⟩], by
        rw [List.map_append]
        exact nodup_concat t.table.nodup h⟩
      seq := t.seq + 1
      ids := by
        rw [List.map_append]
        exact nodup_concat t.ids t.new_id
      le_seq := fun _ hu => t.le_new_id rfl hu }

/-- `UPDATE users SET f WHERE p`, for an `f` that leaves login and id alone. -/
def update (t : Users) (p : User → Bool) (f : User → User) (hl : ∀ u, (f u).login = u.login)
    (hi : ∀ u, (f u).id = u.id) : Users where
  table := t.table.updateWhere p f hl
  seq := t.seq
  ids := by
    have hk : (User.id ∘ fun u => if p u then f u else u) = User.id := by
      funext u
      by_cases h : p u <;> simp [h, hi]
    rw [Keyed.updateWhere, List.map_map, hk]
    exact t.ids
  le_seq := by
    intro u hu
    obtain ⟨a, ha, rfl⟩ := List.mem_map.mp hu
    by_cases h : p a <;> simpa [h, hi] using t.le_seq a ha

def setUserAdmin (t : Users) (id : Int) (isAdmin : Bool) : Users :=
  t.update (fun u => decide (u.id = id)) (fun u => { u with isAdmin := isAdmin })
    (fun _ => rfl) fun _ => rfl

def setUserDisabled (t : Users) (login : Bytes) (disabled : Bool) : Users :=
  t.update (fun u => decide (u.login = login)) (fun u => { u with disabled := disabled })
    (fun _ => rfl) fun _ => rfl

def setPassword (t : Users) (login password : Bytes) : Users :=
  t.update (fun u => decide (u.login = login)) (fun u => { u with password := password })
    (fun _ => rfl) fun _ => rfl

/-- `DeleteSessionsForLogin`. -/
def deleteSessionsForLogin (t : Users) (sessions : Sessions) (login : Bytes) : Sessions :=
  sessions.deleteWhere fun r => t.table.rows.any fun u => decide (u.login = login ∧ u.id = r.userID)

/-- `ValidateSession`: the user of a session that neither has run out nor is disabled. -/
def validateSession (t : Users) (sessions : Sessions) (now : Instant) (id : Bytes) :
    Option User :=
  match sessions.get? id with
  | none => none
  | some r =>
    match t.table.rows.find? fun u => decide (u.id = r.userID) with
    | none => none
    | some u =>
      match reparse r.expiresAt with
      | none => none
      | some expiresAt => if expiresAt < now ∨ u.disabled then none else some u

/-! ### The rows a statement leaves -/

section Rows
variable {t : Users} {u : User} {login password : Bytes}

theorem mem_insert {isAdmin : Bool} (h : t.getUserByLogin login = none) :
    u ∈ (t.insert login password isAdmin).table.rows ↔
      u ∈ t.table.rows ∨ u = ⟨t.seq + 1, login, password, isAdmin, false⟩ := by
  have hne : login ∉ t.table.rows.map User.login := by
    intro hm
    obtain ⟨a, ha, rfl⟩ := List.mem_map.mp hm
    rw [getUserByLogin, Keyed.get?_of_mem ha] at h
    cases h
  simp [insert, hne]

theorem mem_update {p : User → Bool} {f : User → User} {hl : ∀ u, (f u).login = u.login}
    {hi : ∀ u, (f u).id = u.id} : u ∈ (t.update p f hl hi).table.rows ↔
      ∃ a ∈ t.table.rows, u = if p a then f a else a := by
  simp only [update, Keyed.updateWhere, List.mem_map]
  exact exists_congr fun a => and_congr_right fun _ => eq_comm

theorem countUsers_insert {isAdmin : Bool} (h : t.getUserByLogin login = none) :
    (t.insert login password isAdmin).countUsers = t.countUsers + 1 := by
  have hne : login ∉ t.table.rows.map User.login := by
    intro hm
    obtain ⟨a, ha, rfl⟩ := List.mem_map.mp hm
    rw [getUserByLogin, Keyed.get?_of_mem ha] at h
    cases h
  simp [countUsers, insert, hne]

theorem one_le_activeAdmins : 1 ≤ t.countActiveAdmins ↔ ∃ u ∈ t.table.rows, u.activeAdmin := by
  rw [countActiveAdmins, Nat.succ_le_iff, List.length_pos_iff_exists_mem]
  simp only [List.mem_filter]

end Rows
end Users
end Mdock.Store
