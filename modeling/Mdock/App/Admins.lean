import Mdock.App.Accounts

/-! The last administrator. `SetUserDisabled` counts the active administrators in one
statement and disables one of them in another. -/
namespace Mdock.App.Accounts
open Mdock.Go Mdock.Lib Mdock.Store

/-- The check of `SetUserDisabled`, made on the tables as they are. -/
def mayDisable (users : Users) (login : Bytes) : Bool :=
  match users.getUserByLogin login with
  | none => true
  | some u => !u.activeAdmin || decide (1 < users.countActiveAdmins)

/-- An `UPDATE` that disables a user still passes the check. -/
def rechecked (s : State) : Act → Bool
  | .exec i _ =>
    match s.call i with
    | .disabling login true => mayDisable s.users login
    | _ => true
  | _ => true

def HasAdmin (users : Users) : Prop := ∃ u ∈ users.table.rows, u.activeAdmin

section Rows
variable {users : Users} {login : Bytes}

/-- Two active administrators are not one. -/
theorem exists_other_admin (h : 1 < users.countActiveAdmins) (login : Bytes) :
    ∃ u ∈ users.table.rows, u.activeAdmin ∧ u.login ≠ login := by
  by_contra hno
  simp only [not_exists, not_and, not_not] at hno
  have hn : ((users.table.rows.filter User.activeAdmin).map User.login).Nodup :=
    (List.filter_sublist.map User.login).nodup users.table.nodup
  have hall : ∀ l ∈ (users.table.rows.filter User.activeAdmin).map User.login, l = login := by
    intro l hl
    obtain ⟨u, hu, rfl⟩ := List.mem_map.mp hl
    exact hno u (List.mem_filter.mp hu).1 (List.mem_filter.mp hu).2
  rw [Users.countActiveAdmins, ← List.length_map (f := User.login)] at h
  have hsub : List.Subperm _ [login] := hn.subperm fun l hl => List.mem_singleton.mpr (hall l hl)
  have := hsub.length_le
  rw [List.length_singleton] at this
  omega

theorem only_admin (h : ¬ 1 < users.countActiveAdmins) {u v : User} (hu : u ∈ users.table.rows)
    (ha : u.activeAdmin) (hv : v ∈ users.table.rows) (hb : v.activeAdmin) : u = v := by
  have hu' := List.mem_filter.mpr ⟨hu, ha⟩
  have hv' := List.mem_filter.mpr ⟨hv, hb⟩
  rw [Users.countActiveAdmins] at h
  generalize users.table.rows.filter User.activeAdmin = l at h hu' hv'
  rcases l with _ | ⟨a, _ | ⟨b, l⟩⟩
  · cases hu'
  · rw [List.mem_singleton.mp hu', List.mem_singleton.mp hv']
  · simp at h

theorem mem_setUserDisabled {disabled : Bool} {u : User} :
    u ∈ (users.setUserDisabled login disabled).table.rows ↔ ∃ a ∈ users.table.rows,
      u = if a.login = login then { a with disabled := disabled } else a := by
  simp [Users.setUserDisabled, Users.mem_update]

theorem hasAdmin_of_other {u : User} (hu : u ∈ users.table.rows) (ha : u.activeAdmin)
    (hne : u.login ≠ login) (disabled : Bool) :
    HasAdmin (users.setUserDisabled login disabled) :=
  ⟨u, mem_setUserDisabled.mpr ⟨u, hu, by rw [if_neg hne]⟩, ha⟩

theorem hasAdmin_enable (h : HasAdmin users) : HasAdmin (users.setUserDisabled login false) := by
  obtain ⟨u, hu, ha⟩ := h
  by_cases hl : u.login = login
  · refine ⟨{ u with disabled := false }, mem_setUserDisabled.mpr ⟨u, hu, by rw [if_pos hl]⟩, ?_⟩
    simp only [User.activeAdmin, Bool.and_eq_true] at ha
    simp [User.activeAdmin, ha.1]
  · exact hasAdmin_of_other hu ha hl false

/-- Disabling a user leaves an administrator exactly if the check would still pass. -/
theorem hasAdmin_disable_iff (h : HasAdmin users) :
    HasAdmin (users.setUserDisabled login true) ↔ mayDisable users login = true := by
  obtain ⟨u, hu, ha⟩ := h
  cases hget : users.getUserByLogin login with
  | none =>
    have hne : u.login ≠ login := by
      rintro rfl
      rw [Users.getUserByLogin, Keyed.get?_of_mem hu] at hget
      cases hget
    simp [mayDisable, hget, hasAdmin_of_other hu ha hne]
  | some w =>
    obtain ⟨hw, hwl⟩ := Keyed.get?_eq_some_iff.mp hget
    simp only [mayDisable, hget, Bool.or_eq_true, Bool.not_eq_true', decide_eq_true_eq]
    constructor
    · rintro ⟨v, hv, hva⟩
      by_contra hno
      obtain ⟨hwa, hcount⟩ := not_or.mp hno
      obtain ⟨a, ha', rfl⟩ := mem_setUserDisabled.mp hv
      by_cases hal : a.login = login
      · simp [hal, User.activeAdmin] at hva
      · rw [if_neg hal] at hva
        exact hal (only_admin hcount ha' hva hw (by simpa using hwa) ▸ hwl)
    · rintro (hwa | hcount)
      · refine hasAdmin_of_other hu ha ?_ true
        rintro rfl
        obtain rfl := Option.some.inj (hget.symm.trans (Keyed.get?_of_mem hu))
        rw [ha] at hwa
        cases hwa
      · obtain ⟨v, hv, hva, hvl⟩ := exists_other_admin hcount login
        exact hasAdmin_of_other hv hva hvl true

theorem hasAdmin_insert (h : HasAdmin users) (password : Bytes) (isAdmin : Bool)
    (hn : users.getUserByLogin login = none) :
    HasAdmin (users.insert login password isAdmin) := by
  obtain ⟨u, hu, ha⟩ := h
  exact ⟨u, (Users.mem_insert hn).mpr (.inl hu), ha⟩

theorem hasAdmin_setUserAdmin (h : HasAdmin users) (id : Int) :
    HasAdmin (users.setUserAdmin id true) := by
  obtain ⟨u, hu, ha⟩ := h
  refine ⟨_, Users.mem_update.mpr ⟨u, hu, rfl⟩, ?_⟩
  simp only [User.activeAdmin, Bool.and_eq_true] at ha ⊢
  split <;> simp_all

theorem hasAdmin_setPassword (h : HasAdmin users) (password : Bytes) :
    HasAdmin (users.setPassword login password) := by
  obtain ⟨u, hu, ha⟩ := h
  refine ⟨_, Users.mem_update.mpr ⟨u, hu, rfl⟩, ?_⟩
  simp only [User.activeAdmin, Bool.and_eq_true] at ha ⊢
  split <;> simp_all

end Rows

variable {crypt : Bcrypt} {cfg : Config}

@[simp] theorem users_setCall (s : State) (i : Nat) (p : Phase) :
    (s.setCall i p).users = s.users := rfl

theorem hasAdmin_step {s t : State} {a : Act} (hs : HasAdmin s.users)
    (h : step crypt cfg s a = some t) (hg : rechecked s a = true) : HasAdmin t.users := by
  rcases step_cases h with ⟨now, rfl, -, rfl⟩ | ⟨i, r, rfl, -, rfl⟩ | ⟨i, rfl, rfl⟩ |
    ⟨i, draw, st, p, rfl, hn, rfl⟩
  · exact hs
  · exact hs
  · exact hs
  · simp only [rechecked] at hg
    rw [users_setCall]
    rcases next_cases hn with ⟨rfl, -⟩ | hw
    · exact hs
    · generalize s.call i = q at hw hg
      cases hw with
      | disabling login disabled =>
        cases disabled with
        | true => exact (hasAdmin_disable_iff hs).mpr hg
        | false => exact hasAdmin_enable hs
      | promoting id login => exact hasAdmin_setUserAdmin hs id
      | enabling login => exact hasAdmin_enable hs
      | inserting maker login password hfree => exact hasAdmin_insert hs password _ hfree
      | updating login password hsome => exact hasAdmin_setPassword hs password
      | revoking _ | starting _ _ _ | sweeping _ _ => exact hs

/-- Where the check would not pass, the update leaves no administrator. -/
theorem not_hasAdmin_step {s t : State} {a : Act} (hs : HasAdmin s.users)
    (h : step crypt cfg s a = some t) (hg : rechecked s a = false) : ¬ HasAdmin t.users := by
  cases a with
  | tick _ | enter _ _ | fail _ => cases hg
  | exec i draw =>
    simp only [rechecked] at hg
    split at hg
    · rename_i login hc
      simp only [step, hc, next, Option.map_some, Option.some.injEq] at h
      subst h
      rw [users_setCall]
      refine fun ha => ?_
      rw [(hasAdmin_disable_iff hs).mp ha] at hg
      cases hg
    · cases hg

/-- In runs whose disabling updates still pass the check there is always an administrator, and
the first update that does not pass it takes the last one away. -/
theorem always_admin (crypt : Bcrypt) (cfg : Config) (s : State)
    (h : (machine crypt cfg HasAdmin).ReachVia (fun s a => rechecked s a = true) s) :
    HasAdmin s.users ∧ ∀ a t, step crypt cfg s a = some t → rechecked s a = false →
      ¬ HasAdmin t.users := by
  have hstart : ∀ s, (machine crypt cfg HasAdmin).init s → HasAdmin s.users := fun s hi => hi.1
  have hstep : ∀ s a t, HasAdmin s.users → rechecked s a = true →
      (machine crypt cfg HasAdmin).step s a = some t → HasAdmin t.users :=
    fun s a t hs hg ht => hasAdmin_step hs ht hg
  have hs : HasAdmin s.users := Machine.ReachVia.invariant hstart hstep h
  exact ⟨hs, fun a t ht hg => not_hasAdmin_step hs ht hg⟩

/-- With two administrators one may be disabled. -/
theorem always_admin_one : ∃ s, s.users.countActiveAdmins = 1 ∧ HasAdmin s.users ∧
    ∀ a t, step saltedText openConfig s a = some t → rechecked s a = false →
      ¬ HasAdmin t.users := by
  have hinit : (machine saltedText openConfig HasAdmin).ReachVia
      (fun s a => rechecked s a = true) (start twoAdmins) :=
    .init ⟨Users.one_le_activeAdmins.mp (by decide), fun _ => rfl, rfl, by decide⟩
  obtain ⟨s, hs, hp⟩ := hinit.run_any
    [.enter 0 (.setUserDisabled (utf8 "bob") true), .exec 0 [], .exec 0 [], .exec 0 []]
    (p := fun s => decide (s.users.countActiveAdmins = 1)) (by decide)
  exact ⟨s, of_decide_eq_true hp, always_admin saltedText openConfig s hs⟩

/-- Both calls count two administrators, and each disables one of them. -/
theorem admins_disable_each_other : ¬ ∀ crypt cfg s,
    (machine crypt cfg HasAdmin).Reach s → HasAdmin s.users := by
  intro h
  have hinit : (machine saltedText openConfig HasAdmin).Reach (start twoAdmins) :=
    .init ⟨Users.one_le_activeAdmins.mp (by decide), fun _ => rfl, rfl, by decide⟩
  obtain ⟨s, hs, hp⟩ := hinit.run_any
    [.enter 0 (.setUserDisabled (utf8 "ann") true), .enter 1 (.setUserDisabled (utf8 "bob") true),
      .exec 0 [], .exec 1 [], .exec 0 [], .exec 1 [], .exec 0 [], .exec 1 []]
    (p := fun s => decide (s.users.countActiveAdmins = 0)) (by decide)
  have hone := Users.one_le_activeAdmins.mpr (h saltedText openConfig s hs)
  have hzero := of_decide_eq_true hp
  omega

end Mdock.App.Accounts
