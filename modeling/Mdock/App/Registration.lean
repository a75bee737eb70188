import Mdock.App.Accounts

/-! First-run registration. `RegisterUser` counts the users in one statement and inserts its
own in another, a slow hash later. -/
namespace Mdock.App.Accounts
open Mdock.Go Mdock.Lib Mdock.Store

/-- No user has come between the count of a `RegisterUser` and its transaction. -/
def stillEmpty (s : State) : Act → Bool
  | .exec i _ =>
    match s.call i with
    | .inserting .registerUser _ _ => decide (s.users.countUsers = 0)
    | _ => true
  | _ => true

/-- At most one user registered itself, and then the table is not empty. -/
def OneRegistered (s : State) : Prop :=
  s.registered.length ≤ 1 ∧ (s.registered ≠ [] → 0 < s.users.countUsers)

variable {crypt : Bcrypt} {cfg : Config}

/-- No statement deletes a user. -/
theorem countUsers_run (s : State) (st : Statement) :
    s.users.countUsers ≤ (s.run cfg st).users.countUsers := by
  cases st with
  | insertUser maker login password =>
    simp only [State.run, Users.countUsers, Users.insert]
    split
    · exact le_rfl
    · simp
  | select | insertSession _ _ | deleteSessions _ _ => exact le_rfl
  | setUserAdmin _ | setUserDisabled _ _ | setPassword _ _ =>
    exact (List.length_map _).symm.le

theorem oneRegistered_step {s t : State} {a : Act} (hs : OneRegistered s)
    (h : step crypt cfg s a = some t) (hg : stillEmpty s a = true) : OneRegistered t := by
  rcases step_cases h with ⟨now, rfl, -, rfl⟩ | ⟨i, r, rfl, -, rfl⟩ | ⟨i, rfl, rfl⟩ |
    ⟨i, draw, st, p, rfl, hn, rfl⟩
  · exact hs
  · exact hs
  · exact hs
  · have hcount : s.users.countUsers ≤ (s.run cfg st).users.countUsers := countUsers_run s st
    have hsame : (s.run cfg st).registered = s.registered → OneRegistered (s.run cfg st) := by
      intro he
      rw [OneRegistered, he]
      exact ⟨hs.1, fun hne => lt_of_lt_of_le (hs.2 hne) hcount⟩
    rcases next_cases hn with ⟨rfl, -⟩ | hw
    · exact hs
    · simp only [stillEmpty] at hg
      generalize s.call i = q at hw hg
      cases hw with
      | inserting maker login password hfree =>
        cases maker with
        | createUser | bootstrapUser => exact hsame rfl
        | registerUser =>
          have hempty : s.users.countUsers = 0 := of_decide_eq_true hg
          have hnil : s.registered = [] := by
            by_contra hne
            have := hs.2 hne
            omega
          refine ⟨by simp [State.run, State.setCall, hnil], fun _ => ?_⟩
          change 0 < (s.users.insert login password _).countUsers
          rw [Users.countUsers_insert hfree]
          exact Nat.succ_pos _
      | disabling _ _ | promoting _ _ | enabling _ | updating _ _ _ | revoking _ | starting _ _ _
      | sweeping _ _ => exact hsame rfl

/-- In runs in which each registration still finds the table empty, one user registers. -/
theorem registers_once (crypt : Bcrypt) (cfg : Config) (s : State)
    (h : (machine crypt cfg fun users => users.countUsers = 0).ReachVia
      (fun s a => stillEmpty s a = true) s) : s.registered.length ≤ 1 := by
  have hs : OneRegistered s := by
    refine Machine.ReachVia.invariant ?_ ?_ h
    · rintro s ⟨-, -, hreg, -⟩
      simp [OneRegistered, hreg]
    · exact fun s a t hs hg ht => oneRegistered_step hs ht hg
  exact hs.1

/-- One registration after the other: the second finds registration closed. -/
theorem registers_once_in_turn : ∃ s : State, s.call 1 = .failed .registrationClosed ∧
    s.registered.length ≤ 1 := by
  have hinit : (machine saltedText openConfig fun users => users.countUsers = 0).ReachVia
      (fun s a => stillEmpty s a = true) (start Users.empty) :=
    .init ⟨rfl, fun _ => rfl, rfl, by decide⟩
  obtain ⟨s, hs, hp⟩ := hinit.run_any
    [.enter 0 (.registerUser (utf8 "ann") (utf8 "secret") []), .exec 0 [], .exec 0 [],
      .exec 0 (utf8 "1"), .exec 0 [], .enter 1 (.registerUser (utf8 "bob") (utf8 "secret") []),
      .exec 1 []]
    (p := fun s => decide (s.call 1 = .failed .registrationClosed)) (by decide)
  exact ⟨s, of_decide_eq_true hp, registers_once saltedText openConfig s hs⟩

/-- Both calls count no user, and both insert one. -/
theorem registers_twice : ¬ ∀ crypt cfg s,
    (machine crypt cfg fun users => users.countUsers = 0).Reach s → s.registered.length ≤ 1 := by
  intro h
  have hinit : (machine saltedText openConfig fun users => users.countUsers = 0).Reach
      (start Users.empty) := .init ⟨rfl, fun _ => rfl, rfl, by decide⟩
  obtain ⟨s, hs, hp⟩ := hinit.run_any
    [.enter 0 (.registerUser (utf8 "ann") (utf8 "secret") []),
      .enter 1 (.registerUser (utf8 "bob") (utf8 "secret") []), .exec 0 [], .exec 1 [],
      .exec 0 [], .exec 1 [], .exec 0 (utf8 "1"), .exec 1 (utf8 "2"), .exec 0 [], .exec 1 []]
    (p := fun s => decide (s.registered.length = 2)) (by decide)
  have hone := h saltedText openConfig s hs
  have htwo := of_decide_eq_true hp
  omega

end Mdock.App.Accounts
