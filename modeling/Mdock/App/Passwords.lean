import Mdock.App.Accounts

/-! Password changes and the sessions of before. `Login` verifies a password in one statement
and inserts its session in another; a change updates the password in one and deletes the
sessions in another. -/
namespace Mdock.App.Accounts
open Mdock.Go Mdock.Lib Mdock.Store Mdock.Locks.Expiry

/-- No session is inserted for a password whose change has deleted the sessions before. -/
def notSwept (s : State) : Act → Bool
  | .exec i _ =>
    match s.call i with
    | .starting _ (some v) => decide (s.swept v.login ≤ v.updates)
    | _ => true
  | _ => true

/-- A session of a login that verified a password from before a change that has returned is
rejected. -/
def OldSessionsEnd (s : State) : Prop :=
  ∀ i id v k n, s.call i = .issued id (some v) → s.call k = .changed v.login n →
    v.updates < n → s.validateSession id = none

/-- The user of a login has the id. -/
def HasId (users : Users) (login : Bytes) (id : Int) : Prop :=
  ∃ u, users.getUserByLogin login = some u ∧ u.id = id

/-- What is known of a call: how far a change has swept, whom a login verified, and that the
session it issued, while it is there, is not one to be swept. -/
def Phase.Tracked (s : State) : Phase → Prop
  | .changed login n => n ≤ s.swept login
  | .starting userID (some v) => HasId s.users v.login userID
  | .issued id (some v) => id ∈ s.drawn ∧
      ∀ r, s.sessions.get? id = some r → s.swept v.login ≤ v.updates ∧ HasId s.users v.login r.userID
  | _ => True

structure Tracked (s : State) : Prop where
  calls : ∀ i, (s.call i).Tracked s
  drawn : ∀ r ∈ s.sessions.rows, r.id ∈ s.drawn

variable {crypt : Bcrypt} {cfg : Config}

theorem oldSessionsEnd_of_tracked {s : State} (hs : Tracked s) : OldSessionsEnd s := by
  intro i id v k n hi hk hlt
  have hissued := hs.calls i
  have hchanged := hs.calls k
  rw [hi] at hissued
  rw [hk] at hchanged
  have hnone : s.sessions.get? id = none := by
    cases hget : s.sessions.get? id with
    | none => rfl
    | some r =>
      have hle := (hissued.2 r hget).1
      have hn : n ≤ s.swept v.login := hchanged
      omega
  simp [State.validateSession, Users.validateSession, hnone]

theorem hasId_update {users : Users} {p : User → Bool} {f : User → User}
    {hl : ∀ u, (f u).login = u.login} (hi : ∀ u, (f u).id = u.id) {login : Bytes} {id : Int}
    (h : HasId users login id) : HasId (users.update p f hl hi) login id := by
  obtain ⟨u, hu, rfl⟩ := h
  refine ⟨if p u then f u else u, ?_, ?_⟩
  · have hget : users.table.get? login = some u := hu
    rw [Users.getUserByLogin, Users.update, Keyed.get?_updateWhere, hget]
    rfl
  · by_cases hp : p u <;> simp [hp, hi]

theorem hasId_insert {users : Users} {login : Bytes} {id : Int} (h : HasId users login id)
    {login' password : Bytes} {isAdmin : Bool} (hn : users.getUserByLogin login' = none) :
    HasId (users.insert login' password isAdmin) login id := by
  obtain ⟨u, hu, rfl⟩ := h
  obtain ⟨hm, hk⟩ := Keyed.get?_eq_some_iff.mp hu
  exact ⟨u, Keyed.get?_eq_some_iff.mpr ⟨(Users.mem_insert hn).mpr (.inl hm), hk⟩, rfl⟩

/-- Logins keep their ids. -/
theorem hasId_run {s : State} {draw : Bytes} {p p' : Phase} {st : Statement}
    (hw : Writes s draw p st p') {login : Bytes} {id : Int} (h : HasId s.users login id) :
    HasId (s.run cfg st).users login id := by
  cases hw with
  | inserting maker login' password hfree => exact hasId_insert h hfree
  | disabling _ _ | promoting _ _ | enabling _ | updating _ _ _ => exact hasId_update (by intro u; rfl) h
  | revoking _ | starting _ _ _ | sweeping _ _ => exact h

/-- What is left after `DeleteSessionsForLogin` belongs to others. -/
theorem get?_deleteSessions {users : Users} {sessions : Sessions} {login id : Bytes} {r : Session}
    (h : (users.deleteSessionsForLogin sessions login).get? id = some r) :
    sessions.get? id = some r ∧ ¬ HasId users login r.userID := by
  rw [Users.deleteSessionsForLogin, Keyed.get?_deleteWhere, Option.filter_eq_some_iff] at h
  refine ⟨h.1, fun hid => ?_⟩
  obtain ⟨u, hu, he⟩ := hid
  obtain ⟨hm, hk⟩ := Keyed.get?_eq_some_iff.mp hu
  simp only [Bool.not_eq_true', List.any_eq_false, decide_eq_true_eq] at h
  exact h.2 u hm ⟨hk, he⟩

/-- A statement keeps what is known of every call. -/
theorem tracked_run {s : State} {draw : Bytes} {p p' : Phase} {st : Statement}
    (hw : Writes s draw p st p') {q : Phase} (hq : q.Tracked s) : q.Tracked (s.run cfg st) := by
  cases q with
  | changed login n =>
    cases hw with
    | revoking login' | sweeping login' updates =>
      simp only [Phase.Tracked, State.run, Function.update_apply] at hq ⊢
      split
      · rename_i he
        exact he ▸ hq.trans (Nat.le_max_left _ _)
      · exact hq
    | disabling _ _ | promoting _ _ | enabling _ | inserting _ _ _ _ | starting _ _ _
    | updating _ _ _ => exact hq
  | starting userID verified =>
    cases verified with
    | none => trivial
    | some v => exact hasId_run hw hq
  | issued id verified =>
    cases verified with
    | none => trivial
    | some v =>
      obtain ⟨hdrawn, hrow⟩ := hq
      have hids : ∀ {id'}, HasId s.users v.login id' → HasId (s.run cfg st).users v.login id' :=
        fun h => hasId_run hw h
      cases hw with
      | revoking login' | sweeping login' updates =>
        refine ⟨hdrawn, fun r hr => ?_⟩
        obtain ⟨hold, hother⟩ := get?_deleteSessions hr
        obtain ⟨hle, hid⟩ := hrow r hold
        have hne : v.login ≠ login' := fun he => hother (he ▸ hid)
        exact ⟨by simpa [State.run, Function.update_of_ne hne] using hle, hid⟩
      | starting userID verified' hfresh =>
        refine ⟨List.mem_append_left _ hdrawn, fun r hr => hrow r ?_⟩
        rw [← hr]
        refine ((Keyed.get?_upsert ..).trans (if_neg ?_)).symm
        rintro rfl
        exact hfresh hdrawn
      | disabling _ _ | promoting _ _ | enabling _ | inserting _ _ _ _ | updating _ _ _ =>
        exact ⟨hdrawn, fun r hr => ⟨(hrow r hr).1, hids (hrow r hr).2⟩⟩
  | _ => trivial

theorem tracked_of_afterSelect {s : State} {p : Phase} (h : p.afterSelect s) : p.Tracked s := by
  cases p with
  | starting userID verified =>
    cases verified with
    | none => trivial
    | some v => exact h.2
  | changed _ _ | issued _ _ => exact h.elim
  | _ => trivial

/-- What is known of a call once its statement is executed. -/
theorem tracked_write {s : State} {draw : Bytes} {p p' : Phase} {st : Statement}
    (hw : Writes s draw p st p') (hp : p.Tracked s)
    (hg : ∀ userID v, p = .starting userID (some v) → s.swept v.login ≤ v.updates) :
    p'.Tracked (s.run cfg st) := by
  cases hw with
  | sweeping login updates =>
    simp [Phase.Tracked, State.run]
  | starting userID verified hfresh =>
    cases verified with
    | none => trivial
    | some v =>
      refine ⟨List.mem_append_right _ (List.mem_singleton_self _), fun r hr => ?_⟩
      obtain rfl := Option.some.inj ((Keyed.get?_upsert_self ..).symm.trans hr)
      exact ⟨hg userID v rfl, hp⟩
  | disabling login disabled =>
    split <;> trivial
  | promoting _ _ | enabling _ | inserting _ _ _ _ | updating _ _ _ | revoking _ => trivial

theorem drawn_run {s : State} (hs : Tracked s) (st : Statement) :
    ∀ r ∈ (s.run cfg st).sessions.rows, r.id ∈ (s.run cfg st).drawn := by
  intro r hr
  cases st with
  | insertSession id userID =>
    rcases Keyed.mem_upsert.mp hr with rfl | ⟨hr, -⟩
    · exact List.mem_append_right _ (List.mem_singleton_self _)
    · exact List.mem_append_left _ (hs.drawn r hr)
  | deleteSessions login updates => exact hs.drawn r (Keyed.mem_deleteWhere.mp hr).1
  | select | insertUser _ _ _ | setUserAdmin _ | setUserDisabled _ _ | setPassword _ _ =>
    exact hs.drawn r hr

theorem tracked_setCall {s : State} (hs : Tracked s) (i : Nat) {p : Phase} (hp : p.Tracked s) :
    Tracked (s.setCall i p) := by
  have hall : ∀ j, (Function.update s.call i p j).Tracked s :=
    (Function.forall_update_iff s.call fun _ q => q.Tracked s).mpr ⟨hp, fun j _ => hs.calls j⟩
  exact ⟨hall, hs.drawn⟩

theorem call_run (s : State) (st : Statement) : (s.run cfg st).call = s.call := by
  cases st <;> rfl

theorem tracked_step {s t : State} {a : Act} (hs : Tracked s) (h : step crypt cfg s a = some t)
    (hg : notSwept s a = true) : Tracked t := by
  rcases step_cases h with ⟨now, rfl, -, rfl⟩ | ⟨i, r, rfl, -, rfl⟩ | ⟨i, rfl, rfl⟩ |
    ⟨i, draw, st, p, rfl, hn, rfl⟩
  · exact ⟨hs.calls, hs.drawn⟩
  · exact tracked_setCall hs i trivial
  · exact tracked_setCall hs i trivial
  · rcases next_cases hn with ⟨rfl, hp⟩ | hw
    · exact tracked_setCall hs i (tracked_of_afterSelect hp)
    · have hcalls : ∀ j, ((s.run cfg st).call j).Tracked (s.run cfg st) := fun j => by
        rw [call_run]
        exact tracked_run hw (hs.calls j)
      refine tracked_setCall ⟨hcalls, drawn_run hs st⟩ i (tracked_write hw (hs.calls i) ?_)
      intro userID v hi
      simpa [notSwept, hi] using hg

/-- In runs in which no login inserts a session for a password whose change has already deleted
the sessions, a change that has returned has ended all sessions of the old password. -/
theorem old_sessions_end (crypt : Bcrypt) (cfg : Config) (s : State)
    (h : (machine crypt cfg fun _ => True).ReachVia (fun s a => notSwept s a = true) s) :
    OldSessionsEnd s := by
  apply oldSessionsEnd_of_tracked
  refine h.invariant ?_ ?_
  · rintro s ⟨-, hcall, -, hdrawn⟩
    refine ⟨fun i => ?_, hdrawn⟩
    rw [hcall i]
    trivial
  · exact fun s a t hs hg ht => tracked_step hs ht hg

/-- A login before the change: its session is rejected once the change has returned. -/
theorem old_sessions_end_login : ∃ s : State,
    s.call 0 = .issued (utf8 "s1") (some ⟨utf8 "ann", 0⟩) ∧ s.call 1 = .changed (utf8 "ann") 1 ∧
    OldSessionsEnd s := by
  have hinit : (machine saltedText openConfig fun _ => True).ReachVia
      (fun s a => notSwept s a = true) (start twoAdmins) :=
    .init ⟨trivial, fun _ => rfl, rfl, by decide⟩
  obtain ⟨s, hs, hp⟩ := hinit.run_any
    [.enter 0 (.login (utf8 "ann") (utf8 "secret")), .exec 0 [], .exec 0 (utf8 "s1"),
      .enter 1 (.setUserPassword (utf8 "ann") (utf8 "other")), .exec 1 (utf8 "2"), .exec 1 [],
      .exec 1 []]
    (p := fun s => decide (s.call 0 = .issued (utf8 "s1") (some ⟨utf8 "ann", 0⟩) ∧
      s.call 1 = .changed (utf8 "ann") 1)) (by decide)
  obtain ⟨h₀, h₁⟩ := of_decide_eq_true hp
  exact ⟨s, h₀, h₁, old_sessions_end saltedText openConfig s hs⟩

/-- A login that verifies the old password before the change and inserts its session after it
leaves a session that outlives the password. -/
theorem session_outlives_password : ¬ ∀ crypt cfg s,
    (machine crypt cfg fun _ => True).Reach s → OldSessionsEnd s := by
  intro h
  have hinit : (machine saltedText openConfig fun _ => True).Reach (start twoAdmins) :=
    .init ⟨trivial, fun _ => rfl, rfl, by decide⟩
  obtain ⟨s, hs, hp⟩ := hinit.run_any
    [.enter 0 (.login (utf8 "ann") (utf8 "secret")), .exec 0 [],
      .enter 1 (.setUserPassword (utf8 "ann") (utf8 "other")), .exec 1 (utf8 "2"), .exec 1 [],
      .exec 1 [], .exec 0 (utf8 "s1")]
    (p := fun s => decide (s.call 0 = .issued (utf8 "s1") (some ⟨utf8 "ann", 0⟩) ∧
      s.call 1 = .changed (utf8 "ann") 1 ∧ (s.validateSession (utf8 "s1")).isSome = true))
    (by decide +kernel)
  obtain ⟨h₀, h₁, hvalid⟩ := of_decide_eq_true hp
  have hnone := h saltedText openConfig s hs 0 (utf8 "s1") ⟨utf8 "ann", 0⟩ 1 1 h₀ h₁ (by decide)
  rw [hnone] at hvalid
  cases hvalid

end Mdock.App.Accounts
