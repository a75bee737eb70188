import Mathlib.Data.List.Basic
import Mathlib.Logic.Relation

/-! Machines with a partial step function, and the states their runs reach.
A guard on the steps singles out the runs every step of which meets it. -/
namespace Mdock.Lib
variable {σ α : Type*}

structure Machine (σ α : Type*) where
  init : σ → Prop
  step : σ → α → Option σ

def Machine.run (M : Machine σ α) : σ → List α → Option σ
  | s, [] => some s
  | s, a :: as => (M.step s a).bind fun t => M.run t as

/-- States reached from an initial state by steps that all meet the guard. -/
inductive Machine.ReachVia (M : Machine σ α) (guard : σ → α → Prop) : σ → Prop
  | init {s : σ} : M.init s → ReachVia M guard s
  | step {s t : σ} {a : α} : ReachVia M guard s → guard s a → M.step s a = some t →
      ReachVia M guard t

def Machine.Reach (M : Machine σ α) (s : σ) : Prop := M.ReachVia (fun _ _ => True) s

theorem Machine.ReachVia.invariant {M : Machine σ α} {guard : σ → α → Prop} {p : σ → Prop}
    (hinit : ∀ s, M.init s → p s)
    (hstep : ∀ s a t, p s → guard s a → M.step s a = some t → p t)
    {s : σ} (h : M.ReachVia guard s) : p s := by
  induction h with
  | init h => exact hinit _ h
  | step _ hg hs ih => exact hstep _ _ _ ih hg hs

theorem Machine.Reach.invariant {M : Machine σ α} {p : σ → Prop}
    (hinit : ∀ s, M.init s → p s)
    (hstep : ∀ s a t, p s → M.step s a = some t → p t)
    {s : σ} (h : M.Reach s) : p s :=
  Machine.ReachVia.invariant hinit (fun s a t hi _ hs => hstep s a t hi hs) h

/-- A guarded run is in particular a run. -/
theorem Machine.ReachVia.reach {M : Machine σ α} {guard : σ → α → Prop} {s : σ}
    (h : M.ReachVia guard s) : M.Reach s := by
  induction h with
  | init h => exact .init h
  | step _ _ hs ih => exact .step ih trivial hs

theorem Machine.ReachVia.mono {M : Machine σ α} {guard guard' : σ → α → Prop}
    (hsub : ∀ s a, guard s a → guard' s a) {s : σ} (h : M.ReachVia guard s) :
    M.ReachVia guard' s := by
  induction h with
  | init h => exact .init h
  | step _ hg hs ih => exact .step ih (hsub _ _ hg) hs

/-- Run a list of actions, stopping where an action fails or leaves the guard. -/
def Machine.runVia (M : Machine σ α) (guard : σ → α → Prop) [∀ s a, Decidable (guard s a)] :
    σ → List α → Option σ
  | s, [] => some s
  | s, a :: as => if guard s a then (M.step s a).bind fun t => M.runVia guard t as else none

/-- Go on with a run whose steps meet a guard that implies the given one. -/
theorem Machine.ReachVia.run {M : Machine σ α} {guard guard' : σ → α → Prop}
    [∀ s a, Decidable (guard' s a)] (hsub : ∀ s a, guard' s a → guard s a) {s t : σ}
    (as : List α) (h : M.ReachVia guard s) (hr : M.runVia guard' s as = some t) :
    M.ReachVia guard t := by
  induction as generalizing s with
  | nil =>
    cases hr
    exact h
  | cons a as ih =>
    rw [runVia] at hr
    split at hr
    · rename_i hg
      obtain ⟨u, hu, hr⟩ := Option.bind_eq_some_iff.mp hr
      exact ih (.step h (hsub s a hg) hu) hr
    · cases hr

theorem Machine.Reach.run {M : Machine σ α} {s t : σ} (as : List α) (h : M.Reach s)
    (hr : M.run s as = some t) : M.Reach t := by
  induction as generalizing s with
  | nil =>
    cases hr
    exact h
  | cons a as ih =>
    obtain ⟨u, hu, hr⟩ := Option.bind_eq_some_iff.mp hr
    exact ih (.step h trivial hu) hr

/-- A run that is evaluated to a state with some decidable feature reaches such a state. -/
theorem Machine.Reach.run_any {M : Machine σ α} {s : σ} (as : List α) (h : M.Reach s)
    {p : σ → Bool} (hp : (M.run s as).any p = true) : ∃ t, M.Reach t ∧ p t = true := by
  obtain ⟨t, ht, hp⟩ := (Option.any_eq_true _ _).mp hp
  exact ⟨t, h.run as ht, hp⟩

theorem Machine.ReachVia.run_any {M : Machine σ α} {guard : σ → α → Prop}
    [∀ s a, Decidable (guard s a)] {s : σ} (as : List α) (h : M.ReachVia guard s)
    {p : σ → Bool} (hp : (M.runVia guard s as).any p = true) :
    ∃ t, M.ReachVia guard t ∧ p t = true := by
  obtain ⟨t, ht, hp⟩ := (Option.any_eq_true _ _).mp hp
  exact ⟨t, h.run (fun _ _ hg => hg) as ht, hp⟩

/-- A record that grows at its end. -/
theorem getElem?_concat_cases {ρ : Type*} {l : List ρ} {a b : ρ} {i : Nat}
    (h : (l ++ [a])[i]? = some b) : l[i]? = some b ∨ i = l.length ∧ b = a := by
  rw [List.getElem?_append] at h
  split at h
  · exact .inl h
  · cases hi : i - l.length with
    | zero =>
      rw [hi] at h
      cases h
      exact .inr ⟨by omega, rfl⟩
    | succ n =>
      rw [hi] at h
      cases h

end Mdock.Lib
