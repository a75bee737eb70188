import Mathlib.Data.List.Basic
import Mathlib.Logic.Function.Basic

/-! Systems that answer calls, and families of them that know nothing of each other. -/
namespace Mdock.Lib
variable {σ τ κ α ι : Type*}

/-- The answers to the calls of a run, and the state after them. -/
def serve (f : σ → κ → α × σ) : σ → List κ → List α × σ
  | s, [] => ([], s)
  | s, c :: cs => ((f s c).1 :: (serve f (f s c).2 cs).1, (serve f (f s c).2 cs).2)

/-- Two systems that answer alike step by step answer alike. -/
theorem serve_sim {f : σ → κ → α × σ} {g : τ → κ → α × τ} {R : σ → τ → Prop}
    (h : ∀ s t c, R s t → (f s c).1 = (g t c).1 ∧ R (f s c).2 (g t c).2) {s : σ} {t : τ}
    (hr : R s t) (cs : List κ) :
    (serve f s cs).1 = (serve g t cs).1 ∧ R (serve f s cs).2 (serve g t cs).2 := by
  induction cs generalizing s t with
  | nil => exact ⟨rfl, hr⟩
  | cons c cs ih =>
    obtain ⟨ha, hr'⟩ := h s t c hr
    obtain ⟨has, hrs⟩ := ih hr'
    exact ⟨by rw [serve, serve, ha, has], hrs⟩

variable [DecidableEq ι]

/-- What is marked with `i`. -/
def only (i : ι) (l : List (ι × κ)) : List κ :=
  l.filterMap fun x => if x.1 = i then some x.2 else none

theorem only_cons_self (i : ι) (c : κ) (l : List (ι × κ)) :
    only i ((i, c) :: l) = c :: only i l := by
  simp [only]

theorem only_cons_of_ne {i j : ι} (h : j ≠ i) (c : κ) (l : List (ι × κ)) :
    only i ((j, c) :: l) = only i l := by
  simp [only, h]

/-- A call names the member of the family that is to answer. -/
def each (f : σ → κ → α × σ) (S : ι → σ) (x : ι × κ) : (ι × α) × (ι → σ) :=
  ((x.1, (f (S x.1) x.2).1), Function.update S x.1 (f (S x.1) x.2).2)

/-- In a family every member is as if it were alone. -/
theorem serve_each (f : σ → κ → α × σ) (S : ι → σ) (cs : List (ι × κ)) (i : ι) :
    only i (serve (each f) S cs).1 = (serve f (S i) (only i cs)).1 ∧
      (serve (each f) S cs).2 i = (serve f (S i) (only i cs)).2 := by
  induction cs generalizing S with
  | nil => exact ⟨rfl, rfl⟩
  | cons x cs ih =>
    obtain ⟨j, c⟩ := x
    have hrest := ih (Function.update S j (f (S j) c).2)
    by_cases h : j = i
    · subst h
      rw [Function.update_self] at hrest
      rw [only_cons_self]
      exact ⟨(only_cons_self j _ _).trans (congrArg _ hrest.1), hrest.2⟩
    · rw [Function.update_of_ne (Ne.symm h)] at hrest
      rw [only_cons_of_ne h]
      exact ⟨(only_cons_of_ne h _ _).trans hrest.1, hrest.2⟩

end Mdock.Lib
