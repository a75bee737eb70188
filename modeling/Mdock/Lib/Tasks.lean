import Mathlib.Data.List.Infix
import Mdock.Lib.Op

/-! Programs that carry out tasks, one after the other, on what their states stand for. A program
that fails may have carried out the first of its tasks only. -/
namespace Mdock.Lib
variable {A κ : Type*} {σ ε α β : Type}

/-- The tasks are carried out one after the other. -/
def Done (step : κ → A → A → Prop) : List κ → A → A → Prop
  | [], a, b => b = a
  | c :: cs, a, b => ∃ m, step c a m ∧ Done step cs m b

section Done
variable {step : κ → A → A → Prop} {cs ds : List κ} {a b m : A}

theorem Done.append (h : Done step cs a m) (h' : Done step ds m b) : Done step (cs ++ ds) a b := by
  induction cs generalizing a with
  | nil => exact h ▸ h'
  | cons c cs ih =>
    obtain ⟨x, hx, hrest⟩ := h
    exact ⟨x, hx, ih hrest⟩

end Done

/-- A state that stood for `a` has become one for which a first part of the tasks is carried out,
and all of them if the answer is `ok`. -/
def Outcome (R : σ → A → Prop) (step : κ → A → A → Prop) (ok : β → Prop) (tasks : List κ) (a : A)
    (x : β × σ) : Prop :=
  ∃ done b, done <+: tasks ∧ Done step done a b ∧ R x.2 b ∧ (ok x.1 → done = tasks)

def Carries (R : σ → A → Prop) (step : κ → A → A → Prop) (ok : β → Prop) (tasks : List κ)
    (f : σ → β × σ) : Prop := ∀ s a, R s a → Outcome R step ok tasks a (f s)

section Rules
variable {R : σ → A → Prop} {step : κ → A → A → Prop} {ok : β → Prop} {tasks tasks' : List κ}
  {a b : A} {x : β × σ} {f : σ → β × σ}

/-- Nothing was to be done, and nothing was. -/
theorem Outcome.idle (h : R x.2 a) : Outcome R step ok [] a x :=
  ⟨[], a, List.nil_prefix, rfl, h, fun _ => rfl⟩

theorem Outcome.refused (hr : ¬ ok x.1) (h : R x.2 a) : Outcome R step ok tasks a x :=
  ⟨[], a, List.nil_prefix, rfl, h, fun ho => absurd ho hr⟩

theorem Outcome.one {c : κ} (hs : step c a b) (h : R x.2 b) : Outcome R step ok [c] a x :=
  ⟨[c], b, List.prefix_rfl, ⟨b, hs, rfl⟩, h, fun _ => rfl⟩

/-- Another answer, in a state that stands for the same. -/
theorem Outcome.answer {τ γ : Type} {S : τ → A → Prop} {ok' : γ → Prop} {y : γ × τ}
    (h : Outcome R step ok tasks a x) (hR : ∀ b, R x.2 b → S y.2 b) (hok : ok' y.1 → ok x.1) :
    Outcome S step ok' tasks a y := by
  obtain ⟨done, b, hpre, hdone, hb, hall⟩ := h
  exact ⟨done, b, hpre, hdone, hR b hb, fun ho => hall (hok ho)⟩

/-- First the one, then the other. -/
theorem Outcome.then {γ : Type} {ok' : γ → Prop} {k : σ → γ × σ}
    (h : Outcome R step ok tasks a x) (hx : ok x.1) (hk : Carries R step ok' tasks' k) :
    Outcome R step ok' (tasks ++ tasks') a (k x.2) := by
  obtain ⟨done, b, -, hdone, hb, hall⟩ := h
  obtain ⟨done', b', hpre, hdone', hb', hall'⟩ := hk x.2 b hb
  obtain rfl := hall hx
  exact ⟨done ++ done', b', (List.prefix_append_right_inj done).mpr hpre, hdone.append hdone', hb',
    fun ho => by rw [hall' ho]⟩

/-- The first one failed, and the other was not begun. -/
theorem Outcome.fail {γ : Type} {ok' : γ → Prop} {c : γ} (h : Outcome R step ok tasks a x)
    (hc : ¬ ok' c) : Outcome R step ok' (tasks ++ tasks') a (c, x.2) := by
  obtain ⟨done, b, hpre, hdone, hb, -⟩ := h
  exact ⟨done, b, hpre.trans (List.prefix_append _ _), hdone, hb, fun ho => absurd ho hc⟩

/-- An operation that the abstract state does not show. -/
theorem Carries.idle (h : ∀ s a, R s a → R (f s).2 a) : Carries R step ok [] f :=
  fun s a hs => .idle (h s a hs)

variable {y : Op ε σ α} {g : α → Op ε σ β}

/-- An operation that did not fail. -/
def Op.Ends (x : Except ε α) : Prop := x.isOk = true

theorem Op.not_ends (e : ε) : ¬ Op.Ends (Except.error e : Except ε α) := fun h => by cases h

theorem Carries.bind (hy : Carries R step Op.Ends tasks y)
    (hg : ∀ v, Carries R step Op.Ends tasks' (g v)) :
    Carries R step Op.Ends (tasks ++ tasks') (y >>= g) := by
  intro s a hs
  have h := hy s a hs
  rcases hx : y s with ⟨e | v, t⟩
  · rw [Op.bind_of_error hx]
    rw [hx] at h
    exact h.fail (Op.not_ends e)
  · rw [Op.bind_of_ok hx]
    rw [hx] at h
    exact h.then rfl (hg v)

/-- What comes before, or after, does not touch what the state stands for. -/
theorem Carries.after_idle (hy : Carries R step Op.Ends [] y)
    (hg : ∀ v, Carries R step Op.Ends tasks (g v)) : Carries R step Op.Ends tasks (y >>= g) :=
  hy.bind hg

theorem Carries.then_idle (hy : Carries R step Op.Ends tasks y)
    (hg : ∀ v, Carries R step Op.Ends ([] : List κ) (g v)) :
    Carries R step Op.Ends tasks (y >>= g) := by
  have h := hy.bind hg
  rwa [List.append_nil] at h

theorem Carries.pure (v : α) :
    Carries R step Op.Ends ([] : List κ) (Pure.pure v : Op ε σ α) := .idle fun _ _ h => h

theorem Carries.require (p : Prop) [Decidable p] (e : ε) :
    Carries R step Op.Ends ([] : List κ) (Op.require p e : Op ε σ Unit) := .idle fun _ _ h => h

/-- What is done where a check has passed. -/
theorem Carries.ofExcept {r : Except ε α}
    (hg : ∀ v, r = .ok v → Carries R step Op.Ends tasks (g v)) :
    Carries R step Op.Ends tasks (Op.ofExcept r >>= g) := by
  intro s a hs
  cases r with
  | error e =>
    exact Outcome.refused (x := (Except.error e, s)) (Op.not_ends e) hs
  | ok v => exact hg v rfl s a hs

end Rules
end Mdock.Lib
