import Mdock.Lib.Op

/-! Two programs in lockstep: from related states they answer alike, and leave related states. -/
namespace Mdock.Lib
variable {σ τ β ε α : Type}

def Lockstep (R : σ → τ → Prop) (f : σ → β × σ) (g : τ → β × τ) : Prop :=
  ∀ s t, R s t → (f s).1 = (g t).1 ∧ R (f s).2 (g t).2

section Rules
variable {R : σ → τ → Prop}

theorem Lockstep.answer (b : β) : Lockstep R (fun s => (b, s)) fun t => (b, t) :=
  fun _ _ h => ⟨rfl, h⟩

variable {x : Op ε σ α} {y : Op ε τ α}

theorem Lockstep.pure (a : α) :
    Lockstep R (Pure.pure a : Op ε σ α) (Pure.pure a : Op ε τ α) := fun _ _ h => ⟨rfl, h⟩

theorem Lockstep.ofExcept (r : Except ε α) :
    Lockstep R (Op.ofExcept r : Op ε σ α) (Op.ofExcept r : Op ε τ α) := fun _ _ h => ⟨rfl, h⟩

theorem Lockstep.require {p q : Prop} [Decidable p] [Decidable q] (h : p ↔ q) (e : ε) :
    Lockstep R (Op.require p e : Op ε σ Unit) (Op.require q e : Op ε τ Unit) := by
  intro s t hr
  refine ⟨?_, hr⟩
  by_cases hp : p
  · simp only [Op.require, if_pos hp, if_pos (h.mp hp)]
  · simp only [Op.require, if_neg hp, if_neg fun hq => hp (h.mpr hq)]

theorem Lockstep.bind {δ : Type} {f : α → Op ε σ δ} {g : α → Op ε τ δ} (h : Lockstep R x y)
    (hf : ∀ a, Lockstep R (f a) (g a)) : Lockstep R (x >>= f) (y >>= g) := by
  intro s t hr
  obtain ⟨ha, hr'⟩ := h s t hr
  rcases hx : x s with ⟨e | a, s'⟩
  · have hy : y t = (.error e, (y t).2) := Prod.ext (ha.symm.trans (congrArg Prod.fst hx)) rfl
    rw [Op.bind_of_error hx, Op.bind_of_error hy]
    rw [hx] at hr'
    exact ⟨rfl, hr'⟩
  · have hy : y t = (.ok a, (y t).2) := Prod.ext (ha.symm.trans (congrArg Prod.fst hx)) rfl
    rw [Op.bind_of_ok hx, Op.bind_of_ok hy]
    rw [hx] at hr'
    exact hf a _ _ hr'

/-- What is read from related states is used alike. -/
theorem Lockstep.get {f : σ → Op ε σ α} {g : τ → Op ε τ α}
    (h : ∀ s t, R s t → Lockstep R (f s) (g t)) :
    Lockstep R (Op.get >>= f) (Op.get >>= g) := fun s t hr => h s t hr s t hr

end Rules
end Mdock.Lib
