import Mdock.Lib.Op

/-! Triples for operations that may fail: what holds where one ends, and where it fails. -/
namespace Mdock.Lib.Op
variable {ε σ α β : Type}

/-- Started where `P` holds, `x` ends where `Q` holds of what it returns, or fails where `E`
holds of the error. -/
def Triple (P : σ → Prop) (x : Op ε σ α) (Q : α → σ → Prop) (E : ε → σ → Prop) : Prop :=
  ∀ s, P s → (∀ a t, x s = (.ok a, t) → Q a t) ∧ ∀ e t, x s = (.error e, t) → E e t

section Rules
variable {P P' : σ → Prop} {Q Q' : α → σ → Prop} {R : β → σ → Prop} {E E' : ε → σ → Prop}
  {x : Op ε σ α} {f : α → Op ε σ β}

theorem Triple.mono (h : Triple P x Q E) (hP : ∀ s, P' s → P s) (hQ : ∀ a s, Q a s → Q' a s)
    (hE : ∀ e s, E e s → E' e s) : Triple P' x Q' E' := fun s hs =>
  ⟨fun a t ht => hQ a t ((h s (hP s hs)).1 a t ht), fun e t ht => hE e t ((h s (hP s hs)).2 e t ht)⟩

theorem Triple.bind (hx : Triple P x Q E) (hf : ∀ a, Triple (Q a) (f a) R E) :
    Triple P (x >>= f) R E := by
  intro s hs
  constructor
  · intro b u h
    obtain ⟨a, t, ha, hb⟩ := bind_ok.mp h
    exact (hf a t ((hx s hs).1 a t ha)).1 b u hb
  · intro e u h
    rcases bind_error.mp h with h | ⟨a, t, ha, hb⟩
    · exact (hx s hs).2 e u h
    · exact (hf a t ((hx s hs).1 a t ha)).2 e u hb

theorem triple_pure {a : α} (h : ∀ s, P s → Q a s) : Triple P (pure a) Q E := by
  intro s hs
  constructor
  · intro b t ht
    obtain ⟨rfl, rfl⟩ := pure_ok.mp ht
    exact h s hs
  · intro e t ht
    cases ht

theorem triple_get {Q : σ → σ → Prop} (h : ∀ s, P s → Q s s) : Triple P get Q E := by
  intro s hs
  constructor
  · intro a t ht
    obtain ⟨rfl, rfl⟩ := get_ok.mp ht
    exact h _ hs
  · intro e t ht
    cases ht

theorem triple_require {p : Prop} [Decidable p] {e : ε} {Q : Unit → σ → Prop}
    (hok : p → ∀ s, P s → Q () s) (herr : ¬ p → ∀ s, P s → E e s) :
    Triple P (require p e) Q E := by
  intro s hs
  constructor
  · intro a t ht
    obtain ⟨hp, rfl⟩ := require_ok.mp ht
    exact hok hp t hs
  · intro e' t ht
    by_cases hp : p
    · rw [require, if_pos hp] at ht
      cases ht
    · rw [require_error s hp] at ht
      cases ht
      exact herr hp s hs

theorem triple_modify {g : σ → σ} {Q : Unit → σ → Prop} (h : ∀ s, P s → Q () (g s)) :
    Triple P (modify g) Q E := by
  intro s hs
  constructor
  · intro a t ht
    obtain rfl := modify_ok.mp ht
    exact h s hs
  · intro e t ht
    cases ht

/-- What is said of a part of the state that the operation leaves alone stays true. -/
theorem Keeps.triple {τ : Type} {φ : σ → τ} (h : Keeps φ x) (p : τ → Prop) :
    Triple (fun s => p (φ s)) x (fun _ s => p (φ s)) fun _ s => p (φ s) :=
  fun s hs => ⟨fun _ t ht => show p (φ t) by rwa [h.of_eq ht],
    fun _ t ht => show p (φ t) by rwa [h.of_eq ht]⟩

/-- Where it holds of every end. -/
theorem Triple.after (h : Triple P x (fun _ => P') fun _ => P') {s : σ} (hs : P s) :
    P' (x s).2 := by
  rcases hx : x s with ⟨e | a, t⟩
  · exact (h s hs).2 e t hx
  · exact (h s hs).1 a t hx

end Rules
end Mdock.Lib.Op
