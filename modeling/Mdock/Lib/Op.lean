import Mathlib.Logic.Basic

/-! Operations on a state that may fail. A failed operation keeps the state it failed in,
so what it had done before stays done. -/
namespace Mdock.Lib

def Op (ε σ α : Type) : Type := σ → Except ε α × σ

namespace Op
variable {ε σ α β : Type}

instance : Monad (Op ε σ) where
  pure a s := (.ok a, s)
  bind x f s :=
    match x s with
    | (.ok a, t) => f a t
    | (.error e, t) => (.error e, t)

def get : Op ε σ σ := fun s => (.ok s, s)

def ofExcept (x : Except ε α) : Op ε σ α := fun s => (x, s)

def modify (f : σ → σ) : Op ε σ Unit := fun s => (.ok (), f s)

/-- Run a transaction: what a failed one has changed is rolled back. -/
def transaction (x : Op ε σ α) : Op ε σ α := fun s =>
  match x s with
  | (.ok a, t) => (.ok a, t)
  | (.error e, _) => (.error e, s)

/-- Go on only if the condition holds. -/
def require (p : Prop) [Decidable p] (e : ε) : Op ε σ Unit := fun s =>
  (if p then .ok () else .error e, s)

theorem bind_ok {x : Op ε σ α} {f : α → Op ε σ β} {s u : σ} {b : β} :
    (x >>= f) s = (.ok b, u) ↔ ∃ a t, x s = (.ok a, t) ∧ f a t = (.ok b, u) := by
  change (match x s with
    | (.ok a, t) => f a t
    | (.error e, t) => (.error e, t)) = (.ok b, u) ↔ _
  cases hx : x s with
  | mk res t =>
    cases res with
    | error e => simp
    | ok a =>
      constructor
      · exact fun h => ⟨a, t, rfl, h⟩
      · rintro ⟨a', t', he, h⟩
        cases he
        exact h

theorem bind_of_ok {x : Op ε σ α} {f : α → Op ε σ β} {s t : σ} {a : α} (h : x s = (.ok a, t)) :
    (x >>= f) s = f a t := by
  change (match x s with
    | (.ok a, t) => f a t
    | (.error e, t) => (.error e, t)) = _
  rw [h]

theorem bind_of_error {x : Op ε σ α} {f : α → Op ε σ β} {s t : σ} {e : ε}
    (h : x s = (.error e, t)) : (x >>= f) s = (.error e, t) := by
  change (match x s with
    | (.ok a, t) => f a t
    | (.error e, t) => (.error e, t)) = _
  rw [h]

theorem bind_error {x : Op ε σ α} {f : α → Op ε σ β} {s u : σ} {e : ε} :
    (x >>= f) s = (.error e, u) ↔
      x s = (.error e, u) ∨ ∃ a t, x s = (.ok a, t) ∧ f a t = (.error e, u) := by
  cases hx : x s with
  | mk res t =>
    cases res with
    | error e' =>
      rw [bind_of_error hx]
      simp
    | ok a =>
      rw [bind_of_ok hx]
      constructor
      · exact fun h => .inr ⟨a, t, rfl, h⟩
      · rintro (h | ⟨a', t', he, h⟩)
        · cases h
        · cases he
          exact h

theorem bind_assoc' {γ : Type} (x : Op ε σ α) (f : α → Op ε σ β) (g : β → Op ε σ γ) :
    (x >>= f) >>= g = x >>= fun a => f a >>= g := by
  funext s
  cases hx : x s with
  | mk res t =>
    cases res with
    | error e => rw [bind_of_error (bind_of_error hx), bind_of_error hx]
    | ok a =>
      rw [bind_of_ok hx]
      cases hf : f a t with
      | mk res' u =>
        cases res' with
        | error e => rw [bind_of_error ((bind_of_ok hx).trans hf), bind_of_error hf]
        | ok b => rw [bind_of_ok ((bind_of_ok hx).trans hf), bind_of_ok hf]

instance : LawfulMonad (Op ε σ) := LawfulMonad.mk' (Op ε σ)
  (fun x => by
    funext s
    cases hx : x s with
    | mk res t =>
      cases res with
      | error e => exact bind_of_error hx
      | ok a => exact bind_of_ok hx)
  (fun _ _ => rfl) bind_assoc'

/-- What the second operation leaves alone is as the first one left it. -/
theorem bind_frame {τ : Type} (φ : σ → τ) {x : Op ε σ α} {f : α → Op ε σ β}
    (hf : ∀ a t, φ (f a t).2 = φ t) (s : σ) : φ ((x >>= f) s).2 = φ (x s).2 := by
  cases hx : x s with
  | mk res t =>
    cases res with
    | error e => rw [bind_of_error hx]
    | ok a => rw [bind_of_ok hx, hf]

theorem pure_ok {s u : σ} {a b : α} : (pure a : Op ε σ α) s = (.ok b, u) ↔ a = b ∧ s = u := by
  change (Except.ok a, s) = (.ok b, u) ↔ _
  simp

theorem get_ok {s u v : σ} : (get : Op ε σ σ) s = (.ok v, u) ↔ v = s ∧ u = s := by
  simp only [get, Prod.mk.injEq, Except.ok.injEq]
  exact and_congr eq_comm eq_comm

theorem ofExcept_ok {x : Except ε α} {s u : σ} {a : α} :
    ofExcept x s = (.ok a, u) ↔ x = .ok a ∧ u = s := by
  simp only [ofExcept, Prod.mk.injEq]
  exact and_congr_right fun _ => eq_comm

theorem require_ok {p : Prop} [Decidable p] {e : ε} {s u : σ} {a : Unit} :
    require p e s = (.ok a, u) ↔ p ∧ u = s := by
  by_cases hp : p
  · simp only [require, hp, if_true, Prod.mk.injEq, true_and]
    exact eq_comm
  · simp [require, hp]

theorem require_error {p : Prop} [Decidable p] {e : ε} (s : σ) (hp : ¬ p) :
    require p e s = (.error e, s) := by rw [require, if_neg hp]

theorem modify_ok {f : σ → σ} {s u : σ} {a : Unit} :
    (modify f : Op ε σ Unit) s = (.ok a, u) ↔ u = f s := by
  simp only [modify, Prod.mk.injEq, true_and]
  exact eq_comm

theorem transaction_ok {x : Op ε σ α} {s u : σ} {a : α} :
    transaction x s = (.ok a, u) ↔ x s = (.ok a, u) := by
  unfold transaction
  split <;> simp_all

theorem transaction_error {x : Op ε σ α} {s u : σ} {e : ε} :
    transaction x s = (.error e, u) ↔ u = s ∧ ∃ t, x s = (.error e, t) := by
  unfold transaction
  split
  · simp_all
  · rename_i hx
    simp only [hx, Prod.mk.injEq, Except.error.injEq]
    grind

/-! ### What an operation leaves alone -/

section Frames
variable {τ : Type} {φ : σ → τ} {x : Op ε σ α} {f : α → Op ε σ β}

/-- The operation leaves the part of the state alone, however it ends. -/
def Keeps (φ : σ → τ) (x : Op ε σ α) : Prop := ∀ s, φ (x s).2 = φ s

/-- The operation leaves the part of the state alone when it fails. -/
def Atomic (φ : σ → τ) (x : Op ε σ α) : Prop := ∀ s e t, x s = (.error e, t) → φ t = φ s

theorem Keeps.bind (hx : Keeps φ x) (hf : ∀ a, Keeps φ (f a)) : Keeps φ (x >>= f) := fun s =>
  (bind_frame φ (fun a t => hf a t) s).trans (hx s)

theorem Keeps.atomic (hx : Keeps φ x) : Atomic φ x := fun s e t h => by
  have hs := hx s
  rwa [h] at hs

theorem Keeps.of_eq (hx : Keeps φ x) {s t : σ} {r : Except ε α} (h : x s = (r, t)) :
    φ t = φ s := by
  have hs := hx s
  rwa [h] at hs

theorem Atomic.after (hx : Keeps φ x) (hf : ∀ a, Atomic φ (f a)) : Atomic φ (x >>= f) := by
  intro s e u h
  rcases bind_error.mp h with h | ⟨a, t, ha, h⟩
  · exact hx.of_eq h
  · exact (hf a t e u h).trans (hx.of_eq ha)

theorem Atomic.returning (hx : Atomic φ x) (g : α → β) :
    Atomic φ (x >>= fun a => pure (g a)) := by
  intro s e u h
  rcases bind_error.mp h with h | ⟨a, t, -, h⟩
  · exact hx s e u h
  · cases h

theorem atomic_transaction (x : Op ε σ α) : Atomic φ (transaction x) := fun _ _ _ h =>
  congrArg φ (transaction_error.mp h).1

theorem keeps_pure (a : α) : Keeps φ (pure a : Op ε σ α) := fun _ => rfl

theorem keeps_get : Keeps φ (get : Op ε σ σ) := fun _ => rfl

theorem keeps_ofExcept (r : Except ε α) : Keeps φ (ofExcept r : Op ε σ α) := fun _ => rfl

theorem keeps_require (p : Prop) [Decidable p] (e : ε) : Keeps φ (require p e : Op ε σ Unit) :=
  fun _ => rfl

end Frames

/-! ### Errors that cannot occur -/

section Errors
variable {e e' : ε} {x : Op ε σ α} {f : α → Op ε σ β}

/-- The operation never fails with the error. -/
def Avoids (e : ε) (x : Op ε σ α) : Prop := ∀ s t, x s ≠ (.error e, t)

theorem Avoids.bind (hx : Avoids e x) (hf : ∀ a, Avoids e (f a)) : Avoids e (x >>= f) := by
  intro s u h
  rcases bind_error.mp h with h | ⟨a, t, -, h⟩
  · exact hx s u h
  · exact hf a t u h

/-- Such an error comes from what follows. -/
theorem Avoids.of_bind (hx : Avoids e x) {s u : σ} (h : (x >>= f) s = (.error e, u)) :
    ∃ a t, x s = (.ok a, t) ∧ f a t = (.error e, u) := by
  rcases bind_error.mp h with h | h
  · exact absurd h (hx s u)
  · exact h

theorem avoids_require (p : Prop) [Decidable p] (h : e' ≠ e) :
    Avoids e (require p e' : Op ε σ Unit) := by
  intro s t ht
  by_cases hp : p
  · simp [require, hp] at ht
  · rw [require_error s hp] at ht
    cases ht
    exact h rfl

theorem avoids_ofExcept (h : e' ≠ e) : Avoids e (ofExcept (.error e') : Op ε σ α) := by
  intro s t ht
  cases ht
  exact h rfl

theorem avoids_get : Avoids e (get : Op ε σ σ) := fun s t h => by cases h

theorem avoids_modify (g : σ → σ) : Avoids e (modify g : Op ε σ Unit) := fun s t h => by cases h

theorem avoids_pure (a : α) : Avoids e (pure a : Op ε σ α) := fun s t h => by cases h

end Errors

end Op
end Mdock.Lib
