import Mathlib.Data.List.Basic

/-! Machines that answer their inputs; every answer carries the number of its input. -/
namespace Mdock.Lib
variable {σ α β : Type*}

/-- The state after the inputs, and the answers to them, which are counted from `i`. -/
def feed (step : σ → α → σ × List β) : σ → Nat → List α → σ × List (Nat × β)
  | s, _, [] => (s, [])
  | s, i, a :: as =>
    let r := step s a
    let t := feed step r.1 (i + 1) as
    (t.1, r.2.map (fun b => (i, b)) ++ t.2)

variable {step : σ → α → σ × List β}

theorem feed_append (s : σ) (i : Nat) (as bs : List α) :
    feed step s i (as ++ bs) =
      ((feed step (feed step s i as).1 (i + as.length) bs).1,
        (feed step s i as).2 ++ (feed step (feed step s i as).1 (i + as.length) bs).2) := by
  induction as generalizing s i with
  | nil => simp [feed]
  | cons a as ih =>
    have hlen : i + 1 + as.length = i + (as.length + 1) := by omega
    simp only [feed, List.cons_append, ih, List.length_cons, List.append_assoc, hlen]

/-- Counting from elsewhere moves the numbers. -/
theorem feed_shift (s : σ) (i k : Nat) (as : List α) :
    feed step s (i + k) as =
      ((feed step s i as).1, (feed step s i as).2.map fun (j, b) => (j + k, b)) := by
  induction as generalizing s i with
  | nil => rfl
  | cons a as ih =>
    have hlen : i + k + 1 = i + 1 + k := by omega
    simp only [feed, hlen, ih, List.map_append, List.map_map]
    rfl

/-- An invariant of the state and the number of inputs says something of every answer. -/
theorem feed_spec (inv : σ → Nat → Prop) (good : Nat → β → Prop)
    (hinv : ∀ s i a, inv s i → inv (step s a).1 (i + 1))
    (hgood : ∀ s i a, inv s i → ∀ b ∈ (step s a).2, good i b) {s : σ} {i : Nat} (hs : inv s i)
    (as : List α) :
    ∀ j b, (j, b) ∈ (feed step s i as).2 → i ≤ j ∧ j < i + as.length ∧ good j b := by
  induction as generalizing s i with
  | nil => simp [feed]
  | cons a as ih =>
    intro j b hjb
    simp only [feed] at hjb
    rcases List.mem_append.mp hjb with h | h
    · obtain ⟨c, hc, he⟩ := List.mem_map.mp h
      obtain ⟨rfl, rfl⟩ := Prod.mk.inj he
      exact ⟨Nat.le_refl i, by simp, hgood s i a hs c hc⟩
    · obtain ⟨hle, hlt, hg⟩ := ih (hinv s i a hs) j b h
      rw [List.length_cons]
      exact ⟨by omega, by omega, hg⟩

end Mdock.Lib
