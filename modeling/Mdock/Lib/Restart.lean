import Mathlib.Data.List.Basic

/-! Lists of statements that may be broken off between any two of them and run again from
the beginning. Each statement takes effect whole or fails and changes nothing. -/
namespace Mdock.Lib
variable {σ α ε : Type*} (exec : α → σ → Except ε σ)

/-- Execute the statements in order, up to the first that fails. -/
def execAll : List α → σ → Except ε σ
  | [], s => .ok s
  | a :: as, s => (exec a s).bind (execAll as)

/-- Broken off anywhere and run again, the list does what one run does. -/
def Restartable (as : List α) : Prop :=
  ∀ p q s t, as = p ++ q → execAll exec p s = .ok t → execAll exec as t = execAll exec as s

variable {exec} {as : List α} {s t : σ}

theorem execAll_append (p q : List α) (s : σ) :
    execAll exec (p ++ q) s = (execAll exec p s).bind (execAll exec q) := by
  induction p generalizing s with
  | nil => rfl
  | cons a p ih =>
    rw [List.cons_append, execAll, execAll]
    cases h : exec a s with
    | error e => rfl
    | ok t => exact ih t

theorem execAll_cons_ok {a : α} (h : execAll exec (a :: as) s = .ok t) :
    ∃ u, exec a s = .ok u ∧ execAll exec as u = .ok t := by
  rw [execAll] at h
  cases hu : exec a s with
  | error e =>
    rw [hu] at h
    cases h
  | ok u =>
    rw [hu] at h
    exact ⟨u, rfl, h⟩

/-- A relation that every statement keeps holds across a run. -/
theorem execAll_rel {r : σ → σ → Prop} (hrefl : ∀ s, r s s)
    (htrans : ∀ s t u, r s t → r t u → r s u)
    (h : ∀ a ∈ as, ∀ s t, exec a s = .ok t → r s t) (ht : execAll exec as s = .ok t) :
    r s t := by
  induction as generalizing s with
  | nil =>
    cases ht
    exact hrefl _
  | cons a as ih =>
    obtain ⟨u, hu, hut⟩ := execAll_cons_ok ht
    exact htrans _ u t (h a List.mem_cons_self _ u hu)
      (ih (fun b hb => h b (List.mem_cons_of_mem a hb)) hut)

/-! ### Statements that find their work done -/

section Present
variable (present : α → σ → Prop)

theorem present_of_execAll (hdone : ∀ a ∈ as, ∀ s t, exec a s = .ok t → present a t)
    (hkeep : as.Pairwise fun a b => ∀ s t, present a s → exec b s = .ok t → present a t)
    (h : execAll exec as s = .ok t) : ∀ a ∈ as, present a t := by
  induction as generalizing s with
  | nil => exact fun a ha => nomatch ha
  | cons b as ih =>
    obtain ⟨u, hu, hut⟩ := execAll_cons_ok h
    rw [List.pairwise_cons] at hkeep
    intro a ha
    rcases List.mem_cons.mp ha with rfl | ha
    · refine execAll_rel (r := fun s t => present a s → present a t) (fun _ => id)
        (fun _ _ _ h₁ h₂ => h₂ ∘ h₁) (fun b hb s t hs hp => hkeep.1 b hb s t hp hs) hut ?_
      exact hdone a List.mem_cons_self _ u hu
    · exact ih (fun c hc => hdone c (List.mem_cons_of_mem b hc)) hkeep.2 hut a ha

theorem execAll_of_present (hfix : ∀ a ∈ as, ∀ s, present a s → exec a s = .ok s)
    (h : ∀ a ∈ as, present a s) : execAll exec as s = .ok s := by
  induction as with
  | nil => rfl
  | cons a as ih =>
    rw [execAll, hfix a List.mem_cons_self s (h a List.mem_cons_self)]
    exact ih (fun b hb => hfix b (List.mem_cons_of_mem a hb))
      fun b hb => h b (List.mem_cons_of_mem a hb)

/-- Statements whose work, once done, lasts and is not done twice. -/
theorem restartable_of_present (hfix : ∀ a ∈ as, ∀ s, present a s → exec a s = .ok s)
    (hdone : ∀ a ∈ as, ∀ s t, exec a s = .ok t → present a t)
    (hkeep : as.Pairwise fun a b => ∀ s t, present a s → exec b s = .ok t → present a t) :
    Restartable exec as := by
  rintro p q s t rfl h
  have hp : ∀ a ∈ p, present a t := present_of_execAll present
    (fun a ha => hdone a (List.mem_append_left q ha)) (List.pairwise_append.mp hkeep).1 h
  have hfixp : ∀ a ∈ p, ∀ s, present a s → exec a s = .ok s :=
    fun a ha => hfix a (List.mem_append_left q ha)
  rw [execAll_append, execAll_append, h, execAll_of_present present hfixp hp]

end Present

/-! ### Statements that begin by clearing away -/

/-- The list clears away first what any of its statements may have left. -/
theorem restartable_of_reset {ds cs : List α} (reset : σ → σ)
    (hds : ∀ s, execAll exec ds s = .ok (reset s))
    (h : ∀ a ∈ ds ++ cs, ∀ s t, exec a s = .ok t → reset t = reset s) :
    Restartable exec (ds ++ cs) := by
  intro p q s t hpq ht
  have hreset : reset t = reset s := execAll_rel (r := fun s t => reset t = reset s)
    (fun _ => rfl) (fun _ _ _ h₁ h₂ => h₂.trans h₁)
    (fun a ha => h a (hpq ▸ List.mem_append_left q ha)) ht
  rw [execAll_append, execAll_append, hds, hds, hreset]

end Mdock.Lib
