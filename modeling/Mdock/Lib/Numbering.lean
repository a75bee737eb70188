import Mathlib.Data.List.Count
import Mathlib.Data.List.Nodup
import Mathlib.Logic.Function.Basic

/-! Names told apart by how often they were there before. -/
namespace Mdock.Lib.Numbering

variable {α : Type*} {variant : α → Nat → α} {counts : α → Nat} {names : List α} {a : α}
  {i j k : Nat}

section
variable [BEq α] [LawfulBEq α]

/-- The repetitions of a name, by how many there are before them. -/
theorem exists_repetition (h : k < names.count a) :
    ∃ i, names[i]? = some a ∧ (names.take i).count a = k := by
  induction names generalizing k with
  | nil => simp at h
  | cons b names ih =>
    by_cases hab : b = a
    · subst hab
      cases k with
      | zero => exact ⟨0, rfl, rfl⟩
      | succ k =>
        rw [List.count_cons_self] at h
        obtain ⟨i, hi, hcount⟩ := ih (Nat.lt_of_succ_lt_succ h)
        exact ⟨i + 1, hi, by rw [List.take_succ_cons, List.count_cons_self, hcount]⟩
    · rw [List.count_cons_of_ne hab] at h
      obtain ⟨i, hi, hcount⟩ := ih h
      exact ⟨i + 1, hi, by rw [List.take_succ_cons, List.count_cons_of_ne hab, hcount]⟩

theorem count_take_lt (h : names[i]? = some a) (hij : i < j) :
    (names.take i).count a < (names.take j).count a := by
  obtain ⟨hi, hget⟩ := List.getElem?_eq_some_iff.mp h
  calc (names.take i).count a < (names.take (i + 1)).count a := by
        rw [List.take_succ_eq_append_getElem hi, hget, List.count_append]
        simp
    _ ≤ (names.take j).count a := (List.take_prefix_take_left hij).sublist.count_le a

theorem count_take_lt_count (h : names[i]? = some a) : (names.take i).count a < names.count a := by
  have hlt := count_take_lt h (List.getElem?_eq_some_iff.mp h).1
  rwa [List.take_length] at hlt

end

variable [DecidableEq α]

/-- `variant a k` is what the name `a` is turned into after `k` of it. -/
def number (variant : α → Nat → α) : (α → Nat) → List α → List α
  | _, [] => []
  | counts, a :: names =>
    variant a (counts a) :: number variant (Function.update counts a (counts a + 1)) names

theorem length_number : (number variant counts names).length = names.length := by
  induction names generalizing counts with
  | nil => rfl
  | cons b names ih => rw [number, List.length_cons, ih, List.length_cons]

variable [BEq α] [LawfulBEq α]

theorem getElem?_number : (number variant counts names)[i]? =
    names[i]?.map fun a => variant a (counts a + (names.take i).count a) := by
  induction names generalizing counts i with
  | nil => rfl
  | cons b names ih =>
    cases i with
    | zero => simp [number]
    | succ i =>
      rw [number, List.getElem?_cons_succ, ih, List.getElem?_cons_succ]
      refine Option.map_congr fun a _ => congrArg (variant a) ?_
      rw [List.take_succ_cons, List.count_cons]
      by_cases hab : b = a
      · subst hab
        simp only [Function.update_self, beq_self_eq_true, if_true]
        omega
      · rw [Function.update_of_ne (Ne.symm hab), if_neg (by simpa using hab), Nat.add_zero]

/-- What is given out is distinct if no numbered name is a name of its own. -/
theorem nodup_number_iff (hzero : ∀ a, variant a 0 = a)
    (hinj : ∀ a b i j, variant a (i + 1) = variant b (j + 1) → a = b ∧ i = j) :
    (number variant (fun _ => 0) names).Nodup ↔
      ∀ a k, 0 < k → k < names.count a → variant a k ∉ names := by
  have hget : ∀ {i a}, names[i]? = some a →
      (number variant (fun _ => 0) names)[i]? = some (variant a ((names.take i).count a)) := by
    intro i a hi
    rw [getElem?_number, hi, Option.map_some, Nat.zero_add]
  constructor
  · intro h a k hk hlt hmem
    obtain ⟨i, hi, hcount⟩ := exists_repetition hlt
    obtain ⟨j, hj, hfirst⟩ := exists_repetition (List.count_pos_iff.mpr hmem)
    have hsame : i = j := by
      refine (List.getElem?_inj (List.getElem?_eq_some_iff.mp (hget hi)).1 h).mp ?_
      rw [hget hi, hget hj, hcount, hfirst, hzero]
    have hname : a = variant a k := Option.some.inj (hi.symm.trans (hsame ▸ hj))
    rw [← hname, ← hsame, hcount] at hfirst
    omega
  · intro h
    refine List.nodup_iff_getElem?_ne_getElem?.mpr fun i j hij hj heq => ?_
    rw [length_number] at hj
    have hi := List.getElem?_eq_getElem (Nat.lt_trans hij hj)
    have hj := List.getElem?_eq_getElem hj
    generalize names[i] = a at hi
    generalize names[j] = b at hj
    rw [hget hi, hget hj, Option.some.injEq] at heq
    have hpos := count_take_lt hi hij
    have hlast := count_take_lt_count hi
    have hlast' := count_take_lt_count hj
    cases hp : (names.take i).count a with
    | zero =>
      cases hq : (names.take j).count b with
      | zero =>
        rw [hp, hq, hzero, hzero] at heq
        subst heq
        omega
      | succ q =>
        rw [hp, hq, hzero] at heq
        exact h b (q + 1) (Nat.succ_pos q) (hq ▸ hlast') (heq ▸ List.mem_of_getElem? hi)
    | succ p =>
      cases hq : (names.take j).count b with
      | zero =>
        rw [hp, hq, hzero] at heq
        exact h a (p + 1) (Nat.succ_pos p) (hp ▸ hlast) (heq ▸ List.mem_of_getElem? hj)
      | succ q =>
        rw [hp, hq] at heq
        obtain ⟨rfl, rfl⟩ := hinj a b p q heq
        omega

end Mdock.Lib.Numbering
