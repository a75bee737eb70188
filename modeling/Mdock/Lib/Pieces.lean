import Mathlib.Algebra.BigOperators.Group.List.Basic

/-! The pieces of a list between the separators, and where they stand in it. -/
namespace Mdock.Lib
variable {α : Type*}

theorem not_mem_of_mem_splitOn [DecidableEq α] (a : α) (s : List α) : ∀ e ∈ s.splitOn a, a ∉ e := by
  induction s with
  | nil => simp
  | cons x s ih =>
    intro e he
    rw [List.splitOn_cons_eq_if_modifyHead] at he
    split at he
    · rcases List.mem_cons.mp he with rfl | he
      · simp
      · exact ih e he
    · cases hs : s.splitOn a with
      | nil => exact absurd hs (List.splitOn_ne_nil _ _)
      | cons p ps =>
        rw [hs, List.modifyHead_cons] at he
        rw [hs] at ih
        rcases List.mem_cons.mp he with rfl | he
        · have hx : a ≠ x := by
            rintro rfl
            simp_all
          simp [hx, ih p (by simp)]
        · exact ih e (by simp [he])

/-- Where piece `i` begins in what the pieces make with a separator between any two. -/
def pieceStart : List (List α) → Nat → Nat
  | p :: ps, i + 1 => p.length + 1 + pieceStart ps i
  | _, _ => 0

section
variable {ps : List (List α)} {i j : Nat}

@[simp] theorem pieceStart_zero (ps : List (List α)) : pieceStart ps 0 = 0 := by
  cases ps <;> rfl

@[simp] theorem pieceStart_cons (p : List α) (ps : List (List α)) (i : Nat) :
    pieceStart (p :: ps) (i + 1) = p.length + 1 + pieceStart ps i := rfl

theorem pieceStart_succ (h : i < ps.length) :
    pieceStart ps (i + 1) = pieceStart ps i + ps[i].length + 1 := by
  induction ps generalizing i with
  | nil => simp at h
  | cons p ps ih =>
    cases i with
    | zero => simp
    | succ i =>
      rw [pieceStart_cons, pieceStart_cons, ih (by simpa using h)]
      simp [Nat.add_assoc]

theorem pieceStart_mono (ps : List (List α)) (hij : i ≤ j) : pieceStart ps i ≤ pieceStart ps j := by
  induction ps generalizing i j with
  | nil => simp [pieceStart]
  | cons p ps ih =>
    cases i with
    | zero => simp
    | succ i =>
      obtain ⟨j, rfl⟩ : ∃ k, j = k + 1 := ⟨j - 1, by omega⟩
      rw [pieceStart_cons, pieceStart_cons]
      exact Nat.add_le_add_left (ih (by omega)) _

theorem pieceStart_take (hij : i ≤ j) : pieceStart (ps.take j) i = pieceStart ps i := by
  induction ps generalizing i j with
  | nil => rw [List.take_nil]
  | cons p ps ih =>
    cases i with
    | zero => simp
    | succ i =>
      obtain ⟨j, rfl⟩ : ∃ k, j = k + 1 := ⟨j - 1, by omega⟩
      rw [List.take_succ_cons, pieceStart_cons, pieceStart_cons, ih (by omega)]

theorem pieceStart_append_left {qs : List (List α)} (h : i ≤ ps.length) :
    pieceStart (ps ++ qs) i = pieceStart ps i := by
  rw [← pieceStart_take h, List.take_left]

theorem pieceStart_append_right (ps qs : List (List α)) (i : Nat) :
    pieceStart (ps ++ qs) (ps.length + i) = pieceStart ps ps.length + pieceStart qs i := by
  induction ps with
  | nil => simp
  | cons p ps ih =>
    rw [List.length_cons, Nat.add_right_comm, List.cons_append, pieceStart_cons, pieceStart_cons, ih]
    exact (Nat.add_assoc _ _ _).symm

/-- A piece ends in front of the next one. -/
theorem pieceEnd_lt (hij : i < j) (h : i < ps.length) :
    pieceStart ps i + ps[i].length < pieceStart ps j := by
  have hsucc := pieceStart_succ h
  have hmono := pieceStart_mono ps (i := i + 1) (j := j) hij
  omega

theorem length_join (c : α) (hne : ps ≠ []) :
    ([c].intercalate ps).length + 1 = pieceStart ps ps.length := by
  induction ps with
  | nil => contradiction
  | cons p ps ih =>
    cases ps with
    | nil => simp
    | cons q ps =>
      rw [List.intercalate_cons_cons, List.length_cons, pieceStart_cons, ← ih (by simp)]
      simp
      omega

theorem pieceEnd_le (c : α) (h : i < ps.length) :
    pieceStart ps i + ps[i].length ≤ ([c].intercalate ps).length := by
  have hlen := length_join c (List.ne_nil_of_length_pos (Nat.zero_lt_of_lt h))
  have hend := pieceEnd_lt (j := ps.length) h h
  omega

theorem drop_pieceStart (c : α) (h : i < ps.length) :
    ([c].intercalate ps).drop (pieceStart ps i) = [c].intercalate (ps.drop i) := by
  induction ps generalizing i with
  | nil => simp at h
  | cons p ps ih =>
    cases i with
    | zero => simp
    | succ i =>
      have hi : i < ps.length := by simpa using h
      rw [List.intercalate_cons_of_ne_nil (List.ne_nil_of_length_pos (Nat.zero_lt_of_lt hi)),
        pieceStart_cons, ← List.drop_drop, List.drop_succ_cons, ← ih hi]
      congr 1
      have : p.length + 1 = (p ++ [c]).length := by simp
      rw [this, List.drop_left]

theorem take_pieceEnd (c : α) (h : i < ps.length) :
    ([c].intercalate ps).take (pieceStart ps i + ps[i].length) =
      [c].intercalate (ps.take (i + 1)) := by
  induction ps generalizing i with
  | nil => simp at h
  | cons p ps ih =>
    cases i with
    | zero =>
      cases ps with
      | nil => simp
      | cons q ps => simp [List.intercalate_cons_cons]
    | succ i =>
      have hi : i < ps.length := by simpa using h
      have hne : ps ≠ [] := List.ne_nil_of_length_pos (Nat.zero_lt_of_lt hi)
      have hne' : ps.take (i + 1) ≠ [] := by simp [hne]
      rw [List.take_succ_cons, List.intercalate_cons_of_ne_nil hne,
        List.intercalate_cons_of_ne_nil hne', ← ih hi, pieceStart_cons, List.getElem_cons_succ]
      have hlen : p.length + 1 + pieceStart ps i + ps[i].length =
          (p ++ [c]).length + (pieceStart ps i + ps[i].length) := by
        simp [Nat.add_assoc]
      rw [hlen, List.take_length_add_append]

/-- The part from the beginning of one piece to the end of another. -/
theorem slice_pieces (c : α) (hij : i ≤ j) (h : j < ps.length) :
    (([c].intercalate ps).take (pieceStart ps j + ps[j].length)).drop (pieceStart ps i) =
      [c].intercalate ((ps.take (j + 1)).drop i) := by
  have htake : i < (ps.take (j + 1)).length := by
    rw [List.length_take]
    omega
  have hstart : pieceStart (ps.take (j + 1)) i = pieceStart ps i := by
    exact pieceStart_take (by omega)
  rw [take_pieceEnd c h, ← hstart, drop_pieceStart c htake]

/-- Every position lies in a piece or at its end. -/
theorem exists_piece (c : α) (hne : ps ≠ []) {p : Nat} (hp : p ≤ ([c].intercalate ps).length) :
    ∃ (i : Nat) (h : i < ps.length), pieceStart ps i ≤ p ∧ p ≤ pieceStart ps i + ps[i].length := by
  induction ps generalizing p with
  | nil => contradiction
  | cons q ps ih =>
    by_cases hq : p ≤ q.length
    · exact ⟨0, by simp, by simp, by simpa using hq⟩
    · cases ps with
      | nil => simp at hp; omega
      | cons r ps =>
        rw [List.intercalate_cons_cons] at hp
        obtain ⟨i, hi, h₁, h₂⟩ := ih (p := p - (q.length + 1)) (by simp) (by simp at hp; omega)
        refine ⟨i + 1, by simpa using hi, ?_, ?_⟩
        · rw [pieceStart_cons]
          omega
        · rw [pieceStart_cons, List.getElem_cons_succ]
          omega

theorem getElem?_join_piece (c : α) (h : i < ps.length) {k : Nat} (hk : k < ps[i].length) :
    ([c].intercalate ps)[pieceStart ps i + k]? = some ps[i][k] := by
  rw [← List.getElem?_drop, drop_pieceStart c h, List.drop_eq_getElem_cons h]
  cases hd : ps.drop (i + 1) with
  | nil => simp [hk]
  | cons q qs =>
    rw [List.intercalate_cons_cons, List.append_assoc, List.getElem?_append_left hk]
    simp [hk]

theorem getElem?_join_end (c : α) (h : i + 1 < ps.length) :
    ([c].intercalate ps)[pieceStart ps i + ps[i].length]? = some c := by
  rw [← List.getElem?_drop, drop_pieceStart c (by omega), List.drop_eq_getElem_cons (by omega),
    List.drop_eq_getElem_cons h, List.intercalate_cons_cons, List.append_assoc,
    List.getElem?_append_right (Nat.le_refl _)]
  simp

theorem intercalate_append (c : α) {qs : List (List α)} (hp : ps ≠ []) (hq : qs ≠ []) :
    [c].intercalate (ps ++ qs) = [c].intercalate ps ++ c :: [c].intercalate qs := by
  induction ps with
  | nil => exact absurd rfl hp
  | cons p ps ih =>
    by_cases hps : ps = []
    · rw [hps, List.singleton_append, List.intercalate_cons_of_ne_nil hq,
        List.intercalate_singleton, List.append_assoc, List.singleton_append]
    · rw [List.cons_append, List.intercalate_cons_of_ne_nil (List.append_ne_nil_of_left_ne_nil hps qs),
        ih hps, List.intercalate_cons_of_ne_nil hps, List.append_assoc (p ++ [c])]

end

end Mdock.Lib
