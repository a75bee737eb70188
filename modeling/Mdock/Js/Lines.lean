import Mdock.Js.Strings
import Mdock.Lib.Pieces

/-! The lines of a text and where they stand in it. -/
namespace Mdock.Js
open Mdock.Lib

variable {s : Text} {L : List Text} {i j k : Nat}

/-- `lines[i]`. -/
def lineAt (lines : List Text) (index : Nat) : Text := lines.getD index []

/-- Where a line ends. -/
def lineEnd (L : List Text) (i : Nat) : Nat := pieceStart L i + (lineAt L i).length

/-- The first line behind line `i` for which `p` holds. -/
def nextLine (L : List Text) (i : Nat) (p : Text → Bool) : Option Nat :=
  (List.range' (i + 1) (L.length - (i + 1))).find? fun j => p (lineAt L j)

/-- The line of a position. -/
def lineOf (content : Text) (position : Nat) : Nat :=
  ((List.range (lines content).length).find? fun i =>
    decide (position ≤ lineEnd (lines content) i)).getD 0

theorem join_lines (s : Text) : [newline].intercalate (lines s) = s := List.intercalate_splitOn newline

theorem lines_ne_nil (s : Text) : lines s ≠ [] := List.splitOn_ne_nil newline s

theorem newline_notMem (s : Text) : ∀ l ∈ lines s, newline ∉ l := not_mem_of_mem_splitOn newline s

theorem mem_of_mem_lines {l : Text} {c : UInt16} (hl : l ∈ lines s) (hc : c ∈ l) :
    c ∈ s := by
  obtain ⟨i, hi, rfl⟩ := List.mem_iff_getElem.mp hl
  obtain ⟨k, hk, rfl⟩ := List.mem_iff_getElem.mp hc
  have hget := getElem?_join_piece newline hi hk
  rw [join_lines] at hget
  exact List.mem_of_getElem? hget

theorem lineAt_eq (h : i < L.length) : lineAt L i = L[i] := by
  simp [lineAt, h]

theorem lineEnd_lt (hik : i < k) (h : i < L.length) : lineEnd L i < pieceStart L k := by
  rw [lineEnd, lineAt_eq h]
  exact pieceEnd_lt hik h

theorem lineEnd_le_length (h : i < (lines s).length) :
    lineEnd (lines s) i ≤ s.length := by
  rw [lineEnd, lineAt_eq h]
  simpa only [join_lines] using pieceEnd_le newline h

theorem lineEnd_mono (hik : i ≤ k) (h : k < L.length) : lineEnd L i ≤ lineEnd L k := by
  rcases Nat.lt_or_eq_of_le hik with hlt | rfl
  · exact Nat.le_of_lt (Nat.lt_of_lt_of_le (lineEnd_lt hlt (by omega)) (Nat.le_add_right _ _))
  · exact Nat.le_refl _

theorem lineEnd_last (h : i + 1 = (lines s).length) :
    lineEnd (lines s) i = s.length := by
  have hlen := length_join newline (lines_ne_nil s)
  have hi : i < (lines s).length := by omega
  rw [join_lines, ← h, pieceStart_succ hi] at hlen
  rw [lineEnd, lineAt_eq hi]
  omega

theorem lineEnd_inj (hi : i < L.length) (hj : j < L.length) (h : lineEnd L i = lineEnd L j) :
    i = j := by
  have hlt : ∀ {i j}, i < j → i < L.length → lineEnd L i < lineEnd L j := fun hij hi =>
    Nat.lt_of_lt_of_le (lineEnd_lt hij hi) (Nat.le_add_right _ _)
  rcases Nat.lt_trichotomy i j with h' | h' | h'
  · exact absurd h (hlt h' hi).ne
  · exact h'
  · exact absurd h (hlt h' hj).ne'

theorem pieceStart_inj (hi : i < L.length) (hj : j < L.length)
    (h : pieceStart L i = pieceStart L j) : i = j := by
  have hlt : ∀ {i j}, i < j → i < L.length → pieceStart L i < pieceStart L j := fun hij hi =>
    Nat.lt_of_le_of_lt (Nat.le_add_right _ _) (lineEnd_lt hij hi)
  rcases Nat.lt_trichotomy i j with h' | h' | h'
  · exact absurd h (hlt h' hi).ne
  · exact h'
  · exact absurd h (hlt h' hj).ne'

theorem pieceStart_next (h : i < L.length) : pieceStart L (i + 1) = lineEnd L i + 1 := by
  rw [pieceStart_succ h, lineEnd, lineAt_eq h]

/-! ### Positions -/

section
variable {p q : Nat} {c : UInt16}

theorem exists_line (hp : p ≤ s.length) : ∃ i, i < (lines s).length ∧
    pieceStart (lines s) i ≤ p ∧ p ≤ lineEnd (lines s) i := by
  obtain ⟨i, hi, hstart, hend⟩ := exists_piece newline (lines_ne_nil s) (p := p)
    (by rwa [join_lines])
  exact ⟨i, hi, hstart, by rwa [lineEnd, lineAt_eq hi]⟩

theorem lineOf_spec (hp : p ≤ s.length) : lineOf s p < (lines s).length ∧
    pieceStart (lines s) (lineOf s p) ≤ p ∧
    p ≤ lineEnd (lines s) (lineOf s p) := by
  obtain ⟨i, hi, -, hend⟩ := exists_line hp
  have hsome : ((List.range (lines s).length).find? fun i =>
      decide (p ≤ lineEnd (lines s) i)) = some (lineOf s p) := by
    rw [lineOf]
    cases hfind : (List.range (lines s).length).find? fun i =>
        decide (p ≤ lineEnd (lines s) i) with
    | some j => rfl
    | none => exact absurd (decide_eq_true hend) (List.find?_eq_none.mp hfind i (List.mem_range.mpr hi))
  obtain ⟨hend', hmem, hbefore⟩ := List.find?_range_eq_some.mp hsome
  have hlt := List.mem_range.mp hmem
  refine ⟨hlt, ?_, of_decide_eq_true hend'⟩
  cases hl : lineOf s p with
  | zero => simp
  | succ k =>
    rw [hl] at hbefore hlt
    have hk := hbefore k (Nat.lt_succ_self k)
    rw [Bool.not_eq_true', decide_eq_false_iff_not] at hk
    have hnext := pieceStart_next (L := lines s) (Nat.lt_of_succ_lt hlt)
    omega

theorem mem_lineAt (hi : i < (lines s).length) (hstart : pieceStart (lines s) i ≤ q)
    (hend : q < lineEnd (lines s) i) (hc : s[q]? = some c) :
    c ∈ lineAt (lines s) i := by
  rw [lineEnd, lineAt_eq hi] at hend
  have hget := getElem?_join_piece newline hi (k := q - pieceStart (lines s) i) (by omega)
  rw [join_lines, Nat.add_sub_cancel' hstart, hc] at hget
  rw [lineAt_eq hi, Option.some.inj hget]
  exact List.getElem_mem _

theorem getElem?_lineEnd (h : i + 1 < (lines s).length) :
    s[lineEnd (lines s) i]? = some newline := by
  have hget := getElem?_join_end newline h
  rwa [join_lines, ← lineAt_eq] at hget

/-- A newline stands at the end of a line that is not the last. -/
theorem newline_at (h : s[q]? = some newline) :
    ∃ i, i + 1 < (lines s).length ∧ q = lineEnd (lines s) i := by
  have hq := (List.getElem?_eq_some_iff.mp h).1
  obtain ⟨i, hi, hstart, hend⟩ := exists_line (Nat.le_of_lt hq)
  rcases Nat.lt_or_eq_of_le hend with hlt | heq
  · have hmem := mem_lineAt hi hstart hlt h
    rw [lineAt_eq hi] at hmem
    exact absurd hmem (newline_notMem s _ (List.getElem_mem hi))
  · refine ⟨i, ?_, heq⟩
    by_contra hlast
    have := lineEnd_last (s := s) (i := i) (by omega)
    omega

theorem indexOf_newline (hi : i < (lines s).length)
    (hstart : pieceStart (lines s) i ≤ q) (hend : q ≤ lineEnd (lines s) i) :
    indexOf s newline q =
      if i + 1 < (lines s).length then some (lineEnd (lines s) i) else none := by
  have hno : ∀ r, q ≤ r → r < lineEnd (lines s) i → s[r]? ≠ some newline := by
    intro r hqr hr hc
    have hmem := mem_lineAt hi (Nat.le_trans hstart hqr) hr hc
    rw [lineAt_eq hi] at hmem
    exact newline_notMem s _ (List.getElem_mem hi) hmem
  split
  next hnext => exact indexOf_eq_some.mpr ⟨hend, getElem?_lineEnd hnext, hno⟩
  next hlast =>
    refine indexOf_eq_none.mpr fun r hqr hc => ?_
    have hr := (List.getElem?_eq_some_iff.mp hc).1
    have hlen := lineEnd_last (s := s) (i := i) (by omega)
    exact hno r hqr (by omega) hc

theorem lastIndexOf_newline (hi : i < (lines s).length)
    (hstart : pieceStart (lines s) i ≤ q + 1) (hend : q + 1 ≤ lineEnd (lines s) i) :
    (lastIndexOf s newline q).elim 0 (· + 1) = pieceStart (lines s) i := by
  have hno : ∀ r, pieceStart (lines s) i ≤ r → r ≤ q → s[r]? ≠ some newline := by
    intro r hr hrq hc
    have hmem := mem_lineAt hi hr (Nat.lt_of_lt_of_le (Nat.lt_succ_of_le hrq) hend) hc
    rw [lineAt_eq hi] at hmem
    exact newline_notMem s _ (List.getElem_mem hi) hmem
  cases i with
  | zero =>
    rw [lastIndexOf_eq_none.mpr fun r hr => hno r (by simp) hr, pieceStart_zero]
    rfl
  | succ i =>
    have hnext := pieceStart_next (L := lines s) (Nat.lt_of_succ_lt hi)
    have hlast := lastIndexOf_eq_some.mpr ⟨by omega, getElem?_lineEnd hi,
      fun r hr hrq => hno r (by omega) hrq⟩
    rw [hlast, hnext]
    rfl

end

/-! ### Lines -/

theorem lines_append_newline (s t : Text) : lines (s ++ newline :: t) = lines s ++ lines t :=
  List.splitOn_append_cons_self s t

theorem lines_join (hne : L ≠ []) (hno : ∀ l ∈ L, newline ∉ l) :
    lines ([newline].intercalate L) = L := List.splitOn_intercalate newline hno hne

theorem lines_eq_singleton {s : Text} (h : newline ∉ s) : lines s = [s] := by
  rw [← lines_join (L := [s]) (by simp) (by simpa using h), List.intercalate_singleton]

/-- The lines of a part that goes from the beginning of a line to the end of one. -/
theorem lines_slice (hij : i ≤ j) (hj : j < (lines s).length) :
    lines (slice s (pieceStart (lines s) i) (lineEnd (lines s) j)) =
      ((lines s).take (j + 1)).drop i := by
  have hslice := slice_pieces newline hij hj
  rw [join_lines, ← lineAt_eq hj, ← lineEnd] at hslice
  rw [slice_nat, hslice]
  refine lines_join ?_ fun l hl =>
    newline_notMem s l (List.mem_of_mem_take (List.mem_of_mem_drop hl))
  refine List.ne_nil_of_length_pos ?_
  rw [List.length_drop, List.length_take]
  omega

/-- The lines of a text with the end of another behind it. -/
theorem lines_append_drop (v : Text) (hj : j < (lines s).length) :
    lines (v ++ s.drop (lineEnd (lines s) j)) = lines v ++ (lines s).drop (j + 1) := by
  by_cases hnext : j + 1 < (lines s).length
  · have hget := getElem?_lineEnd hnext
    obtain ⟨hlt, hnl⟩ := List.getElem?_eq_some_iff.mp hget
    have hdrop := drop_pieceStart newline hnext
    rw [join_lines] at hdrop
    rw [List.drop_eq_getElem_cons hlt, hnl, lines_append_newline, ← pieceStart_next hj, hdrop,
      lines_join (by simp [hnext]) fun l hl => newline_notMem s l (List.mem_of_mem_drop hl)]
  · rw [lineEnd_last (by omega), List.drop_length, List.append_nil, List.drop_eq_nil_of_le (by omega),
      List.append_nil]

/-- The lines of a text with the beginning of another in front of it. -/
theorem lines_take_append (v : Text) (hi : i < (lines s).length) :
    lines (s.take (pieceStart (lines s) i) ++ v) = (lines s).take i ++ lines v := by
  cases i with
  | zero => simp
  | succ i =>
    have hlt : i < (lines s).length := by omega
    have htake : s.take (pieceStart (lines s) (i + 1)) =
        [newline].intercalate ((lines s).take (i + 1)) ++ [newline] := by
      have hget := getElem?_lineEnd (s := s) (i := i) (by omega)
      have hend := take_pieceEnd newline hlt
      rw [join_lines, ← lineAt_eq hlt, ← lineEnd] at hend
      rw [pieceStart_next hlt, List.take_add_one, hget, hend]
      rfl
    rw [htake, List.append_assoc, List.singleton_append, lines_append_newline,
      lines_join (by simp [lines_ne_nil]) fun l hl =>
        newline_notMem s l (List.mem_of_mem_take hl)]

/-- Text put for whole lines leaves the lines around them. -/
theorem lines_splice (v : Text) (hij : i ≤ j) (hj : j < (lines s).length) :
    lines (s.take (pieceStart (lines s) i) ++ v ++
        s.drop (lineEnd (lines s) j)) =
      (lines s).take i ++ lines v ++ (lines s).drop (j + 1) := by
  rw [List.append_assoc, lines_take_append _ (Nat.lt_of_le_of_lt hij hj), lines_append_drop v hj,
    List.append_assoc]

theorem prefix_append_cons {α : Type*} {c : α} {t l u : List α} (h : c ∉ t) :
    t <+: l ++ c :: u ↔ t <+: l := by
  refine ⟨fun ht => ?_, fun ht => ht.trans (List.prefix_append l _)⟩
  rcases Nat.le_total t.length l.length with hle | hle
  · exact List.prefix_of_prefix_length_le ht (List.prefix_append l _) hle
  · rcases Nat.lt_or_eq_of_le hle with hlt | heq
    · have hc : t[l.length] = c := by
        rw [ht.getElem hlt]
        simp
      exact absurd (hc ▸ List.getElem_mem hlt) h
    · exact List.prefix_of_prefix_length_le ht (List.prefix_append l _) heq.ge

theorem suffix_append_cons {α : Type*} {c : α} {t l u : List α} (h : c ∉ t) :
    t <:+ u ++ c :: l ↔ t <:+ l := by
  rw [← List.reverse_prefix, ← List.reverse_prefix, List.reverse_append, List.reverse_cons,
    List.append_assoc, List.singleton_append, prefix_append_cons (by rwa [List.mem_reverse])]

/-- A text without newlines stands at the beginning of a line if it stands in the line. -/
theorem startsWith_line {t : Text} (ht : newline ∉ t) (hi : i < (lines s).length) :
    startsWith (s.drop (pieceStart (lines s) i)) t =
      startsWith (lineAt (lines s) i) t := by
  have hdrop := drop_pieceStart newline hi
  rw [join_lines, List.drop_eq_getElem_cons hi, ← lineAt_eq hi] at hdrop
  rw [hdrop, startsWith, startsWith, Bool.eq_iff_iff, List.isPrefixOf_iff_prefix,
    List.isPrefixOf_iff_prefix]
  cases (lines s).drop (i + 1) with
  | nil => simp
  | cons l L =>
    rw [List.intercalate_cons_cons, List.append_assoc, List.singleton_append]
    exact prefix_append_cons ht

theorem startsWith_newline {t : Text} (ht : newline ∉ t) {q : Nat} :
    startsWith (s.drop q) (newline :: t) = true ↔ ∃ i, i + 1 < (lines s).length ∧
      q = lineEnd (lines s) i ∧ startsWith (lineAt (lines s) (i + 1)) t = true := by
  have hcons : startsWith (s.drop q) (newline :: t) = true ↔
      s[q]? = some newline ∧ startsWith (s.drop (q + 1)) t = true := by
    rcases Nat.lt_or_ge q s.length with hq | hq
    · rw [List.drop_eq_getElem_cons hq, List.getElem?_eq_getElem hq, startsWith,
        List.isPrefixOf_cons_cons, Bool.and_eq_true, beq_iff_eq, Option.some.injEq,
        eq_comm (a := newline), startsWith]
    · simp [startsWith, List.drop_eq_nil_of_le hq, hq]
  rw [hcons]
  constructor
  · rintro ⟨hq, hstart⟩
    obtain ⟨i, hi, rfl⟩ := newline_at hq
    rw [← pieceStart_next (Nat.lt_of_succ_lt hi), startsWith_line ht hi] at hstart
    exact ⟨i, hi, rfl, hstart⟩
  · rintro ⟨i, hi, rfl, hstart⟩
    rw [← pieceStart_next (Nat.lt_of_succ_lt hi), startsWith_line ht hi]
    exact ⟨getElem?_lineEnd hi, hstart⟩

theorem nextLine_eq_some {p : Text → Bool} : nextLine L i p = some j ↔
    i < j ∧ j < L.length ∧ p (lineAt L j) = true ∧
      ∀ k, i < k → k < j → p (lineAt L k) = false := by
  rw [nextLine, List.find?_range'_eq_some, List.mem_range'_1]
  constructor
  · rintro ⟨hp, hj, hmin⟩
    exact ⟨by omega, by omega, hp, fun k h₁ h₂ => by simpa using hmin k (by omega) h₂⟩
  · rintro ⟨h₁, h₂, hp, hmin⟩
    exact ⟨hp, by omega, fun k hk hlt => by simp [hmin k (by omega) hlt]⟩

theorem nextLine_eq_none {p : Text → Bool} : nextLine L i p = none ↔
    ∀ k, i < k → k < L.length → p (lineAt L k) = false := by
  rw [nextLine, List.find?_range'_eq_none]
  constructor
  · exact fun h k h₁ h₂ => by simpa using h k (by omega) (by omega)
  · exact fun h k h₁ h₂ => by simp [h k (by omega) (by omega)]

end Mdock.Js
