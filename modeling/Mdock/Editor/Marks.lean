import Mdock.Editor.Twice

/-! The toggles of inline marks, twice. -/
namespace Mdock.Editor.Commands
open Mdock.Js Mdock.Lib

variable {state : EditorState} {m A B v w l u s t : Text} {c : UInt16}

/-- The marks of the toolbar. -/
def inlineMarkers : List Text := ["**", "*", "~~", "==", "%%", "$", "`"].map units

/-- What they are made of. -/
def markUnits : Text := units "*~=%$`"

structure Marker (m : Text) (c : UInt16) : Prop where
  mem : c ∈ markUnits
  eq : m = List.replicate m.length c
  ne : m ≠ []

theorem marker_of_mem (h : m ∈ inlineMarkers) : ∃ c, Marker m c := by
  have hall : ∀ m ∈ inlineMarkers,
      ∃ c ∈ markUnits, m = List.replicate m.length c ∧ m ≠ [] := by decide
  obtain ⟨c, hc, heq, hne⟩ := hall m h
  exact ⟨c, hc, heq, hne⟩

namespace Marker
variable (h : Marker m c)
include h

theorem eq_of_mem {d : UInt16} (hd : d ∈ m) : d = c := by
  rw [h.eq] at hd
  exact List.eq_of_mem_replicate hd

theorem exists_cons : ∃ k, m = c :: List.replicate k c := by
  obtain ⟨k, hk⟩ := Nat.exists_eq_succ_of_ne_zero (mt List.length_eq_zero_iff.mp h.ne)
  exact ⟨k, by rw [h.eq, hk]; rfl⟩

theorem mem_self : c ∈ m := by
  obtain ⟨k, hk⟩ := h.exists_cons
  rw [hk]
  exact List.mem_cons_self

theorem length_pos : 0 < m.length := List.length_pos_iff.mpr h.ne

theorem isSpace_eq : isSpace c = false := by
  have hall : (markUnits.all fun c => !isSpace c) = true := by decide
  simpa using List.all_eq_true.mp hall c h.mem

theorem newline_notMem : newline ∉ m := fun hnl => by
  have hspace := h.isSpace_eq
  rw [← h.eq_of_mem hnl] at hspace
  exact absurd hspace (by decide)

end Marker

/-! ### Structural prefixes -/

theorem avoids_of_all {a : Pattern UInt16} (h : markUnits.all a.avoids = true)
    (hc : c ∈ markUnits) : a.avoids c = true := List.all_eq_true.mp h c hc

/-- A structural prefix goes over no mark behind its beginning. -/
theorem structuralMark_reach (hc : c ∈ markUnits) (hu : u ≠ []) :
    ∀ n ∈ structuralMark.ends (u ++ c :: s), n ≤ u.length := by
  intro n hn
  rw [structuralMark, Pattern.mem_ends_alt, Pattern.mem_ends_alt, Pattern.mem_ends_alt,
    Pattern.mem_ends_alt] at hn
  rcases hn with hn | hn | hn | hn | hn
  · exact Pattern.le_of_avoids (avoids_of_all (by decide) hc) u s hn
  · exact Pattern.le_of_avoids (avoids_of_all (by decide) hc) u s hn
  · exact Pattern.le_of_avoids (avoids_of_all (by decide) hc) u s hn
  · obtain ⟨i, hi, j, hj, rfl⟩ := Pattern.mem_ends_seq.mp hn
    obtain ⟨d, u, rfl⟩ := List.exists_cons_of_ne_nil hu
    have hone : i = 1 := by
      obtain ⟨-, hmost, hleast⟩ := Pattern.mem_ends_run.mp hi
      exact Nat.le_antisymm (hmost 1 rfl) hleast
    subst hone
    have hle := Pattern.le_of_avoids (avoids_of_all (a := gap) (by decide) hc) u s hj
    rw [List.length_cons]
    omega
  · exact Pattern.le_of_avoids (avoids_of_all (by decide) hc) u s hn

theorem structuralPrefix_append (l : Text) :
    structuralPrefix l ++ l.drop (structuralPrefix l).length = l :=
  List.prefix_iff_eq_append.mp (l.take_prefix _)

/-- The mark behind a structural prefix leaves it the prefix. -/
theorem structuralPrefix_mark (hc : c ∈ markUnits) (hne : structuralPrefix l ≠ []) (s : Text) :
    structuralPrefix (structuralPrefix l ++ c :: s) = structuralPrefix l := by
  cases hfind : structuralMark.find l with
  | none => simp [structuralPrefix, hfind] at hne
  | some n =>
    have hle : n ≤ l.length := structuralMark.ends_le l (List.mem_of_mem_head? hfind)
    have hlead : structuralPrefix l = l.take n := by rw [structuralPrefix, hfind, Option.getD_some]
    have hagain : structuralMark.find (structuralPrefix l ++ c :: s) = some n := by
      rw [Pattern.find_append (structuralMark_reach hc hne), hlead]
      exact Pattern.find_take hfind
    have hlen : n = (structuralPrefix l).length := by
      rw [hlead, List.length_take, Nat.min_eq_left hle]
    rw [structuralPrefix, hagain, Option.getD_some, hlen, List.take_left]

theorem structuralPrefix_of_ends (h : ∀ n ∈ structuralMark.ends l, n = 0) :
    structuralPrefix l = [] := by
  cases hfind : structuralMark.find l with
  | none => rw [structuralPrefix, hfind, Option.getD_none, List.take_zero]
  | some n =>
    rw [structuralPrefix, hfind, Option.getD_some, h n (List.mem_of_mem_head? hfind), List.take_zero]

theorem ends_gap_eq_nil (h : ∀ d ∈ s.head?, d ∉ units " \t") : gap.ends s = [] := by
  cases s with
  | nil => rfl
  | cons d s => exact Pattern.ends_run_cons_neg (decide_eq_false (h d rfl))

theorem eq_star_of_mem (hc : c ∈ markUnits) (hmem : c ∈ units "-*+") : c = unit '*' := by
  have hall : (markUnits.all fun c => !decide (c ∈ units "-*+") || decide (c = unit '*')) = true := by
    decide
  simpa [hmem] using List.all_eq_true.mp hall c hc

/-- A mark at the beginning of a line is no structural prefix, `*` in front of a gap apart. -/
theorem structuralPrefix_bare (hc : c ∈ markUnits)
    (hstar : c = unit '*' → ∀ d ∈ s.head?, d ∉ units " \t") : structuralPrefix (c :: s) = [] := by
  refine structuralPrefix_of_ends fun n hn => ?_
  rw [structuralMark, Pattern.mem_ends_alt, Pattern.mem_ends_alt, Pattern.mem_ends_alt,
    Pattern.mem_ends_alt] at hn
  rcases hn with hn | hn | hn | hn | hn
  · exact Nat.le_zero.mp (Pattern.le_of_avoids (avoids_of_all (by decide) hc) [] s hn)
  · exact Nat.le_zero.mp (Pattern.le_of_avoids (avoids_of_all (by decide) hc) [] s hn)
  · exact Nat.le_zero.mp (Pattern.le_of_avoids (avoids_of_all (by decide) hc) [] s hn)
  · exfalso
    obtain ⟨i, hi, j, hj, rfl⟩ := Pattern.mem_ends_seq.mp hn
    obtain ⟨hle, hmost, hleast⟩ := Pattern.mem_ends_run.mp hi
    have hmem : c ∈ units "-*+" := by
      by_contra hnot
      rw [List.takeWhile_cons_of_neg (by simpa using hnot), List.length_nil] at hle
      omega
    have hone : i = 1 := Nat.le_antisymm (hmost 1 rfl) hleast
    rw [hone, List.drop_succ_cons, List.drop_zero,
      ends_gap_eq_nil (hstar (eq_star_of_mem hc hmem))] at hj
    exact List.not_mem_nil hj
  · exact Nat.le_zero.mp (Pattern.le_of_avoids (avoids_of_all (by decide) hc) [] s hn)

theorem structuralPrefix_star {g r : Text} (hg : ∀ d ∈ g, d ∈ units " \t") (hne : g ≠ [])
    (hr : ∀ d ∈ r.head?, d ∉ units " \t") :
    structuralPrefix (unit '*' :: (g ++ r)) = unit '*' :: g := by
  obtain ⟨ns, hns⟩ := Pattern.ends_plus_append (p := (decide <| · ∈ units " \t")) (u := g) (s := r)
    (fun d hd => decide_eq_true (hg d hd)) hne fun d hd => decide_eq_false (hr d hd)
  have hone : (oneOf "-*+").ends (unit '*' :: (g ++ r)) = [1] := Pattern.ends_one_cons (by decide)
  have hfirst : (Pattern.seq (.run (· = unit '#') 1 (some 6) true) gap).ends
      (unit '*' :: (g ++ r)) = [] := Pattern.ends_seq_eq_nil (Pattern.ends_run_cons_neg (by decide))
  have hquote : quoteMark.ends (unit '*' :: (g ++ r)) = [] :=
    Pattern.ends_seq_eq_nil (Pattern.ends_seq_eq_nil (Pattern.ends_run_cons_neg (by decide)))
  have hdash : (lit "-").ends (unit '*' :: (g ++ r)) = [] :=
    Pattern.ends_seq_eq_nil (Pattern.ends_run_cons_neg (by decide))
  have hfind : structuralMark.find (unit '*' :: (g ++ r)) = some (1 + g.length) := by
    rw [Pattern.find, structuralMark, Pattern.ends_alt, Pattern.ends_alt, Pattern.ends_alt,
      Pattern.ends_alt, hfirst, hquote, Pattern.ends_seq_eq_nil hdash, Pattern.ends_seq, hone]
    simp only [List.nil_append, List.flatMap_cons, List.drop_succ_cons, List.drop_zero]
    rw [gap, hns]
    rfl
  rw [structuralPrefix, hfind, Option.getD_some, Nat.add_comm, List.take_succ_cons, List.take_left]

/-! ### Marked texts -/

theorem marked_iff : marked m s = true ↔ m <+: s ∧ m <:+ s ∧ m.length * 2 ≤ s.length := by
  rw [marked, Bool.and_eq_true, Bool.and_eq_true, List.isPrefixOf_iff_prefix,
    List.isSuffixOf_iff_suffix, decide_eq_true_iff, and_assoc]

theorem unmark_between (m s : Text) : unmark m (m ++ s ++ m) = s := by
  have hlen : ((m ++ s ++ m).length : Int) - m.length = (m.length + s.length : Nat) := by
    simp
    omega
  rw [unmark, hlen, slice_nat, ← List.length_append, List.take_left, List.drop_left]

theorem marked_between (m s : Text) : marked m (m ++ s ++ m) = true := by
  refine marked_iff.mpr ⟨⟨s ++ m, (List.append_assoc _ _ _).symm⟩, ⟨m ++ s, rfl⟩, ?_⟩
  simp
  omega

theorem between_of_marked (h : marked m s = true) : s = m ++ unmark m s ++ m := by
  obtain ⟨⟨r, rfl⟩, hsuffix, hlen⟩ := marked_iff.mp h
  rw [List.length_append] at hlen
  obtain ⟨x, rfl⟩ := List.suffix_of_suffix_length_le hsuffix (List.suffix_append m r) (by omega)
  rw [← List.append_assoc, unmark_between]

theorem marked_of_notMem (h : Marker m c) (hs : c ∉ s) : marked m s = false := by
  refine Bool.eq_false_of_not_eq_true fun hmarked => hs ?_
  exact (marked_iff.mp hmarked).1.subset h.mem_self

theorem marked_of_head (h : Marker m c) (hs : s.head? ≠ some c) : marked m s = false := by
  refine Bool.eq_false_of_not_eq_true fun hmarked => hs ?_
  obtain ⟨r, rfl⟩ := (marked_iff.mp hmarked).1
  obtain ⟨k, hk⟩ := h.exists_cons
  rw [hk]
  rfl

/-! ### Lines -/

theorem inlineLine_blank (hb : blank l = true) : inlineLine m l = l := by
  rw [inlineLine, if_pos hb]

theorem inlineLine_eq (hb : blank l = false) (hl : l = structuralPrefix l ++ s) :
    inlineLine m l = if marked m s then structuralPrefix l ++ unmark m s
      else structuralPrefix l ++ m ++ s ++ m := by
  have hcontent : slice l (structuralPrefix l).length l.length = s := by
    conv_lhs => rw [slice_nat, List.take_length]
    rw [← List.append_cancel_left (hl.symm.trans (structuralPrefix_append l).symm)]
  rw [inlineLine, if_neg (by simp [hb])]
  simp only [hcontent]

/-- The mark goes around what is behind the structural prefix. -/
theorem inlineLine_add (h : Marker m c) (hb : blank l = false) (hno : c ∉ l) : inlineLine m l =
    structuralPrefix l ++ (m ++ l.drop (structuralPrefix l).length ++ m) := by
  have hmarked := marked_of_notMem h fun hc => hno (List.mem_of_mem_drop
    (i := (structuralPrefix l).length) hc)
  rw [inlineLine_eq hb (structuralPrefix_append l).symm, hmarked, if_neg (by simp)]
  simp only [List.append_assoc]

/-- `*` in front of a gap is read as the mark of a list. -/
def Slips (m l : Text) : Prop :=
  m = units "*" ∧ structuralPrefix l = [] ∧ (l.head?.any fun d => d ∈ units " \t") = true

instance (m l : Text) : Decidable (Slips m l) := inferInstanceAs (Decidable (_ ∧ _))

theorem isSpace_of_gap (d : UInt16) (hd : d ∈ units " \t") : isSpace d = true := by
  have hall : (units " \t").all isSpace = true := by decide
  exact List.all_eq_true.mp hall d hd

theorem blank_eq_false (hmem : c ∈ l) (hc : isSpace c = false) : blank l = false := by
  refine Bool.eq_false_of_not_eq_true fun hblank => ?_
  rw [blank_iff.mp hblank c hmem] at hc
  simp at hc

theorem structuralPrefix_inlineLine (h : Marker m c) (hb : blank l = false) (hno : c ∉ l)
    (hslip : ¬ Slips m l) : structuralPrefix (inlineLine m l) = structuralPrefix l := by
  obtain ⟨k, hk⟩ := h.exists_cons
  rw [inlineLine_add h hb hno]
  by_cases hlead : structuralPrefix l = []
  · rw [hlead, hk]
    refine structuralPrefix_bare h.mem fun hstar d hd hgap => ?_
    cases k with
    | zero =>
      cases l with
      | nil => exact absurd hb (by decide)
      | cons e t =>
        obtain rfl : e = d := by simpa using hd
        exact hslip ⟨by rw [hk, hstar]; rfl, hlead, decide_eq_true hgap⟩
    | succ k =>
      obtain rfl : c = d := by simpa [List.replicate_succ] using hd
      have hspace := h.isSpace_eq
      rw [isSpace_of_gap c hgap] at hspace
      simp at hspace
  · rw [hk]
    exact structuralPrefix_mark h.mem hlead _

/-- A line that begins with a gap. -/
theorem gap_split (hb : blank l = false) (hgap : (l.head?.any fun d => d ∈ units " \t") = true) :
    ∃ g r, (∀ d ∈ g, d ∈ units " \t") ∧ g ≠ [] ∧ (∃ e t, r = e :: t ∧ e ∉ units " \t") ∧
      l = g ++ r := by
  refine ⟨l.takeWhile (· ∈ units " \t"), l.dropWhile (· ∈ units " \t"), fun d hd =>
    of_decide_eq_true (List.mem_takeWhile_imp (p := (decide <| · ∈ units " \t")) hd), ?_, ?_,
    List.takeWhile_append_dropWhile.symm⟩
  · cases l with
    | nil => simp at hgap
    | cons e t =>
      have hmem : e ∈ units " \t" := by simpa using hgap
      simp [hmem]
  · cases hr : l.dropWhile (· ∈ units " \t") with
    | nil =>
      rw [List.dropWhile_eq_nil_iff] at hr
      rw [blank_iff.mpr fun d hd => isSpace_of_gap d (of_decide_eq_true (hr d hd))] at hb
      simp at hb
    | cons e t =>
      have he := List.head?_dropWhile_not (decide <| · ∈ units " \t") l
      rw [hr] at he
      exact ⟨e, t, rfl, of_decide_eq_false he⟩

theorem inlineLine_twice (h : Marker m c) (hb : blank l = false) (hno : c ∉ l) :
    inlineLine m (inlineLine m l) = l ↔ ¬ Slips m l := by
  have hline := inlineLine_add h hb hno
  have hblank : blank (inlineLine m l) = false :=
    blank_eq_false (by rw [hline]; simp [h.mem_self]) h.isSpace_eq
  constructor
  · rintro htwice ⟨rfl, hlead, hgap⟩
    obtain rfl : unit '*' = c := h.eq_of_mem (by decide)
    obtain ⟨g, r, hg, hne, hr, rfl⟩ := gap_split hb hgap
    rw [hlead] at hline
    have hx : inlineLine (units "*") (g ++ r) = unit '*' :: g ++ (r ++ units "*") := by
      rw [hline]
      simp [units, unit]
    obtain ⟨e, r', hcons, he⟩ := hr
    have hstar : structuralPrefix (inlineLine (units "*") (g ++ r)) = unit '*' :: g := by
      rw [hx]
      exact structuralPrefix_star hg hne fun f hf => by
        obtain rfl : e = f := by simpa [hcons] using hf
        exact he
    have hmarked : marked (units "*") (r ++ units "*") = false := by
      refine marked_of_head h fun hhead => hno ?_
      obtain rfl : e = unit '*' := by simpa [hcons] using hhead
      simp [hcons]
    rw [inlineLine_eq hblank (s := r ++ units "*") (by rw [hstar, hx]), hmarked, if_neg (by simp),
      hstar] at htwice
    have hlen := congrArg List.length htwice
    simp [units] at hlen
    omega
  · intro hslip
    have hlead := structuralPrefix_inlineLine h hb hno hslip
    rw [inlineLine_eq hblank (s := m ++ l.drop (structuralPrefix l).length ++ m)
      (by rw [hlead, ← hline]), marked_between, if_pos rfl, unmark_between, hlead]
    exact structuralPrefix_append l

/-! ### The first toggle -/

theorem mem_of_mem_slice {d : UInt16} {a b : Int} (h : d ∈ slice s a b) : d ∈ s :=
  List.mem_of_mem_take (List.mem_of_mem_drop h)

theorem mem_slice {d : UInt16} {a : Int} {b : Nat} (h : d ∈ slice s a b) : d ∈ s.take b := by
  rw [slice, clamp_nat, ← List.take_eq_take_min] at h
  exact List.mem_of_mem_drop h

theorem betweenMarks_eq_false (state : EditorState) (h : Marker m c)
    (hno : c ∉ state.text.take (selectedText state).start) : betweenMarks state m = false :=
  decide_eq_false fun hbetween => hno (mem_slice (hbetween.1 ▸ h.mem_self))

/-- Without marks in the text there are none to take away. -/
theorem toggleInlineMark_eq (state : EditorState) (h : Marker m c) (hno : c ∉ state.text) :
    toggleInlineMark state m = if overLines state then applyInlineOverLines state m
    else replaceSelection state (m ++ (selectedText state).value ++ m)
      (some ((selectedText state).start + m.length : Nat))
      (some ((selectedText state).stop + m.length : Nat)) := by
  have hbetween := betweenMarks_eq_false state h fun hc => hno (List.mem_of_mem_take hc)
  have hmarked : marked m (selectedText state).value = false :=
    marked_of_notMem h fun hc => hno (mem_of_mem_slice hc)
  simp only [toggleInlineMark, hbetween, hmarked, if_neg (show ¬ (false = true) by simp)]

/-- The selection between what is in front of it and behind it. -/
theorem valid_split (h : state.Valid) : ∃ A v B,
    state = ⟨A ++ v ++ B, A.length, A.length + v.length⟩ := by
  obtain ⟨text, s, e⟩ := state
  obtain ⟨hse, he⟩ : s ≤ e ∧ e ≤ text.length := h
  refine ⟨text.take s, (text.take e).drop s, text.drop e, ?_⟩
  rw [(splice_eq_self hse).mpr rfl]
  simp
  omega

/-- Between the marks a toggle puts it finds them. -/
theorem toggleInlineMark_between (m A v B : Text) :
    (toggleInlineMark ⟨A ++ m ++ v ++ (m ++ B), (A ++ m).length, (A ++ m).length + v.length⟩ m).text =
      some (A ++ v ++ B) := by
  have hvalue := slice_between (A ++ m) v (m ++ B)
  have hbefore : slice (A ++ m ++ v ++ (m ++ B)) (((A ++ m).length : Nat) - (m.length : Nat))
      ((A ++ m).length : Nat) = m := by
    have hstart : (((A ++ m).length : Nat) : Int) - (m.length : Nat) = (A.length : Nat) := by simp
    rw [hstart, List.append_assoc (A ++ m), List.length_append]
    exact slice_between A m (v ++ (m ++ B))
  have hafter : slice (A ++ m ++ v ++ (m ++ B)) ((A ++ m).length + v.length : Nat)
      ((A ++ m).length + v.length + m.length : Nat) = m := by
    rw [← List.append_assoc, ← List.length_append]
    exact slice_between (A ++ m ++ v) m B
  have hbetween : betweenMarks ⟨A ++ m ++ v ++ (m ++ B), (A ++ m).length,
      (A ++ m).length + v.length⟩ m = true := by
    simp only [betweenMarks, selectedText_between, decide_eq_true_iff]
    exact ⟨hbefore, hafter⟩
  have hstart : (A ++ m).length - m.length = A.length := by simp
  have hstop : (A ++ m).length + v.length + m.length = A.length + (m ++ v ++ m).length := by
    simp
    omega
  have htext : A ++ m ++ v ++ (m ++ B) = A ++ (m ++ v ++ m) ++ B := by simp
  simp only [toggleInlineMark, hbetween, if_true, selectedText_between]
  rw [hvalue, hstart, hstop, htext]
  exact replaceRange_between A (m ++ v ++ m) B v _ _ _ _

theorem twice_wrap (h : Marker m c) (hvalid : state.Valid) (hno : c ∉ state.text)
    (hlines : overLines state = false) :
    twice (fun s => toggleInlineMark s m) state = some state.text := by
  have hfirst := toggleInlineMark_eq state h hno
  obtain ⟨A, v, B, rfl⟩ := valid_split hvalid
  rw [hlines, if_neg (by simp), selectedText_between] at hfirst
  have hresume : (toggleInlineMark ⟨A ++ v ++ B, A.length, A.length + v.length⟩ m).resume =
      some ⟨A ++ m ++ v ++ (m ++ B), (A ++ m).length, (A ++ m).length + v.length⟩ := by
    rw [hfirst, replaceSelection, selectedText_between]
    simp only [Spec.resume, replaceRange_between]
    simp [replaceRange]
    omega
  rw [twice, hresume]
  exact toggleInlineMark_between m A v B

/-! ### The second toggle -/

/-- What a toggle puts for a block that is selected as a whole. -/
def toggledBlock (m w : Text) : Text :=
  if marked m w then unmark m w
  else if w ≠ [] ∧ (newline ∈ w ∨ structuralPrefix w ≠ []) then mapLines (inlineLine m) w
  else m ++ w ++ m

theorem overLines_block (hblock : selectedLineBlock ⟨A ++ w ++ B, A.length, A.length + w.length⟩ =
    ⟨A.length, A.length + w.length, w⟩) :
    overLines ⟨A ++ w ++ B, A.length, A.length + w.length⟩ =
      decide (w ≠ [] ∧ (newline ∈ w ∨ structuralPrefix w ≠ [])) := by
  simp only [overLines, selectedText_between, coversStructuralPrefix, hblock]
  refine decide_eq_decide.mpr (and_congr_right fun _ => or_congr_right' fun hline => ?_)
  rw [if_neg hline, Bool.and_eq_true, decide_eq_true_iff, decide_eq_true_iff, List.length_pos_iff]
  exact and_iff_left (by omega)

theorem toggleInlineMark_block (h : Marker m c) (hno : c ∉ A)
    (hblock : selectedLineBlock ⟨A ++ w ++ B, A.length, A.length + w.length⟩ =
      ⟨A.length, A.length + w.length, w⟩) :
    (toggleInlineMark ⟨A ++ w ++ B, A.length, A.length + w.length⟩ m).text =
      some (A ++ toggledBlock m w ++ B) := by
  have hbetween : betweenMarks ⟨A ++ w ++ B, A.length, A.length + w.length⟩ m = false := by
    refine betweenMarks_eq_false _ h ?_
    rwa [selectedText_between, List.append_assoc, List.take_left]
  unfold toggleInlineMark toggledBlock
  simp only [hbetween, overLines_block hblock, selectedText_between,
    if_neg (show ¬ (false = true) by simp), decide_eq_true_iff]
  split_ifs
  · exact replaceRange_between A w B _ _ _ _ _
  · rw [applyInlineOverLines, replaceBlock, hblock]
    exact replaceRange_between A w B _ _ _ _ _
  · rw [replaceSelection, selectedText_between]
    exact replaceRange_between A w B _ _ _ _ _

theorem keepsNewlines_inlineLine (hm : newline ∉ m) : KeepsNewlines (inlineLine m) := by
  intro l hl h
  unfold inlineLine at h
  simp only at h
  split_ifs at h
  · exact hl h
  · rw [List.mem_append] at h
    exact h.elim (fun h => hl (List.mem_of_mem_take h)) fun h =>
      hl (mem_of_mem_slice (mem_of_mem_slice h))
  · simp only [List.mem_append] at h
    rcases h with ((h | h) | h) | h
    · exact hl (List.mem_of_mem_take h)
    · exact hm h
    · exact hl (mem_of_mem_slice h)
    · exact hm h

theorem eq_nil_of_inlineLine (h : Marker m c) (hno : c ∉ l) (hl : inlineLine m l = []) : l = [] := by
  cases hb : blank l with
  | true => rwa [inlineLine_blank hb] at hl
  | false =>
    rw [inlineLine_add h hb hno] at hl
    simp [h.ne] at hl

/-- Where the mark goes on each line, the block is toggled again. -/
theorem twice_lines (h : Marker m c) (hvalid : state.Valid) (hno : c ∉ state.text)
    (hlines : overLines state = true) :
    twice (fun s => toggleInlineMark s m) state = some state.text ↔
      toggledBlock m (mapLines (inlineLine m) (selectedLineBlock state).value) =
        (selectedLineBlock state).value := by
  have hq : ¬ AtLeadingNewline state := by
    rintro ⟨hs, he, -⟩
    rw [overLines, selectedText_eq hvalid, hs, he, decide_eq_true_iff] at hlines
    exact hlines.1 (slice_zero _ _)
  have hm := h.newline_notMem
  obtain ⟨A, B, hA, hB, htext, hstart, hnl, hreplace⟩ := block_split hvalid hq
  have hline := keepsNewlines_inlineLine hm
  rw [htext] at hno hnl
  have hhead : KeepsHead (mapLines (inlineLine m)) (selectedLineBlock state).value := by
    refine keepsHead_join (f := List.map (inlineLine m)) (List.length_map _) ?_ fun hempty => ?_
    · rw [← lines_mapLines hline]
      exact newline_notMem _
    · rw [List.head?_map] at hempty
      obtain ⟨l, hl, hnil⟩ := Option.map_eq_some_iff.mp hempty
      have hmem : c ∉ l := fun hc => hno (by simp [mem_of_mem_lines (List.mem_of_mem_head? hl) hc])
      rw [hl, eq_nil_of_inlineLine h hmem hnil]
  have hagain := block_again hA hB hnl hhead
  have hfirst := toggleInlineMark_eq state h (by rwa [htext])
  rw [hlines, if_pos rfl, applyInlineOverLines] at hfirst
  rw [twice, hfirst, resume_replaceBlock, hreplace, hstart]
  simp only [Option.map_some, Option.bind_eq_bind, Option.bind_some]
  rw [toggleInlineMark_block h (by simp_all) hagain, Option.some.injEq]
  constructor
  · intro heq
    rw [htext] at heq
    exact List.append_cancel_left (List.append_cancel_right heq)
  · intro heq
    rw [heq]
    exact htext.symm

/-! ### The block -/

theorem prefix_inlineLine (h : Marker m c) (hno : c ∉ l) :
    m <+: inlineLine m l ↔ blank l = false ∧ structuralPrefix l = [] := by
  cases hb : blank l with
  | true =>
    rw [inlineLine_blank hb]
    exact iff_of_false (fun hm => hno (hm.subset h.mem_self)) (by simp)
  | false =>
    rw [inlineLine_add h hb hno]
    constructor
    · intro hm
      refine ⟨rfl, by_contra fun hlead => hno ?_⟩
      obtain ⟨d, t, hd⟩ := List.exists_cons_of_ne_nil hlead
      obtain ⟨k, hk⟩ := h.exists_cons
      rw [hd, hk, List.cons_append, List.cons_prefix_cons] at hm
      rw [hm.1, ← structuralPrefix_append l, hd]
      simp
    · rintro ⟨-, hlead⟩
      rw [hlead, List.nil_append, List.append_assoc]
      exact List.prefix_append m _

theorem suffix_inlineLine (h : Marker m c) (hno : c ∉ l) :
    m <:+ inlineLine m l ↔ blank l = false := by
  cases hb : blank l with
  | true =>
    rw [inlineLine_blank hb]
    exact iff_of_false (fun hm => hno (hm.subset h.mem_self)) (by simp)
  | false =>
    rw [inlineLine_add h hb hno, ← List.append_assoc]
    exact iff_of_true (List.suffix_append _ m) rfl

/-- The lines of a block that come back: a line that is not blank, or lines that do not begin and
end with marks as a whole, none of which begins with the mark of a list then. -/
def Restores (m : Text) : List Text → Prop
  | [line] => blank line = false
  | ls => ¬ ((∃ l ∈ ls.head?, blank l = false ∧ structuralPrefix l = []) ∧
      ∃ l ∈ ls.getLast?, blank l = false) ∧ ∀ l ∈ ls, blank l = false → ¬ Slips m l

instance (m : Text) : (ls : List Text) → Decidable (Restores m ls)
  | [line] => inferInstanceAs (Decidable (blank line = false))
  | [] => inferInstanceAs (Decidable (_ ∧ _))
  | _ :: _ :: _ => inferInstanceAs (Decidable (_ ∧ _))

theorem structuralPrefix_blank (hb : blank l = true) : structuralPrefix l = [] := by
  cases l with
  | nil => rfl
  | cons d s =>
    have hspace := blank_iff.mp hb d List.mem_cons_self
    obtain ⟨hsign, hdigit, hdash⟩ := head_of_isSpace hspace
    have hne : ∀ e, isSpace e = false → decide (d = e) = false := fun e he =>
      decide_eq_false fun heq => by rw [heq, he] at hspace; simp at hspace
    have hnil : structuralMark.ends (d :: s) = [] := by
      rw [structuralMark, Pattern.ends_alt, Pattern.ends_alt, Pattern.ends_alt, Pattern.ends_alt,
        List.append_eq_nil_iff, List.append_eq_nil_iff, List.append_eq_nil_iff,
        List.append_eq_nil_iff]
      exact ⟨Pattern.ends_seq_eq_nil (Pattern.ends_run_cons_neg (hne _ (by decide))),
        Pattern.ends_seq_eq_nil (Pattern.ends_seq_eq_nil
          (Pattern.ends_run_cons_neg (hne _ (by decide)))),
        Pattern.ends_seq_eq_nil (Pattern.ends_seq_eq_nil (Pattern.ends_run_cons_neg hdash)),
        Pattern.ends_seq_eq_nil (Pattern.ends_run_cons_neg hsign),
        Pattern.ends_seq_eq_nil (Pattern.ends_run_cons_neg hdigit)⟩
    exact structuralPrefix_of_ends fun n hn => by simp [hnil] at hn

/-- A block of one line. -/
theorem restores_line (h : Marker m c) {l : Text} (hv : lines v = [l]) (hno : c ∉ v) :
    toggledBlock m (mapLines (inlineLine m) v) = v ↔ blank l = false := by
  have hl : v = l := by rw [← join_lines v, hv, List.intercalate_singleton]
  subst hl
  have hmap : mapLines (inlineLine m) v = inlineLine m v := by
    rw [mapLines, hv]
    exact List.intercalate_singleton
  have hnl : newline ∉ v := newline_notMem v v (by simp [hv])
  cases hb : blank v with
  | true =>
    rw [hmap, inlineLine_blank hb, toggledBlock, marked_of_notMem h hno, if_neg (by simp), if_neg
      (by simp [hnl, structuralPrefix_blank hb])]
    refine iff_of_false (fun heq => ?_) (by simp)
    have hlen := congrArg List.length heq
    have hpos := h.length_pos
    simp at hlen
    omega
  | false =>
    refine iff_of_true ?_ rfl
    have hline := inlineLine_add h hb hno
    cases hlead : structuralPrefix v with
    | nil =>
      rw [hlead] at hline
      rw [hmap, hline, List.nil_append, List.length_nil, List.drop_zero, toggledBlock,
        marked_between, if_pos rfl, unmark_between]
    | cons d t =>
      have hslip : ¬ Slips m v := fun hs => absurd hs.2.1 (by simp [hlead])
      have hmarked : marked m (mapLines (inlineLine m) v) = false := by
        rw [hmap, hline, hlead]
        refine marked_of_head h fun hhead => hno ?_
        obtain rfl : d = c := by simpa using hhead
        rw [← structuralPrefix_append v, hlead]
        simp
      have hagain := structuralPrefix_inlineLine h hb hno hslip
      rw [toggledBlock, hmarked, if_neg (by simp), if_pos ?_,
        mapLines_mapLines (keepsNewlines_inlineLine h.newline_notMem)]
      · intro l hl
        obtain rfl : l = v := by simpa [hv] using hl
        exact (inlineLine_twice h hb hno).mpr hslip
      · rw [hmap, hagain, hline, hlead]
        simp

/-- The block begins and ends with marks. -/
theorem marked_mapLines (h : Marker m c) {l k : Text} {ls : List Text} (hv : lines v = l :: k :: ls)
    (hno : c ∉ v) : marked m (mapLines (inlineLine m) v) = true ↔
      (∃ line ∈ (l :: k :: ls).head?, blank line = false ∧ structuralPrefix line = []) ∧
        ∃ line ∈ (l :: k :: ls).getLast?, blank line = false := by
  have hnl := h.newline_notMem
  have hnol : ∀ l' ∈ lines v, c ∉ l' := fun l' hl' hc => hno (mem_of_mem_lines hl' hc)
  rw [hv] at hnol
  have hfront : mapLines (inlineLine m) v = inlineLine m l ++
      newline :: join [newline] ((k :: ls).map (inlineLine m)) := by
    simp [mapLines, hv, join, List.intercalate_cons_cons]
  obtain ⟨ks, last, hks⟩ : ∃ ks last, k :: ls = ks ++ [last] :=
    ⟨_, _, (List.dropLast_append_getLast (List.cons_ne_nil k ls)).symm⟩
  have hback : mapLines (inlineLine m) v =
      join [newline] ((l :: ks).map (inlineLine m)) ++ newline :: inlineLine m last := by
    rw [mapLines, hv, hks, ← List.cons_append, List.map_append, List.map_singleton]
    rw [join, intercalate_append newline (by simp) (List.cons_ne_nil _ []),
      List.intercalate_singleton]
    rfl
  have hlast : last ∈ l :: k :: ls := by
    rw [hks]
    simp
  have hgetLast : (l :: k :: ls).getLast? = some last := by
    rw [hks, ← List.cons_append, List.getLast?_concat]
  have hprefix : m <+: mapLines (inlineLine m) v ↔ blank l = false ∧ structuralPrefix l = [] := by
    rw [hfront, prefix_append_cons hnl, prefix_inlineLine h (hnol l List.mem_cons_self)]
  have hsuffix : m <:+ mapLines (inlineLine m) v ↔ blank last = false := by
    rw [hback, suffix_append_cons hnl, suffix_inlineLine h (hnol last hlast)]
  rw [marked_iff, hprefix, hsuffix, hgetLast]
  simp only [List.head?_cons, Option.mem_some_iff, exists_eq_left']
  constructor
  · rintro ⟨hfirst, hlast, -⟩
    exact ⟨hfirst, hlast⟩
  · rintro ⟨hfirst, hlast⟩
    refine ⟨hfirst, hlast, ?_⟩
    rw [hfront, inlineLine_add h hfirst.1 (hnol _ List.mem_cons_self)]
    simp
    omega

/-- Taking away the marks around the block leaves the others. -/
theorem unmark_mapLines_ne (h : Marker m c) {l k : Text} {ls : List Text}
    (hv : lines v = l :: k :: ls) (hno : c ∉ v)
    (hmarked : marked m (mapLines (inlineLine m) v) = true) :
    unmark m (mapLines (inlineLine m) v) ≠ v := by
  intro heq
  have hnl := h.newline_notMem
  have hwhole := between_of_marked hmarked
  obtain ⟨⟨l', hl', hb, hlead⟩, -⟩ := (marked_mapLines h hv hno).mp hmarked
  obtain rfl : l = l' := by simpa using hl'
  have hmem : l ∈ lines v := by simp [hv]
  have hfirst : lines (mapLines (inlineLine m) v) =
      (m ++ l ++ m) :: (k :: ls).map (inlineLine m) := by
    rw [lines_mapLines (keepsNewlines_inlineLine hnl), hv, List.map_cons,
      inlineLine_add h hb fun hc => hno (mem_of_mem_lines hmem hc), hlead, List.nil_append,
      List.length_nil, List.drop_zero]
  have hjoin : v = l ++ newline :: join [newline] (k :: ls) := by
    rw [← join_lines v, hv, List.intercalate_cons_cons, join]
    simp
  have hline : newline ∉ m ++ l := by
    rw [List.mem_append]
    exact fun hmem' => hmem'.elim hnl (newline_notMem v l hmem)
  have hsplit : m ++ v ++ m = (m ++ l) ++ newline :: (join [newline] (k :: ls) ++ m) := by
    rw [hjoin]
    simp
  rw [hwhole, heq, hsplit, lines_append_newline, lines_eq_singleton hline,
    List.singleton_append] at hfirst
  have hlen := congrArg List.length (List.cons.inj hfirst).1
  exact h.ne (by simpa using hlen)

/-- A block of several lines. -/
theorem restores_lines (h : Marker m c) {l k : Text} {ls : List Text} (hv : lines v = l :: k :: ls)
    (hno : c ∉ v) : toggledBlock m (mapLines (inlineLine m) v) = v ↔ Restores m (lines v) := by
  have hhead := marked_mapLines h hv hno
  have hmem : newline ∈ mapLines (inlineLine m) v := by
    simp [mapLines, hv, join, List.intercalate_cons_cons]
  have hlines : mapLines (inlineLine m) (mapLines (inlineLine m) v) = v ↔
      ∀ l ∈ lines v, blank l = false → ¬ Slips m l := by
    rw [mapLines_mapLines (keepsNewlines_inlineLine h.newline_notMem)]
    refine forall₂_congr fun l hl => ?_
    cases hb : blank l with
    | true => simp [inlineLine_blank hb]
    | false =>
      rw [inlineLine_twice h hb fun hc => hno (mem_of_mem_lines hl hc)]
      simp
  rw [hv] at hlines
  rw [hv, Restores, ← hhead]
  · cases hmarked : marked m (mapLines (inlineLine m) v) with
    | true =>
      rw [toggledBlock, hmarked, if_pos rfl]
      exact iff_of_false (unmark_mapLines_ne h hv hno hmarked) (by simp)
    | false =>
      rw [toggledBlock, hmarked, if_neg (by simp), if_pos ⟨List.ne_nil_of_mem hmem, .inl hmem⟩, hlines]
      simp
  · simp

/-- The mark of the toolbar and the same mark again restore a text without its character, except
where the first one goes on lines that do not come back. -/
theorem inlineMark_restores_iff (state : EditorState) (h : state.Valid) (marker : Text)
    (hm : marker ∈ inlineMarkers) (hno : ∀ c ∈ marker, c ∉ state.text) :
    twice (fun s => toggleInlineMark s marker) state = some state.text ↔
      (overLines state = true → Restores marker (lines (selectedLineBlock state).value)) := by
  obtain ⟨c, hc⟩ := marker_of_mem hm
  have hnot := hno c hc.mem_self
  cases hlines : overLines state with
  | false => exact iff_of_true (twice_wrap hc h hnot hlines) (by simp)
  | true =>
    have hvalue : c ∉ (selectedLineBlock state).value := fun hmem => hnot (mem_of_mem_slice hmem)
    rw [twice_lines hc h hnot hlines, forall_prop_of_true rfl]
    cases hv : lines (selectedLineBlock state).value with
    | nil => exact absurd hv (lines_ne_nil _)
    | cons l ls =>
      cases ls with
      | nil => exact restores_line hc hv hvalue
      | cons k ls =>
        rw [restores_lines hc hv hvalue, hv]

theorem notMem_of_all {marker text : Text} (h : (marker.all fun c => !text.contains c) = true) :
    ∀ c ∈ marker, c ∉ text := by
  simpa using h

theorem inlineMark_restores_list :
    twice (fun s => toggleInlineMark s (units "**")) ⟨units "- a\n\nb", 0, 6⟩ =
      some (units "- a\n\nb") :=
  (inlineMark_restores_iff ⟨units "- a\n\nb", 0, 6⟩ ⟨by decide, by decide⟩ (units "**") (by decide)
    (notMem_of_all (by decide))).mpr fun _ => by decide

/-- Two lines have the mark in front of the first one and behind the second one taken away. -/
theorem bold_lines_stay_bold : ∃ state : EditorState, state.Valid ∧
    ∃ marker ∈ inlineMarkers, (∀ c ∈ marker, c ∉ state.text) ∧
      twice (fun s => toggleInlineMark s marker) state ≠ some state.text :=
  ⟨⟨units "a\nb", 0, 3⟩, ⟨by decide, by decide⟩, units "**", by decide,
    notMem_of_all (by decide), by decide⟩

end Mdock.Editor.Commands
