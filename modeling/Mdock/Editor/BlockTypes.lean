import Mdock.Editor.Conversions

/-! Headings and paragraphs set one after the other. -/
namespace Mdock.Editor.Commands
open Mdock.Js Mdock.Lib

/-- The text after two commands, the second with the selection that the first returns. -/
def inTurn (first second : EditorState → Spec) (state : EditorState) : Option Text := do
  let state ← (first state).resume
  (second state).text

/-- The last block type set is the one the lines have. -/
def LastWins (state : EditorState) : Prop :=
  (∀ n m, (1 ≤ n ∧ n ≤ 6) → (1 ≤ m ∧ m ≤ 6) →
    inTurn (setHeading · n) (setHeading · m) state = (setHeading state m).text) ∧
  inTurn setParagraph setParagraph state = (setParagraph state).text

/-! ### Lines that keep a mark -/

/-- The mark of a list item; a task's box is left to its text. -/
def itemMark : Pattern UInt16 := .alt (.seq (oneOf "-*+") (.plus isSpace)) numbered

/-- A heading is put in front of a space or of a second quote mark, which the next one takes
away. -/
def headingTwice : Pattern UInt16 :=
  .alt (.one isSpace) (.seq (.optional headingMark) (.seq quoteMarks quoteMarks))

/-- A paragraph begins with a mark again: behind an item's, behind a quote's, or behind a
heading's. -/
def paragraphTwice : Pattern UInt16 :=
  .alt (.seq (.star isSpace) (.seq itemMark itemMark)) <|
  .alt (.seq (.optional itemMark) (.seq quoteMark
    (.alt (.seq (.star isSpace) itemMark) quoteMark))) <|
  .seq (.optional itemMark) (.seq (.optional quoteMark)
    (.seq headingMark (.alt itemMark (.alt quoteMark headingMark))))

def onlyMarks : Pattern UInt16 :=
  .seq (.optional itemMark) (.seq (.optional quoteMark) (.optional headingMark))

/-- The selection is in the first of several lines, and that line is nothing but marks. -/
def MarksOnly (state : EditorState) : Prop :=
  let block := selectedLineBlock state
  block.start = 0 ∧ block.value.length < state.text.length ∧ newline ∉ block.value ∧
    onlyMarks.Matches block.value

instance (state : EditorState) : Decidable (MarksOnly state) :=
  inferInstanceAs (Decidable (_ ∧ _ ∧ _ ∧ _))

section
variable {c : UInt16} {l t u : Text} {b : Pattern UInt16}

/-! ### What the marks take -/

theorem takesRun_sign {a : Pattern UInt16} (ha : a.ends l = [1] ∨ a.ends l = []) :
    Pattern.TakesRun isSpace (.seq a (.plus isSpace)) l := by
  rcases ha with ha | ha
  · exact Pattern.takesRun_of_ends (Pattern.ends_seq_of_ends ha) (Pattern.takesRun_run _ 1 _)
  · exact Pattern.takesRun_of_nil (Pattern.ends_seq_eq_nil ha)

theorem ends_one (p : UInt16 → Bool) (l : Text) :
    (Pattern.one p).ends l = [1] ∨ (Pattern.one p).ends l = [] := by
  cases l with
  | nil => exact .inr rfl
  | cons c l =>
    cases hc : p c with
    | true => exact .inl (Pattern.ends_one_cons hc)
    | false => exact .inr (Pattern.ends_run_cons_neg hc)

theorem takesRun_run {p : UInt16 → Bool} {least : Nat} {most : Option Nat}
    (hb : ∀ c t, p c = true → b.ends (c :: t) = [])
    (htakes : ∀ s, Pattern.TakesRun isSpace b s) (s : Text) :
    Pattern.TakesRun isSpace (.seq (.run p least most true) b) s := by
  have hends : (Pattern.seq (.run p least most true) b).ends s = _ := Pattern.ends_run_seq hb s
  split_ifs at hends
  · exact Pattern.takesRun_of_ends hends (htakes _)
  · exact Pattern.takesRun_of_nil hends

theorem takesRun_heading (l : Text) : Pattern.TakesRun isSpace headingMark l :=
  takesRun_run (fun _ _ hc => Pattern.ends_run_cons_neg (by rw [of_decide_eq_true hc]; decide))
    (Pattern.takesRun_run _ 1) l

theorem takesRun_quotes (l : Text) : Pattern.TakesRun isSpace quoteMarks l := by
  refine takesRun_sign ?_
  cases l with
  | nil => exact .inr rfl
  | cons c l =>
    by_cases hc : c = unit '>'
    · exact .inl (hc ▸ Pattern.ends_literal (units ">") l)
    · exact .inr (Pattern.ends_seq_eq_nil (Pattern.ends_run_cons_neg (decide_eq_false hc)))

theorem takesRun_item (l : Text) : Pattern.TakesRun isSpace itemMark l := by
  have hbullet := takesRun_sign (ends_one (· ∈ units "-*+") l)
  have hnumbered : Pattern.TakesRun isSpace numbered l :=
    takesRun_run (fun _ _ hc => Pattern.ends_seq_eq_nil
      (Pattern.ends_run_cons_neg (sign_of_isDigit hc).2.2.2.1))
      (fun s => takesRun_sign (ends_one (· ∈ units ".)") s)) l
  by_cases hdigit : ∃ c t, l = c :: t ∧ isDigit c = true
  · obtain ⟨c, t, rfl, hc⟩ := hdigit
    have hnil : (Pattern.seq (oneOf "-*+") (.plus isSpace)).ends (c :: t) = [] :=
      Pattern.ends_seq_eq_nil (Pattern.ends_run_cons_neg (sign_of_isDigit hc).1)
    intro m hm
    rw [itemMark, Pattern.find, Pattern.ends_alt, hnil] at hm
    rw [itemMark, Pattern.ends_alt, hnil]
    exact hnumbered m hm
  · have hnil : numbered.ends l = [] := by
      cases l with
      | nil => rfl
      | cons c t =>
        refine Pattern.ends_seq_eq_nil (Pattern.ends_run_cons_neg ?_)
        exact Bool.eq_false_of_not_eq_true fun hc => hdigit ⟨c, t, rfl, hc⟩
    intro m hm
    rw [itemMark, Pattern.find, Pattern.ends_alt, hnil, List.append_nil] at hm
    rw [itemMark, Pattern.ends_alt, hnil, List.append_nil]
    exact hbullet m hm

/-! ### What marks begin with -/

theorem head_of_test_heading (h : headingMark.test l = true) : ∃ t, l = unit '#' :: t := by
  cases l with
  | nil => exact absurd h (by decide)
  | cons c t =>
    by_contra hne
    rw [Pattern.test_eq_false_iff.mpr (headingMark_neg fun hc => hne ⟨t, by rw [hc]⟩)] at h
    simp at h

theorem head_of_test_quote {a : Pattern UInt16} (h : (Pattern.seq (lit ">") a).test l = true) :
    ∃ t, l = unit '>' :: t := by
  cases l with
  | nil =>
    obtain ⟨n, hn, -⟩ := Pattern.test_seq.mp h
    exact absurd (List.ne_nil_of_mem hn) (by decide)
  | cons c t =>
    by_contra hne
    have hnone : (Pattern.seq (lit ">") a).find (c :: t) = none :=
      find_lit_neg (show units ">" = unit '>' :: [] from rfl) fun hc => hne ⟨t, by rw [hc]⟩
    rw [Pattern.test_eq_false_iff.mpr hnone] at h
    simp at h

theorem itemMark_neg (hsign : decide (c ∈ units "-*+") = false) (hdigit : isDigit c = false) :
    itemMark.find (c :: t) = none :=
  Pattern.find_eq_none_iff.mpr (List.append_eq_nil_iff.mpr
    ⟨Pattern.ends_seq_eq_nil (Pattern.ends_run_cons_neg hsign),
      Pattern.ends_seq_eq_nil (Pattern.ends_run_cons_neg hdigit)⟩)

/-- A list prefix is found where an item's mark is: a task's begins with one. -/
theorem find_listPrefix_eq (t : Text) : listPrefix.find t = itemMark.find t := by
  rw [listPrefix, itemMark, Pattern.find_alt, Pattern.find_alt, Pattern.find_alt, ← Option.or_assoc]
  cases hitem : ((Pattern.seq (oneOf "-*+") (.plus isSpace)).find t).or (numbered.find t) with
  | some n => rfl
  | none =>
    rw [Option.none_or]
    by_contra hsome
    obtain ⟨u, v, hs, hu⟩ := Pattern.test_iff.mp
      (Option.isSome_iff_ne_none.mpr hsome : (checkbox (· ≠ unit ']')).test t = true)
    obtain ⟨u₁, u₂, rfl, hu₁, -⟩ := Pattern.matches_seq.mp hu
    rw [lit, Pattern.matches_literal] at hu₁
    rw [hu₁, List.append_assoc] at hs
    rw [hs, find_dash] at hitem
    simp at hitem

/-! ### A heading after a heading -/

theorem test_space (h : ∀ a t, isSpace a = true → b.find (a :: t) = none) (a : UInt16) (t : Text)
    (ha : isSpace a = true) : b.test (a :: t) = false := Pattern.test_eq_false_iff.mpr (h a t ha)

theorem heading_space (a : UInt16) (t : Text) (h : isSpace a = true) :
    headingMark.find (a :: t) = none := headingMark_neg (ne_of_isSpace h).2

theorem quoteMarks_neg (hc : c ≠ unit '>') : quoteMarks.find (c :: t) = none :=
  find_lit_neg (show units ">" = unit '>' :: [] from rfl) hc

theorem quotes_space (a : UInt16) (t : Text) (h : isSpace a = true) :
    quoteMarks.find (a :: t) = none := quoteMarks_neg (ne_of_isSpace h).1

theorem head_cut {a : Pattern UInt16} (ha : Pattern.TakesRun isSpace a l)
    (hl : ∀ c ∈ l.head?, isSpace c = false) : ∀ c ∈ (a.cut l).head?, isSpace c = false := by
  cases hfind : a.find l with
  | none => rwa [Pattern.cut_eq_self hfind]
  | some m =>
    rw [Pattern.cut_eq_drop hfind]
    exact (ha m hfind).1

theorem headingLine_headingLine (n m : Nat) (hn : 1 ≤ n ∧ n ≤ 6) (l : Text) :
    headingLine m (headingLine n l) = repeated (units "#") m ++ units " " ++
      quoteMarks.cut (trimStart (quoteMarks.cut (headingMark.cut l))) := by
  generalize hc : quoteMarks.cut (headingMark.cut l) = t
  have hsharps : repeated (units "#") n = List.replicate n (unit '#') :=
    List.flatten_replicate_singleton
  have hspaces : units " " ++ t = units " " ++ t.takeWhile isSpace ++ trimStart t := by
    rw [List.append_assoc, trimStart, List.takeWhile_append_dropWhile]
  have hgap : ∀ c ∈ units " " ++ t.takeWhile isSpace, isSpace c = true := by
    intro c hc
    rcases List.mem_append.mp hc with hc | hc
    · rw [List.mem_singleton.mp hc]
      decide
    · exact List.mem_takeWhile_imp hc
  have hfind := find_headingGap (t := trimStart t) hn hgap (fun c => Pattern.head_dropWhile)
    (fun hnil => absurd hnil (by simp [units]))
  rw [if_neg (by simp [units])] at hfind
  have hcut : headingMark.cut (headingLine n l) = trimStart t := by
    rw [headingLine, hc, hsharps, List.append_assoc, hspaces, Pattern.cut_eq_drop hfind,
      ← List.drop_drop, List.drop_left' List.length_replicate, List.drop_left]
  rw [headingLine, hcut]

/-- Nothing is cut behind the spaces of a text only where there are none, and nothing to cut. -/
theorem cut_trimStart_iff {a : Pattern UInt16} (ha : 0 < a.shortest) {t : Text} :
    a.cut (trimStart t) = t ↔ (∀ c ∈ t.head?, isSpace c = false) ∧ a.find t = none := by
  have htrim : trimStart t = t ↔ ∀ c ∈ t.head?, isSpace c = false := by
    constructor
    · intro h c hc
      rw [← h] at hc
      exact Pattern.head_dropWhile hc
    · intro h
      have hself : trimStart ([] ++ t) = t := (takeWhile_gap (by simp) h).2
      exact hself
  rw [← htrim]
  constructor
  · intro h
    have hself : trimStart t = t := by
      refine (List.dropWhile_sublist isSpace).eq_of_length_le ?_
      rw [← h]
      exact Nat.le_trans (a.length_cut_le _) (by rw [h]; exact Nat.le_refl _)
    rw [hself] at h
    exact ⟨hself, (Pattern.cut_eq_self_iff ha).mp h⟩
  · rintro ⟨hself, hnone⟩
    rw [hself]
    exact Pattern.cut_eq_self hnone

/-- A heading after a heading is as if it were the only one. -/
theorem heading_again_iff (n m : Nat) (hn : 1 ≤ n ∧ n ≤ 6) (l : Text) :
    headingLine m (headingLine n l) = headingLine m l ↔ headingTwice.test l = false := by
  have hboth : ∀ s, (Pattern.seq quoteMarks quoteMarks).test s = true ↔
      quoteMarks.test s = true ∧ quoteMarks.test (quoteMarks.cut s) = true := fun s =>
    Pattern.test_seq_of_takesRun (takesRun_quotes s) (test_space quotes_space)
  have hquotes : ∀ a t, isSpace a = true →
      (Pattern.seq quoteMarks quoteMarks).test (a :: t) = false := fun a t ha =>
    Pattern.test_eq_false_iff.mpr (Pattern.find_seq_none (quotes_space a t ha))
  have hsecond : (Pattern.seq (.optional headingMark) (.seq quoteMarks quoteMarks)).test l = true ↔
      (Pattern.seq quoteMarks quoteMarks).test (headingMark.cut l) = true := by
    refine Pattern.test_optional_of_takesRun (takesRun_heading l) hquotes fun hheading => ?_
    obtain ⟨t, rfl⟩ := head_of_test_heading hheading
    exact Pattern.test_eq_false_iff.mpr (Pattern.find_seq_none (quoteMarks_neg (by decide)))
  rw [headingLine_headingLine n m hn, headingLine, List.append_cancel_left_eq,
    cut_trimStart_iff (a := quoteMarks) (by decide), ← Bool.not_eq_true, headingTwice,
    Pattern.test_alt, Pattern.test_one, hsecond, hboth]
  by_cases hl : ∀ c ∈ l.head?, isSpace c = false
  · have hhead := head_cut (takesRun_quotes _) (head_cut (takesRun_heading l) hl)
    have hnone : ¬ ∃ c ∈ l.head?, isSpace c = true := by
      rintro ⟨c, hc, hspace⟩
      rw [hl c hc] at hspace
      simp at hspace
    rw [and_iff_right hhead, or_iff_right hnone, ← Pattern.test_eq_false_iff, ← Bool.not_eq_true,
      not_iff_not, iff_and_self]
    intro htest
    by_contra hfirst
    rw [Pattern.cut_eq_self (Pattern.test_eq_false_iff.mp (Bool.eq_false_of_not_eq_true hfirst))]
      at htest
    exact hfirst htest
  · obtain ⟨c, hc, hspace⟩ : ∃ c ∈ l.head?, isSpace c = true := by simpa using hl
    obtain ⟨t, rfl⟩ := List.head?_eq_some_iff.mp hc
    refine iff_of_false (fun h => ?_) fun h => h (.inl ⟨c, rfl, hspace⟩)
    rw [Pattern.cut_eq_self (heading_space c t hspace),
      Pattern.cut_eq_self (quotes_space c t hspace)] at h
    rw [h.1 c rfl] at hspace
    simp at hspace

/-! ### A paragraph after a paragraph -/

theorem item_space (a : UInt16) (t : Text) (h : isSpace a = true) :
    itemMark.find (a :: t) = none :=
  itemMark_neg (head_of_isSpace h).1 (head_of_isSpace h).2.1

theorem stripListPrefix_eq (l : Text) :
    stripListPrefix l = l.takeWhile isSpace ++ itemMark.cut (trimStart l) := by
  have hu : ∀ c ∈ l.takeWhile isSpace, isSpace c = true := fun c => List.mem_takeWhile_imp
  have hl : l.takeWhile isSpace ++ trimStart l = l := List.takeWhile_append_dropWhile
  cases ht : trimStart l with
  | nil =>
    rw [ht, List.append_nil] at hl
    have hnone : Pattern.find₂ (.star isSpace) listPrefix l = none := by
      refine List.findSome?_eq_none_iff.mpr fun n _ => ?_
      rw [Option.map_eq_none_iff]
      cases hd : l.drop n with
      | nil => rfl
      | cons c t =>
        have hc : c ∈ l := List.mem_of_mem_drop (hd ▸ List.mem_cons_self)
        exact listPrefix_of_isSpace (hu c (by rwa [hl]))
    have hnil : itemMark.cut [] = [] := rfl
    rw [stripListPrefix, Pattern.keepFirst, hnone, hnil, List.append_nil, hl]
  | cons c t =>
    have hfind := find₂_indent (t := t) (fun _ _ => listPrefix_of_isSpace) hu
      (isSpace_of_trimStart ht)
    rw [← ht, hl, find_listPrefix_eq] at hfind
    rw [← ht, stripListPrefix, Pattern.keepFirst, hfind]
    cases hitem : itemMark.find (trimStart l) with
    | none => rw [Pattern.cut_eq_self hitem, hl]; rfl
    | some n =>
      rw [Pattern.cut_eq_drop hitem]
      have htake : l.take (l.takeWhile isSpace).length = l.takeWhile isSpace := by
        have htake' : (l.takeWhile isSpace ++ trimStart l).take (l.takeWhile isSpace).length =
          l.takeWhile isSpace := List.take_left
        rwa [hl] at htake'
      have hdrop : l.drop (l.takeWhile isSpace).length = trimStart l := by
        have hdrop' : (l.takeWhile isSpace ++ trimStart l).drop (l.takeWhile isSpace).length =
          trimStart l := List.drop_left
        rwa [hl] at hdrop'
      simp only [Option.map_some]
      rw [htake, ← List.drop_drop, hdrop, List.append_nil]

/-- What a paragraph leaves as it is. -/
theorem paragraph_fixed_iff (t : Text) : stripBlockPrefix t = t ↔
    itemMark.find (trimStart t) = none ∧ quoteMark.find t = none ∧ headingMark.find t = none := by
  have hl : t.takeWhile isSpace ++ trimStart t = t := List.takeWhile_append_dropWhile
  have hlen := congrArg List.length hl
  rw [List.length_append] at hlen
  constructor
  · intro h
    have hheading := headingMark.length_cut_le (quoteMark.cut (stripListPrefix t))
    have hquote := quoteMark.length_cut_le (stripListPrefix t)
    have hitem := itemMark.length_cut_le (trimStart t)
    rw [← stripBlockPrefix, h] at hheading
    have hstrip := congrArg List.length (stripListPrefix_eq t)
    rw [List.length_append] at hstrip
    have hnone : itemMark.find (trimStart t) = none :=
      Pattern.find_of_length_cut (by decide) (by omega)
    have hself : stripListPrefix t = t := by
      rw [stripListPrefix_eq, Pattern.cut_eq_self hnone, hl]
    rw [hself] at hquote hheading
    have hnone' : quoteMark.find t = none := Pattern.find_of_length_cut (by decide) (by omega)
    rw [stripBlockPrefix, hself, Pattern.cut_eq_self hnone'] at h
    exact ⟨hnone, hnone', (Pattern.cut_eq_self_iff (by decide)).mp h⟩
  · rintro ⟨hitem, hquote, hheading⟩
    have hself : stripListPrefix t = t := by
      rw [stripListPrefix_eq, Pattern.cut_eq_self hitem, hl]
    rw [stripBlockPrefix, hself, Pattern.cut_eq_self hquote, Pattern.cut_eq_self hheading]

theorem ends_quoteMark (t : Text) : quoteMark.ends (unit '>' :: t) =
    ((Pattern.opt isSpace).ends t).map (1 + ·) := by
  have hends : (lit ">").ends (unit '>' :: t) = [1] := Pattern.ends_literal (units ">") t
  rw [quoteMark, Pattern.ends_seq_of_ends hends, List.drop_succ_cons, List.drop_zero]

/-- The space behind a quote's mark can be left to what follows it. -/
theorem test_quote_seq (hb : ∀ c t, isSpace c = true → b.test (c :: t) = true → b.test t = true) :
    (Pattern.seq quoteMark b).test l = true ↔
      quoteMark.test l = true ∧ b.test (quoteMark.cut l) = true := by
  by_cases hl : ∃ t, l = unit '>' :: t
  · obtain ⟨t, rfl⟩ := hl
    have hfind : quoteMark.find (unit '>' :: t) =
        some (1 + min (t.takeWhile isSpace).length 1) := by
      rw [Pattern.find, ends_quoteMark, List.head?_map, ← Pattern.find, Pattern.find_opt]
      rfl
    rw [Pattern.test_seq, Pattern.cut_eq_drop hfind, Pattern.test, hfind, ends_quoteMark]
    simp only [List.mem_map, exists_exists_and_eq_and, Option.isSome_some, true_and]
    constructor
    · rintro ⟨n, hn, htest⟩
      obtain ⟨hle, hone, -⟩ := Pattern.mem_ends_run.mp hn
      have hn1 := hone 1 rfl
      rw [Nat.add_comm, List.drop_succ_cons] at htest ⊢
      cases t with
      | nil => simpa using htest
      | cons c t =>
        cases hc : isSpace c with
        | false =>
          rw [List.takeWhile_cons_of_neg (by simp [hc])] at hle ⊢
          rwa [Nat.le_zero.mp hle] at htest
        | true =>
          rw [List.takeWhile_cons_of_pos hc, List.length_cons, Nat.min_eq_right (by omega)]
          rcases Nat.le_one_iff_eq_zero_or_eq_one.mp hn1 with rfl | rfl
          · exact hb c t hc htest
          · exact htest
    · intro htest
      refine ⟨_, ?_, htest⟩
      exact List.mem_of_mem_head? (Pattern.find_opt isSpace t)
  · have hnone : quoteMark.test l = false := by
      by_contra htest
      exact hl (head_of_test_quote (Bool.eq_true_of_not_eq_false htest))
    rw [hnone, Pattern.test_eq_false_iff.mpr
      (Pattern.find_seq_none (Pattern.test_eq_false_iff.mp hnone))]
    simp

theorem quote_space (a : UInt16) (t : Text) (h : isSpace a = true) :
    quoteMark.find (a :: t) = none := quoteMark_neg (ne_of_isSpace h).1

/-- Marks of different kinds do not begin with the same. -/
theorem marks_disjoint : (itemMark.test l = true → quoteMark.test l = false) ∧
    (itemMark.test l = true → headingMark.test l = false) ∧
    (quoteMark.test l = true → headingMark.test l = false) := by
  have hquote : quoteMark.test l = true → itemMark.test l = false ∧ headingMark.test l = false := by
    intro h
    obtain ⟨t, rfl⟩ := head_of_test_quote h
    exact ⟨Pattern.test_eq_false_iff.mpr (itemMark_neg (by decide) (by decide)),
      Pattern.test_eq_false_iff.mpr (headingMark_neg (by decide))⟩
  have hheading : headingMark.test l = true → itemMark.test l = false := by
    intro h
    obtain ⟨t, rfl⟩ := head_of_test_heading h
    exact Pattern.test_eq_false_iff.mpr (itemMark_neg (by decide) (by decide))
  refine ⟨fun h => ?_, fun h => ?_, fun h => (hquote h).2⟩
  · by_contra hq
    rw [(hquote (Bool.eq_true_of_not_eq_false hq)).1] at h
    simp at h
  · by_contra hq
    rw [hheading (Bool.eq_true_of_not_eq_false hq)] at h
    simp at h

theorem cut_of_test {a : Pattern UInt16} (h : a.test l = false) : a.cut l = l :=
  Pattern.cut_eq_self (Pattern.test_eq_false_iff.mp h)

theorem trimStart_of_head (h : ∀ c ∈ t.head?, isSpace c = false) : trimStart t = t := by
  have hself : trimStart ([] ++ t) = t := (takeWhile_gap (by simp) h).2
  exact hself

/-- The parts of `paragraphTwice`. -/
theorem paragraphTwice_iff (l : Text) : paragraphTwice.test l = true ↔
    (itemMark.test (trimStart l) = true ∧ itemMark.test (itemMark.cut (trimStart l)) = true) ∨
    (quoteMark.test (itemMark.cut l) = true ∧
      (itemMark.test (trimStart (quoteMark.cut (itemMark.cut l))) = true ∨
        quoteMark.test (quoteMark.cut (itemMark.cut l)) = true)) ∨
    (quoteMark.test (itemMark.cut l) = true ∧
      headingMark.test (quoteMark.cut (itemMark.cut l)) = true ∧
      (itemMark.test (headingMark.cut (quoteMark.cut (itemMark.cut l))) = true ∨
        quoteMark.test (headingMark.cut (quoteMark.cut (itemMark.cut l))) = true ∨
        headingMark.test (headingMark.cut (quoteMark.cut (itemMark.cut l))) = true)) ∨
    (headingMark.test (itemMark.cut l) = true ∧
      (itemMark.test (headingMark.cut (itemMark.cut l)) = true ∨
        quoteMark.test (headingMark.cut (itemMark.cut l)) = true ∨
        headingMark.test (headingMark.cut (itemMark.cut l)) = true)) := by
  have hitems : ∀ a t, isSpace a = true → (Pattern.seq itemMark itemMark).test (a :: t) = false :=
    fun a t ha => Pattern.test_eq_false_iff.mpr (Pattern.find_seq_none (item_space a t ha))
  have hmarks : ∀ a t, isSpace a = true →
      (Pattern.alt itemMark (.alt quoteMark headingMark)).test (a :: t) = false := fun a t ha =>
    Bool.eq_false_of_not_eq_true fun h => by
      rw [Pattern.test_alt, Pattern.test_alt, test_space item_space a t ha,
        test_space quote_space a t ha, test_space heading_space a t ha] at h
      simp at h
  have hheading : ∀ t, (Pattern.seq headingMark
      (.alt itemMark (.alt quoteMark headingMark))).test t = true ↔
      headingMark.test t = true ∧ (itemMark.test (headingMark.cut t) = true ∨
        quoteMark.test (headingMark.cut t) = true ∨ headingMark.test (headingMark.cut t) = true) :=
    fun t => by
      rw [Pattern.test_seq_of_takesRun (takesRun_heading t) hmarks, Pattern.test_alt,
        Pattern.test_alt]
  have hlist : ∀ t, (Pattern.alt (.seq (.star isSpace) itemMark) quoteMark).test t = true ↔
      itemMark.test (trimStart t) = true ∨ quoteMark.test t = true := fun t => by
    rw [Pattern.test_alt, Pattern.test_star_seq (test_space item_space), ← trimStart]
  have hquote : ∀ t, (Pattern.seq quoteMark
      (.alt (.seq (.star isSpace) itemMark) quoteMark)).test t = true ↔
      quoteMark.test t = true ∧ (itemMark.test (trimStart (quoteMark.cut t)) = true ∨
        quoteMark.test (quoteMark.cut t) = true) := fun t => by
    rw [test_quote_seq, hlist]
    intro c t hc htest
    rw [hlist, test_space quote_space c t hc, trimStart, List.dropWhile_cons_of_pos hc] at htest
    exact (hlist t).mpr (.inl (htest.resolve_right (by simp)))
  have hdeep : ∀ t, (Pattern.seq (.optional quoteMark) (.seq headingMark
      (.alt itemMark (.alt quoteMark headingMark)))).test t = true ↔
      (quoteMark.test t = true ∧ (Pattern.seq headingMark
        (.alt itemMark (.alt quoteMark headingMark))).test (quoteMark.cut t) = true) ∨
      (Pattern.seq headingMark (.alt itemMark (.alt quoteMark headingMark))).test t = true :=
    fun t => by
      rw [Pattern.test_seq_optional, test_quote_seq]
      intro c t hc htest
      rw [hheading, test_space heading_space c t hc] at htest
      simp at htest
  have hquoteNone : ∀ t, quoteMark.test t = false → (Pattern.seq quoteMark
      (.alt (.seq (.star isSpace) itemMark) quoteMark)).test t = false := fun t ht =>
    Bool.eq_false_of_not_eq_true fun h => by
      rw [hquote, ht] at h
      simp at h
  have hdeepNone : ∀ t, quoteMark.test t = false → headingMark.test t = false →
      (Pattern.seq (.optional quoteMark) (.seq headingMark
        (.alt itemMark (.alt quoteMark headingMark)))).test t = false := fun t hq hh =>
    Bool.eq_false_of_not_eq_true fun h => by
      rw [hdeep, hq, hheading t, hh] at h
      simp at h
  rw [paragraphTwice, Pattern.test_alt, Pattern.test_alt, Pattern.test_star_seq hitems,
    Pattern.test_seq_of_takesRun (takesRun_item _) (test_space item_space), ← trimStart,
    Pattern.test_optional_of_takesRun (takesRun_item l), hquote,
    Pattern.test_optional_of_takesRun (takesRun_item l), hdeep, hheading, hheading]
  · exact fun c t hc =>
      hdeepNone _ (test_space quote_space c t hc) (test_space heading_space c t hc)
  · exact fun h => hdeepNone l (marks_disjoint.1 h) (marks_disjoint.2.1 h)
  · exact fun c t hc => hquoteNone _ (test_space quote_space c t hc)
  · exact fun h => hquoteNone l (marks_disjoint.1 h)

/-- A paragraph after a paragraph is as if it were the only one. -/
theorem paragraph_again_iff (l : Text) :
    stripBlockPrefix (stripBlockPrefix l) = stripBlockPrefix l ↔ paragraphTwice.test l = false := by
  rw [paragraph_fixed_iff, ← Pattern.test_eq_false_iff, ← Pattern.test_eq_false_iff,
    ← Pattern.test_eq_false_iff, ← Bool.not_eq_true (paragraphTwice.test l), paragraphTwice_iff]
  have htrim : ∀ c ∈ (trimStart l).head?, isSpace c = false := fun c => Pattern.head_dropWhile
  have hitem := head_cut (takesRun_item (trimStart l)) htrim
  by_cases hl : ∀ c ∈ l.head?, isSpace c = false
  · have hstrip : stripListPrefix l = itemMark.cut l := by
      have hnone : l.takeWhile isSpace = [] := Pattern.takeWhile_append_head (u := []) (by simp) hl
      rw [stripListPrefix_eq, hnone, List.nil_append, trimStart_of_head hl]
    rw [trimStart_of_head hl] at hitem
    rw [stripBlockPrefix, hstrip, trimStart_of_head hl]
    generalize ht : itemMark.cut l = t at hitem ⊢
    have hself : itemMark.test l = false → l = t := fun h => by rw [← ht, cut_of_test h]
    cases hI : itemMark.test t with
    | true =>
      have hquote := marks_disjoint.1 hI
      have hheading := marks_disjoint.2.1 hI
      have hfirst : itemMark.test l = true := by
        by_contra hne
        rw [hself (Bool.eq_false_of_not_eq_true hne), hI] at hne
        exact hne rfl
      rw [cut_of_test hquote, cut_of_test hheading, trimStart_of_head hitem, hI]
      simp [hfirst]
    | false =>
      cases hq : quoteMark.test t with
      | true =>
        have hheading := marks_disjoint.2.2 hq
        rw [hheading]
        cases hH : headingMark.test (quoteMark.cut t) with
        | true =>
          obtain ⟨s, hs⟩ := head_of_test_heading hH
          have hhead : ∀ c ∈ (quoteMark.cut t).head?, isSpace c = false := by
            rw [hs]
            intro c hc
            rw [← Option.some.inj hc]
            decide
          have hnone : itemMark.test (quoteMark.cut t) = false := by
            rw [hs]
            exact Pattern.test_eq_false_iff.mpr (itemMark_neg (by decide) (by decide))
          have hnone' : quoteMark.test (quoteMark.cut t) = false := by
            rw [hs]
            exact Pattern.test_eq_false_iff.mpr (quoteMark_neg (by decide))
          rw [trimStart_of_head hhead, hnone, hnone',
            trimStart_of_head (head_cut (takesRun_heading _) hhead)]
          simp
        | false =>
          rw [cut_of_test hH, hH]
          simp
      | false =>
        rw [cut_of_test hq]
        cases hH : headingMark.test t with
        | true =>
          rw [trimStart_of_head (head_cut (takesRun_heading t) hitem)]
          simp
        | false =>
          rw [cut_of_test hH, trimStart_of_head hitem, hI, hq, hH]
          simp
  · obtain ⟨c, hc, hspace⟩ : ∃ c ∈ l.head?, isSpace c = true := by simpa using hl
    obtain ⟨t, rfl⟩ := List.head?_eq_some_iff.mp hc
    have hstrip := stripListPrefix_eq (c :: t)
    have hsplit := (takeWhile_gap (fun d => List.mem_takeWhile_imp (l := c :: t)) hitem).2
    rw [← hstrip] at hsplit
    rw [List.takeWhile_cons_of_pos hspace, List.cons_append] at hstrip
    have hquote : quoteMark.test (stripListPrefix (c :: t)) = false := by
      rw [hstrip]
      exact test_space quote_space c _ hspace
    have hheading : headingMark.test (stripListPrefix (c :: t)) = false := by
      rw [hstrip]
      exact test_space heading_space c _ hspace
    rw [stripBlockPrefix, cut_of_test hquote, cut_of_test hheading, hsplit, hquote, hheading,
      cut_of_test (test_space item_space c t hspace), test_space quote_space c t hspace,
      test_space heading_space c t hspace]
    have hfirst : itemMark.test (itemMark.cut (trimStart (c :: t))) = true →
        itemMark.test (trimStart (c :: t)) = true := fun h => by
      by_contra hne
      rw [cut_of_test (Bool.eq_false_of_not_eq_true hne)] at h
      exact hne h
    cases hI : itemMark.test (itemMark.cut (trimStart (c :: t))) with
    | true => simp [hfirst hI]
    | false => simp

/-! ### Lines that are nothing but marks -/

theorem cut_quoteMark {w : Text} (hw : quoteMark.Matches w)
    (ht : ∀ c ∈ t.head?, isSpace c = false) : quoteMark.cut (w ++ t) = t := by
  obtain ⟨u, v, rfl, hu, hv⟩ := Pattern.matches_seq.mp hw
  rw [lit, Pattern.matches_literal] at hu
  obtain ⟨hspaces, hone, -⟩ := Pattern.matches_run.mp hv
  have hline : u ++ v ++ t = unit '>' :: (v ++ t) := by
    rw [hu, List.append_assoc]
    rfl
  have hlen : min ((v ++ t).takeWhile isSpace).length 1 = v.length := by
    rw [Pattern.takeWhile_append_head hspaces ht]
    exact Nat.min_eq_left (hone 1 rfl)
  have hfind : quoteMark.find (unit '>' :: (v ++ t)) = some (1 + v.length) := by
    rw [Pattern.find, ends_quoteMark, List.head?_map, ← Pattern.find, Pattern.find_opt, hlen]
    rfl
  rw [hline, Pattern.cut_eq_drop hfind, Nat.add_comm, List.drop_succ_cons, List.drop_left]

theorem onlyMarks_iff (l : Text) : onlyMarks.Matches l ↔ stripBlockPrefix l = [] := by
  constructor
  · intro h
    obtain ⟨a, w, rfl, ha, hw⟩ := Pattern.matches_seq.mp h
    obtain ⟨b, d, rfl, hb, hd⟩ := Pattern.matches_seq.mp hw
    rw [Pattern.matches_optional] at ha hb hd
    have htest : ∀ {p : Pattern UInt16} {s : Text} (t : Text), p.Matches s →
        p.test (s ++ t) = true := fun t hs => Pattern.test_iff.mpr ⟨_, t, rfl, hs⟩
    have hdhead : (∀ c ∈ d.head?, isSpace c = false) ∧ quoteMark.test d = false ∧
        itemMark.test d = false := by
      rcases hd with hd | rfl
      · obtain ⟨s, hs⟩ := head_of_test_heading (htest [] hd)
        rw [List.append_nil] at hs
        rw [hs]
        exact ⟨by simp; decide, Pattern.test_eq_false_iff.mpr (quoteMark_neg (by decide)),
          Pattern.test_eq_false_iff.mpr (itemMark_neg (by decide) (by decide))⟩
      · exact ⟨by simp, rfl, rfl⟩
    have hheading : headingMark.cut d = [] := by
      rcases hd with hd | rfl
      · have hcut := Pattern.cut_of_takesRun (v := []) (takesRun_heading (d ++ [])) hd (by simp)
        rwa [List.append_nil] at hcut
      · rfl
    have hquote : quoteMark.cut (b ++ d) = d ∧ (∀ c ∈ (b ++ d).head?, isSpace c = false) ∧
        itemMark.test (b ++ d) = false := by
      rcases hb with hb | rfl
      · obtain ⟨s, hs⟩ := head_of_test_quote (htest d hb)
        refine ⟨cut_quoteMark hb hdhead.1, ?_⟩
        rw [hs]
        exact ⟨by simp; decide,
          Pattern.test_eq_false_iff.mpr (itemMark_neg (by decide) (by decide))⟩
      · exact ⟨cut_of_test hdhead.2.1, hdhead.1, hdhead.2.2⟩
    have hitem : itemMark.cut (a ++ (b ++ d)) = b ++ d ∧
        ∀ c ∈ (a ++ (b ++ d)).head?, isSpace c = false := by
      rcases ha with ha | rfl
      · refine ⟨Pattern.cut_of_takesRun (takesRun_item _) ha hquote.2.1, fun c hc => ?_⟩
        by_contra hspace
        obtain ⟨s, hs⟩ := List.head?_eq_some_iff.mp hc
        have hitem := htest (b ++ d) ha
        rw [hs, test_space item_space c s (by simpa using hspace)] at hitem
        simp at hitem
      · exact ⟨cut_of_test hquote.2.2, hquote.2.1⟩
    have hnone : (a ++ (b ++ d)).takeWhile isSpace = [] :=
      Pattern.takeWhile_append_head (u := []) (by simp) hitem.2
    rw [stripBlockPrefix, stripListPrefix_eq, hnone, trimStart_of_head hitem.2, List.nil_append,
      hitem.1, hquote.1, hheading]
  · intro h
    have hstrip := stripListPrefix_eq l
    cases hspaces : l.takeWhile isSpace with
    | cons c s =>
      have hc : isSpace c = true := List.mem_takeWhile_imp (hspaces ▸ List.mem_cons_self)
      rw [hspaces, List.cons_append] at hstrip
      rw [stripBlockPrefix, hstrip, cut_of_test (test_space quote_space c _ hc),
        cut_of_test (test_space heading_space c _ hc)] at h
      simp at h
    | nil =>
      have hl := List.takeWhile_append_dropWhile (p := isSpace) (l := l)
      rw [hspaces, List.nil_append, ← trimStart] at hl
      rw [hspaces, List.nil_append, hl] at hstrip
      rw [stripBlockPrefix, hstrip] at h
      obtain ⟨a, ha, hma⟩ := itemMark.optional_cut l
      obtain ⟨b, hb, hmb⟩ := quoteMark.optional_cut (itemMark.cut l)
      obtain ⟨d, hd, hmd⟩ := headingMark.optional_cut (quoteMark.cut (itemMark.cut l))
      rw [h, List.append_nil] at hd
      rw [ha, hb, hd]
      exact Pattern.matches_seq.mpr
        ⟨a, b ++ d, rfl, hma, Pattern.matches_seq.mpr ⟨b, d, rfl, hmb, hmd⟩⟩

end

/-! ### The selection -/

section
variable {state : EditorState} {next next' : Text → Text} {A B v w : Text}

theorem block_parts (h : state.Valid) : ∃ A B, (A = [] ∨ ∃ A', A = A' ++ [newline]) ∧
    (B = [] ∨ ∃ B', B = newline :: B') ∧ (selectedLineBlock state).start = A.length ∧
    (A = [] → state.text = (selectedLineBlock state).value ++ B ∧
      state.text.head? ≠ some newline) ∧
    ∀ next, (replaceBlock state next).text =
      some (A ++ next (selectedLineBlock state).value ++ B) := by
  by_cases hq : AtLeadingNewline state
  · obtain ⟨hend, hlen⟩ := lineEnd_zero hq.2.2
    have hstart := (selectedLineBlock_eq h).1
    rw [firstLine, if_pos ⟨hq.1, hq.2.2⟩, pieceStart_next (Nat.zero_lt_of_lt hlen), hend] at hstart
    refine ⟨[newline], state.text, .inr ⟨[], rfl⟩, .inr (exists_cons_of_newline hq.2.2), hstart,
      fun hnil => absurd hnil (by simp), fun next => ?_⟩
    rw [replaceBlock_atLeadingNewline h hq, block_atLeadingNewline h hq]
    rfl
  · obtain ⟨A, B, hA, hB, htext, hstart, hnl, hreplace⟩ := block_split h hq
    refine ⟨A, B, hA, hB, hstart, fun hnil => ⟨?_, hnl hnil⟩, hreplace⟩
    rw [hnil] at htext
    exact htext

theorem inTurn_replaceBlock (next' : Text → Text)
    (hstart : (selectedLineBlock state).start = A.length)
    (hreplace : (replaceBlock state next).text = some (A ++ w ++ B))
    (hw : next (selectedLineBlock state).value = w) :
    inTurn (replaceBlock · next) (replaceBlock · next') state =
      (replaceBlock ⟨A ++ w ++ B, A.length, A.length + w.length⟩ next').text := by
  rw [inTurn, resume_replaceBlock, hreplace, hw, hstart]
  rfl

theorem replaceBlock_between (hA : A = [] ∨ ∃ A', A = A' ++ [newline])
    (hB : B = [] ∨ ∃ B', B = newline :: B') (hhead : A = [] → (w ++ B).head? ≠ some newline) :
    (replaceBlock ⟨A ++ w ++ B, A.length, A.length + w.length⟩ next).text =
      some (A ++ next w ++ B) := by
  rw [replaceBlock, selectedLineBlock_between hA hB hhead]
  exact replaceRange_between A w B _ _ _ _ _

/-- The caret at the beginning of a text and behind its leading newline are in the same block. -/
theorem replaceBlock_newline (hB : B = [] ∨ ∃ B', B = newline :: B') :
    (replaceBlock ⟨newline :: w ++ B, 0, (newline :: w).length⟩ next).text =
      some (newline :: next w ++ B) := by
  have hblock : selectedLineBlock ⟨newline :: w ++ B, 0, (newline :: w).length⟩ =
      selectedLineBlock ⟨[newline] ++ w ++ B, ([newline] : Text).length,
        ([newline] : Text).length + w.length⟩ := by
    have hlen : (newline :: w).length = ([newline] : Text).length + w.length := by
      rw [List.length_cons, List.length_singleton, Nat.add_comm]
    simp only [selectedLineBlock, selectedText, hlen, List.length_singleton, Nat.zero_min,
      Nat.min_eq_left (Nat.le_add_right _ _), Nat.max_eq_right (Nat.le_add_right _ _),
      Nat.max_eq_right (Nat.zero_le _), Nat.zero_sub, Nat.sub_self]
    rfl
  have hbetween := selectedLineBlock_between (A := [newline]) (w := w) (.inr ⟨[], rfl⟩) hB (by simp)
  rw [replaceBlock, hblock, hbetween]
  exact replaceRange_between [newline] w B _ _ _ _ _

theorem mapLines_comp_iff {f g h : Text → Text} (hf : KeepsNewlines f) (hg : KeepsNewlines g)
    (hh : KeepsNewlines h) (v : Text) :
    mapLines g (mapLines f v) = mapLines h v ↔ ∀ l ∈ lines v, g (f l) = h l := by
  have hleft : lines (mapLines g (mapLines f v)) = (lines v).map fun l => g (f l) := by
    rw [lines_mapLines hg, lines_mapLines hf, List.map_map]
    rfl
  have hright := lines_mapLines hh v
  constructor
  · intro heq
    rw [heq, hright] at hleft
    exact List.map_inj_left.mp hleft.symm
  · intro hall
    rw [List.map_congr_left hall, ← hright] at hleft
    rw [← join_lines (mapLines g _), hleft, join_lines]

theorem mapLines_newline {f : Text → Text} (hf : f [] = []) (w : Text) :
    mapLines f (newline :: w) = newline :: mapLines f w := by
  have hlines : lines (newline :: w) = [] :: lines w := lines_append_newline [] w
  obtain ⟨l, ls, hl⟩ := List.exists_cons_of_ne_nil (lines_ne_nil w)
  rw [mapLines, mapLines, hlines, hl, List.map_cons, hf, List.map_cons, join,
    List.intercalate_cons_cons]
  rfl

theorem onlyMarks_line (v : Text) :
    (newline ∉ v ∧ onlyMarks.Matches v) ↔ mapLines stripBlockPrefix v = [] := by
  rw [onlyMarks_iff]
  constructor
  · rintro ⟨hno, hnil⟩
    rw [mapLines, lines_eq_singleton hno, List.map_singleton, join, List.intercalate_singleton,
      hnil]
  · intro hnil
    have hlines := lines_mapLines keepsNewlines_stripBlockPrefix v
    rw [hnil] at hlines
    obtain ⟨l, hl⟩ := List.length_eq_one_iff.mp
      (show (lines v).length = 1 by rw [← List.length_map stripBlockPrefix, ← hlines]; rfl)
    have hv : v = l := by rw [← join_lines v, hl, List.intercalate_singleton]
    rw [hl, List.map_singleton, ← hv] at hlines
    exact ⟨newline_notMem v v (by rw [hl, ← hv]; exact List.mem_cons_self),
      (List.cons.inj hlines).1.symm⟩

theorem inTurn_heading_iff (h : state.Valid) {n m : Nat} (hn : 1 ≤ n ∧ n ≤ 6)
    (hm : 1 ≤ m ∧ m ≤ 6) :
    inTurn (setHeading · n) (setHeading · m) state = (setHeading state m).text ↔
      ∀ l ∈ lines (selectedLineBlock state).value, headingTwice.test l = false := by
  have hrun : ∀ k, 1 ≤ k ∧ k ≤ 6 →
      ∀ s, setHeading s k = replaceBlock s (mapLines (headingLine k)) := fun k hk s => by
    rw [setHeading, if_neg (by omega)]
    rfl
  obtain ⟨A, B, hA, hB, hstart, -, hreplace⟩ := block_parts h
  have hhead : A = [] →
      (mapLines (headingLine n) (selectedLineBlock state).value ++ B).head? ≠ some newline := by
    obtain ⟨l, ls, hl⟩ := List.exists_cons_of_ne_nil (lines_ne_nil (selectedLineBlock state).value)
    obtain ⟨k, rfl⟩ := Nat.exists_eq_add_of_le' hn.1
    have hsharp : ∃ t, mapLines (headingLine (k + 1)) (selectedLineBlock state).value =
        unit '#' :: t := by
      rw [mapLines, hl, List.map_cons, join]
      cases ls with
      | nil => exact ⟨_, rfl⟩
      | cons l' ls =>
        rw [List.map_cons, List.intercalate_cons_cons]
        exact ⟨_, rfl⟩
    obtain ⟨t, ht⟩ := hsharp
    rw [ht]
    exact fun _ => by simp; decide
  rw [funext (hrun n hn), funext (hrun m hm), hrun m hm,
    inTurn_replaceBlock _ hstart (hreplace _) rfl, replaceBlock_between hA hB hhead, hreplace,
    Option.some.injEq, List.append_cancel_right_eq, List.append_cancel_left_eq,
    mapLines_comp_iff (keepsNewlines_headingLine n) (keepsNewlines_headingLine m)
      (keepsNewlines_headingLine m)]
  exact forall₂_congr fun l _ => heading_again_iff n m hn l

theorem inTurn_paragraph_iff (h : state.Valid) :
    inTurn setParagraph setParagraph state = (setParagraph state).text ↔
      (∀ l ∈ lines (selectedLineBlock state).value, paragraphTwice.test l = false) ∧
        ¬ MarksOnly state := by
  obtain ⟨A, B, hA, hB, hstart, htext, hreplace⟩ := block_parts h
  generalize hv : (selectedLineBlock state).value = v at hreplace htext ⊢
  have hagain : mapLines stripBlockPrefix (mapLines stripBlockPrefix v) =
      mapLines stripBlockPrefix v ↔ ∀ l ∈ lines v, paragraphTwice.test l = false :=
    (mapLines_comp_iff keepsNewlines_stripBlockPrefix keepsNewlines_stripBlockPrefix
      keepsNewlines_stripBlockPrefix v).trans (forall₂_congr fun l _ => paragraph_again_iff l)
  have hturn := inTurn_replaceBlock (mapLines stripBlockPrefix) hstart
    (hreplace (mapLines stripBlockPrefix)) (by rw [hv])
  have honce := hreplace (mapLines stripBlockPrefix)
  have hlines := lines_mapLines keepsNewlines_stripBlockPrefix v
  have hrest : (replaceBlock ⟨A ++ mapLines stripBlockPrefix v ++ B, A.length,
      A.length + (mapLines stripBlockPrefix v).length⟩ (mapLines stripBlockPrefix)).text =
        some (A ++ mapLines stripBlockPrefix (mapLines stripBlockPrefix v) ++ B) →
      ¬ MarksOnly state → (inTurn setParagraph setParagraph state = (setParagraph state).text ↔
        (∀ l ∈ lines v, paragraphTwice.test l = false) ∧ ¬ MarksOnly state) := by
    intro hsecond hmarks
    rw [and_iff_left hmarks, ← hagain]
    change inTurn (replaceBlock · _) (replaceBlock · _) state = (replaceBlock state _).text ↔ _
    rw [hturn, hsecond, honce, Option.some.injEq, List.append_cancel_right_eq,
      List.append_cancel_left_eq]
  have hmarks : MarksOnly state ↔ A = [] ∧ mapLines stripBlockPrefix v = [] ∧ B ≠ [] := by
    rw [MarksOnly, hstart, hv, List.length_eq_zero_iff]
    refine and_congr_right fun hnil => ?_
    have hlen : v.length < state.text.length ↔ B ≠ [] := by
      rw [(htext hnil).1, List.length_append, Nat.lt_add_right_iff_pos, List.length_pos_iff]
    rw [hlen, and_comm, ← onlyMarks_line]
  have hcases : (A = [] ∧ (mapLines stripBlockPrefix v ++ B).head? = some newline) ∨
      (A = [] → (mapLines stripBlockPrefix v ++ B).head? ≠ some newline) := by
    by_cases hnil : A = []
    · exact (Classical.em _).imp (fun hhead => ⟨hnil, hhead⟩) fun hhead _ => hhead
    · exact .inr fun hA => absurd hA hnil
  rcases hcases with ⟨rfl, hhead⟩ | hhead
  · cases hw : mapLines stripBlockPrefix v with
    | nil =>
      rw [hw, List.nil_append] at hhead
      obtain ⟨B', rfl⟩ := List.head?_eq_some_iff.mp hhead
      refine iff_of_false (fun heq => ?_) fun hboth => hboth.2 (hmarks.mpr ⟨rfl, hw, by simp⟩)
      have hquirk : (replaceBlock ⟨newline :: B', 0, 0⟩ (mapLines stripBlockPrefix)).text =
          some (newline :: mapLines stripBlockPrefix [] ++ newline :: B') :=
        replaceBlock_atLeadingNewline ⟨Nat.le_refl 0, Nat.zero_le _⟩ ⟨rfl, rfl, rfl⟩ _
      rw [hw] at hturn honce
      have hlen := congrArg (Option.map List.length) (hturn.symm.trans (heq.trans honce))
      rw [List.nil_append, List.nil_append, List.length_nil, hquirk] at hlen
      simp at hlen
      omega
    | cons c w =>
      rw [hw] at hhead
      obtain rfl : c = newline := by simpa using hhead
      refine hrest ?_ fun hm => by simpa [hw] using (hmarks.mp hm).2.1
      rw [hw, List.length_nil, Nat.zero_add, mapLines_newline (by decide)]
      exact replaceBlock_newline hB
  · refine hrest (replaceBlock_between hA hB hhead) fun hm => ?_
    obtain ⟨hnil, hw, hne⟩ := hmarks.mp hm
    obtain ⟨B', rfl⟩ := hB.resolve_left hne
    exact hhead hnil (by rw [hw]; rfl)

/-- The last block type wins, except over a line that begins with a space or with marks one behind
the other, or is nothing but marks in front of another one. -/
theorem lastWins_iff (state : EditorState) (h : state.Valid) : LastWins state ↔
    (∀ l ∈ lines (selectedLineBlock state).value,
      headingTwice.test l = false ∧ paragraphTwice.test l = false) ∧ ¬ MarksOnly state := by
  rw [LastWins, inTurn_paragraph_iff h, ← and_assoc]
  refine and_congr_left fun _ => ⟨fun hall l hl => ⟨?_, hall.2 l hl⟩,
    fun hall => ⟨fun n m hn hm => ?_, fun l hl => (hall l hl).2⟩⟩
  · exact (inTurn_heading_iff h (n := 1) (m := 1) (by decide) (by decide)).mp
      (hall.1 1 1 (by decide) (by decide)) l hl
  · exact (inTurn_heading_iff h hn hm).mpr fun l hl => (hall l hl).1

theorem lastWins_quoted : LastWins ⟨units "> # a
- b", 2, 7⟩ :=
  (lastWins_iff ⟨units "> # a
- b", 2, 7⟩ ⟨by decide, by decide⟩).mpr (by decide)

/-- A heading over an indented line takes the indentation away the second time. -/
theorem heading_strips_again : ∃ state : EditorState, state.Valid ∧ ¬ LastWins state :=
  ⟨⟨units "  foo", 0, 0⟩, ⟨by decide, by decide⟩, fun h =>
    absurd (h.1 1 1 (by decide) (by decide)) (by decide)⟩

end

end Mdock.Editor.Commands
