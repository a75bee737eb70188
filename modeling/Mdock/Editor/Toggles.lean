import Mdock.Editor.Twice

/-! The toggles of line prefixes, twice. -/
namespace Mdock.Editor.Commands
open Mdock.Js Mdock.Lib

/-! ### Marks in front of lines -/

section
variable {l t : Text} {c : UInt16} {b : Pattern UInt16}

theorem takeWhile_indent {u : Text} (hu : ∀ d ∈ u, isSpace d = true) (hc : isSpace c = false) :
    (u ++ c :: t).takeWhile isSpace = u ∧ trimStart (u ++ c :: t) = c :: t := by
  rw [trimStart, List.takeWhile_append_of_pos hu, List.dropWhile_append_of_pos hu,
    List.takeWhile_cons_of_neg (by simp [hc]), List.dropWhile_cons_of_neg (by simp [hc])]
  exact ⟨List.append_nil u, rfl⟩

/-- A pattern whose matches begin with no space is looked for behind the indentation. -/
theorem find₂_indent (hb : ∀ d s, isSpace d = true → b.find (d :: s) = none) {u : Text}
    (hu : ∀ d ∈ u, isSpace d = true) (hc : isSpace c = false) :
    Pattern.find₂ (.star isSpace) b (u ++ c :: t) =
      (b.find (c :: t)).map fun m => (u.length, m) := by
  have hends : (Pattern.star isSpace).ends (u ++ c :: t) =
      u.length :: (List.range u.length).reverse := by
    simp [Pattern.star, Pattern.ends, (takeWhile_indent hu hc).1, List.range_succ]
  rw [Pattern.find₂, hends, List.findSome?_cons, List.drop_left]
  cases hfind : b.find (c :: t) with
  | some m => rfl
  | none =>
    refine List.findSome?_eq_none_iff.mpr fun n hn => ?_
    have hlt : n < u.length := List.mem_range.mp (List.mem_reverse.mp hn)
    rw [List.drop_append_of_le_length (Nat.le_of_lt hlt), List.drop_eq_getElem_cons hlt,
      List.cons_append, hb _ _ (hu _ (List.getElem_mem hlt))]
    rfl

theorem find_listPrefix_none (hsign : decide (c ∈ units "-*+") = false) (hdigit : isDigit c = false)
    (hdash : decide (c = unit '-') = false) : listPrefix.find (c :: t) = none := by
  rw [Pattern.find_eq_none_iff, listPrefix, Pattern.ends_alt, Pattern.ends_alt,
    List.append_eq_nil_iff, List.append_eq_nil_iff]
  exact ⟨Pattern.ends_seq_eq_nil (Pattern.ends_run_cons_neg hsign),
    Pattern.ends_seq_eq_nil (Pattern.ends_run_cons_neg hdigit),
    Pattern.ends_seq_eq_nil (Pattern.ends_seq_eq_nil (Pattern.ends_run_cons_neg hdash))⟩

theorem listPrefix_of_isSpace (h : isSpace c = true) : listPrefix.find (c :: t) = none := by
  obtain ⟨hsign, hdigit, hdash⟩ := head_of_isSpace h
  exact find_listPrefix_none hsign hdigit hdash

/-- One space in front of a text. -/
theorem ends_gap (hc : isSpace c = false) :
    ∃ ns, (Pattern.plus isSpace).ends (unit ' ' :: c :: t) = 1 :: ns :=
  Pattern.ends_plus_append (u := [unit ' '])
    (fun d hd => by rw [List.mem_singleton.mp hd]; decide) (by simp) (by simpa using hc)

theorem ends_oneOf (marks : String) (hmem : c ∈ units marks) (t : Text) :
    (oneOf marks).ends (c :: t) = [1] := Pattern.ends_one_cons (decide_eq_true hmem)

theorem find_bullet (hc : isSpace c = false) : listPrefix.find (units "- " ++ c :: t) = some 2 := by
  obtain ⟨ns, hns⟩ := ends_gap (t := t) hc
  have hsign := ends_oneOf "-*+" (c := unit '-') (by decide) (unit ' ' :: c :: t)
  have hunits : units "- " ++ c :: t = unit '-' :: unit ' ' :: c :: t := rfl
  simp only [hunits, Pattern.find, listPrefix, Pattern.ends_alt, Pattern.ends_seq, hsign,
    List.flatMap_cons, List.drop_succ_cons, List.drop_zero, hns, List.map_cons, List.cons_append,
    List.head?_cons]

theorem find_numbered (n : Nat) (hc : isSpace c = false) :
    numbered.find (decimal n ++ units ". " ++ c :: t) = some ((decimal n).length + 2) := by
  obtain ⟨ns, hns⟩ := ends_gap (t := t) hc
  have hdot := ends_oneOf ".)" (c := unit '.') (by decide) (unit ' ' :: c :: t)
  have hunits : decimal n ++ units ". " ++ c :: t = decimal n ++ unit '.' :: unit ' ' :: c :: t := by
    rw [List.append_assoc]
    rfl
  obtain ⟨ms, hms⟩ := Pattern.ends_plus_append (p := isDigit) (u := decimal n)
    (s := unit '.' :: unit ' ' :: c :: t) (fun _ => isDigit_of_mem_decimal) (decimal_ne_nil n)
    (by simp; decide)
  simp only [hunits, Pattern.find, numbered, Pattern.ends_seq, hms, List.flatMap_cons,
    List.drop_left, hdot, List.drop_succ_cons, List.drop_zero, hns, List.map_cons, List.cons_append,
    List.head?_cons]

theorem find_task (hc : isSpace c = false) :
    (checkbox (· ≠ unit ']')).find (units "- [ ] " ++ c :: t) = some 6 := by
  obtain ⟨ns, hns⟩ := ends_gap (t := t) hc
  have hopen : (lit "- [").ends (units "- [ ] " ++ c :: t) = [3] :=
    Pattern.ends_literal (units "- [") (units " ] " ++ c :: t)
  have hclose : (lit "]").ends (unit ']' :: unit ' ' :: c :: t) = [1] :=
    Pattern.ends_literal (units "]") (unit ' ' :: c :: t)
  have hbox : (Pattern.one fun x => decide (x ≠ unit ']')).ends
      (unit ' ' :: unit ']' :: unit ' ' :: c :: t) = [1] := Pattern.ends_one_cons (by decide)
  have hdrop : (units "- [ ] " ++ c :: t).drop 3 = unit ' ' :: unit ']' :: unit ' ' :: c :: t := rfl
  simp only [Pattern.find, checkbox, Pattern.ends_seq, hopen, List.flatMap_cons, hdrop, hbox,
    List.drop_succ_cons, List.drop_zero, hclose, hns, List.map_cons, List.cons_append,
    List.head?_cons]

theorem find_quote (hc : isSpace c = false) : quoteMark.find (units "> " ++ c :: t) = some 2 := by
  have hmark : (lit ">").ends (units "> " ++ c :: t) = [1] :=
    Pattern.ends_literal (units ">") (unit ' ' :: c :: t)
  have hopt : (Pattern.opt isSpace).ends (unit ' ' :: c :: t) = [1, 0] := by
    have hspace : isSpace (unit ' ') = true := by decide
    simp [Pattern.opt, Pattern.ends, hspace, hc, List.range_succ]
  have hdrop : (units "> " ++ c :: t).drop 1 = unit ' ' :: c :: t := rfl
  simp only [Pattern.find, quoteMark, Pattern.ends_seq, hmark, List.flatMap_cons, hdrop, hopt,
    List.map_cons, List.cons_append, List.head?_cons]

end

/-! ### The toggles -/

/-- The toggles of what stands in front of lines. -/
inductive PrefixToggle
  | quote | bullet | ordered | task
  deriving DecidableEq

namespace PrefixToggle

def run (state : EditorState) : PrefixToggle → Spec
  | .quote => toggleBlockquote state
  | .bullet => toggleBulletList state
  | .ordered => toggleOrderedList state
  | .task => toggleTaskList state

/-- What may stand in front of the mark, how the mark is recognised, and how it is put. -/
def keep : PrefixToggle → Pattern UInt16
  | .quote => lit ""
  | _ => .star isSpace

def pattern : PrefixToggle → Pattern UInt16
  | .quote => quoteMark
  | .bullet => listPrefix
  | .ordered => numbered
  | .task => checkbox (· ≠ unit ']')

def mark : PrefixToggle → Nat → Text
  | .quote, _ => units "> "
  | .bullet, _ => units "- "
  | .ordered, i => decimal (i + 1) ++ units ". "
  | .task, _ => units "- [ ] "

def test (p : PrefixToggle) (line : Text) : Bool := (Pattern.find₂ p.keep p.pattern line).isSome

def flip (p : PrefixToggle) (ls : List Text) : List Text :=
  flipped p.test (Pattern.keepFirst p.keep p.pattern []) p.mark ls

def rewrite (p : PrefixToggle) (v : Text) : Text := join [newline] (p.flip (lines v))

end PrefixToggle

section
variable {p : PrefixToggle} {l t : Text} {ls : List Text} {c : UInt16} {i : Nat}

theorem run_eq (state : EditorState) (p : PrefixToggle) :
    p.run state = replaceBlock state p.rewrite := by
  have htoggle : ∀ t : Toggle, t.keep = p.keep → t.pattern = p.pattern → (∀ i, p.mark i = t.mark) →
      toggleLinePrefix state t = replaceBlock state p.rewrite := fun t hkeep hpattern hmark => by
    rw [toggleLinePrefix, toggledLines_eq, ← funext hmark]
    unfold Toggle.test Toggle.strip
    rw [hkeep, hpattern]
    rfl
  cases p with
  | quote => exact htoggle quote rfl rfl fun _ => rfl
  | bullet => exact htoggle bullet rfl rfl fun _ => rfl
  | ordered =>
    rw [PrefixToggle.run, toggleOrderedList, orderedLines_eq]
    rfl
  | task => exact htoggle task rfl rfl fun _ => rfl

/-- A line without a mark in front of its text. -/
def Plain (l : Text) : Prop :=
  listPrefix.find (trimStart l) = none ∧ (trimStart l).head? ≠ some (unit '>')

instance (l : Text) : Decidable (Plain l) := inferInstanceAs (Decidable (_ ∧ _))

theorem find_mark (p : PrefixToggle) (i : Nat) (hc : isSpace c = false) :
    p.pattern.find (p.mark i ++ c :: t) = some (p.mark i).length := by
  cases p with
  | quote => exact find_quote hc
  | bullet => exact find_bullet hc
  | ordered =>
    rw [PrefixToggle.mark, List.length_append]
    exact find_numbered (i + 1) hc
  | task => exact find_task hc

theorem decimal_head (n : Nat) : ∃ d m, decimal n = d :: m ∧ isSpace d = false := by
  obtain ⟨d, m, hd⟩ := List.exists_cons_of_ne_nil (decimal_ne_nil n)
  refine ⟨d, m, hd, Bool.eq_false_of_not_eq_true fun hspace => ?_⟩
  have hdigit : isDigit d = true := isDigit_of_mem_decimal (hd ▸ List.mem_cons_self)
  rw [(head_of_isSpace hspace).2.1] at hdigit
  simp at hdigit

/-- A mark begins with no space. -/
theorem mark_head (p : PrefixToggle) (i : Nat) : ∃ d m, p.mark i = d :: m ∧ isSpace d = false := by
  cases p with
  | quote => exact ⟨unit '>', [unit ' '], rfl, by decide⟩
  | bullet => exact ⟨unit '-', [unit ' '], rfl, by decide⟩
  | ordered =>
    obtain ⟨d, m, hd, hspace⟩ := decimal_head (i + 1)
    exact ⟨d, m ++ units ". ", by rw [PrefixToggle.mark, hd, List.cons_append], hspace⟩
  | task => exact ⟨unit '-', units " [ ] ", rfl, by decide⟩

theorem find_space (p : PrefixToggle) (hc : isSpace c = true) : p.pattern.find (c :: t) = none := by
  have hlist := Pattern.find_eq_none_iff.mp (listPrefix_of_isSpace (t := t) hc)
  obtain ⟨-, hrest⟩ := List.append_eq_nil_iff.mp hlist
  obtain ⟨hnumbered, htask⟩ := List.append_eq_nil_iff.mp hrest
  refine Pattern.find_eq_none_iff.mpr ?_
  cases p with
  | quote =>
    refine Pattern.ends_seq_eq_nil (Pattern.ends_seq_eq_nil (Pattern.ends_run_cons_neg ?_))
    refine decide_eq_false fun heq => ?_
    rw [heq] at hc
    exact absurd hc (by decide)
  | bullet => exact hlist
  | ordered => exact hnumbered
  | task => exact htask

theorem find_plain (p : PrefixToggle) (h : Plain l) : p.pattern.find (trimStart l) = none := by
  have hlist := Pattern.find_eq_none_iff.mp h.1
  obtain ⟨-, hrest⟩ := List.append_eq_nil_iff.mp hlist
  obtain ⟨hnumbered, htask⟩ := List.append_eq_nil_iff.mp hrest
  refine Pattern.find_eq_none_iff.mpr ?_
  cases p with
  | quote =>
    cases ht : trimStart l with
    | nil => rfl
    | cons c t =>
      refine Pattern.ends_seq_eq_nil (Pattern.ends_seq_eq_nil (Pattern.ends_run_cons_neg ?_))
      exact decide_eq_false fun heq => h.2 (by rw [ht, heq]; rfl)
  | bullet => exact hlist
  | ordered => exact hnumbered
  | task => exact htask

/-- Where a toggle looks for its mark. -/
theorem find₂_toggle (p : PrefixToggle) {u : Text} (hu : ∀ d ∈ u, isSpace d = true)
    (hc : isSpace c = false) (hq : p = .quote → u = []) :
    Pattern.find₂ p.keep p.pattern (u ++ c :: t) =
      (p.pattern.find (c :: t)).map fun m => (u.length, m) := by
  by_cases hp : p = .quote
  · have hends : (lit "").ends (c :: t) = [0] := Pattern.ends_literal [] (c :: t)
    subst hp
    obtain rfl := hq rfl
    rw [PrefixToggle.keep, Pattern.find₂, List.nil_append, hends]
    simp
  · have hkeep : p.keep = .star isSpace := by cases p <;> first | rfl | exact absurd rfl hp
    rw [hkeep]
    exact find₂_indent (fun _ _ => find_space p) hu hc

theorem test_quote_indent (h : l.takeWhile isSpace ≠ []) : PrefixToggle.quote.test l = false := by
  obtain ⟨d, u, hd⟩ := List.exists_cons_of_ne_nil h
  have hends : (lit "").ends l = [0] := Pattern.ends_literal [] l
  have hspace : PrefixToggle.quote.pattern.find l = none := by
    rw [← List.takeWhile_append_dropWhile (p := isSpace) (l := l), hd]
    exact find_space .quote (List.mem_takeWhile_imp (hd ▸ List.mem_cons_self))
  rw [PrefixToggle.test, PrefixToggle.keep, Pattern.find₂, hends]
  simp [hspace]

theorem test_plain (p : PrefixToggle) (hb : blank l = false) (h : Plain l) : p.test l = false := by
  obtain ⟨c, t, hc, ht, hl⟩ := indent_split hb
  have hnone := find_plain p h
  rw [ht] at hnone
  by_cases hq : p = .quote → l.takeWhile isSpace = []
  · rw [PrefixToggle.test, hl, find₂_toggle p (fun d => List.mem_takeWhile_imp) hc hq, hnone]
    rfl
  · obtain ⟨rfl, hne⟩ := Classical.not_imp.mp hq
    exact test_quote_indent hne

/-- There is no list prefix to strip. -/
theorem markedLine_eq {m : Text} (hb : blank l = false) (h : listPrefix.find (trimStart l) = none) :
    markedLine m l = l.takeWhile isSpace ++ m ++ trimStart l := by
  obtain ⟨c, t, hc, ht, hl⟩ := indent_split hb
  have hstrip : stripListPrefix l = l := by
    rw [ht] at h
    rw [stripListPrefix, Pattern.keepFirst, hl, find₂_indent (fun _ _ => listPrefix_of_isSpace)
      (fun d => List.mem_takeWhile_imp) hc, h]
    rfl
  rw [markedLine, hstrip]

/-- What a toggle puts is a mark that it finds and takes away. -/
theorem markedLine_strip (p : PrefixToggle) (i : Nat) (hb : blank l = false) (h : Plain l)
    (hq : p = .quote → l.takeWhile isSpace = []) :
    blank (markedLine (p.mark i) l) = false ∧ p.test (markedLine (p.mark i) l) = true ∧
      Pattern.keepFirst p.keep p.pattern [] (markedLine (p.mark i) l) = l := by
  obtain ⟨c, t, hc, ht, hl⟩ := indent_split hb
  obtain ⟨d, m, hmark, hd⟩ := mark_head p i
  have hu : ∀ d ∈ l.takeWhile isSpace, isSpace d = true := fun d => List.mem_takeWhile_imp
  have hline : markedLine (p.mark i) l = l.takeWhile isSpace ++ d :: (m ++ c :: t) := by
    rw [markedLine_eq hb h.1, ht, hmark, List.append_assoc, List.cons_append]
  have hfind : Pattern.find₂ p.keep p.pattern (markedLine (p.mark i) l) =
      some ((l.takeWhile isSpace).length, (p.mark i).length) := by
    have hpattern := find_mark (t := t) p i hc
    rw [hmark, List.cons_append] at hpattern
    rw [hline, find₂_toggle p hu hd hq, hpattern, ← hmark]
    rfl
  refine ⟨?_, by rw [PrefixToggle.test, hfind]; rfl, ?_⟩
  · refine Bool.eq_false_of_not_eq_true fun hblank => ?_
    have hspace := blank_iff.mp hblank d (by rw [hline]; simp)
    rw [hd] at hspace
    simp at hspace
  · rw [Pattern.keepFirst, hfind]
    simp only
    rw [markedLine_eq hb h.1, ht, ← List.length_append, List.drop_left, List.append_assoc _ (p.mark i),
      List.take_left, List.append_nil]
    exact hl.symm

/-- The lines of a block that a toggle can mark. -/
def PlainLines (ls : List Text) : Prop := ∀ l ∈ ls, blank l = false → Plain l

instance (ls : List Text) : Decidable (PlainLines ls) :=
  inferInstanceAs (Decidable (∀ l ∈ ls, blank l = false → Plain l))

theorem flip_plain (p : PrefixToggle) (h : PlainLines ls) :
    p.flip ls = ls.mapIdx fun i l => if blank l then l else markedLine (p.mark i) l := by
  refine List.ext_getElem (by simp [PrefixToggle.flip, flipped]) fun i hi hi' => ?_
  have hmem : i < ls.length := by simpa using hi'
  simp only [PrefixToggle.flip, flipped, List.getElem_mapIdx]
  cases hb : blank ls[i] with
  | true => rfl
  | false =>
    have hall : (ls.all fun line => blank line || p.test line) = false := by
      refine List.all_eq_false.mpr ⟨_, List.getElem_mem hmem, ?_⟩
      rw [hb, test_plain p hb (h _ (List.getElem_mem hmem) hb)]
      simp
    simp [hall]

theorem flip_marked (p : PrefixToggle) (h : ∀ l ∈ ls, (blank l || p.test l) = true) :
    p.flip ls = ls.mapIdx fun _ l =>
      if blank l then l else Pattern.keepFirst p.keep p.pattern [] l := by
  simp only [PrefixToggle.flip, flipped, List.all_eq_true.mpr h, if_true]

theorem length_flip (p : PrefixToggle) (ls : List Text) : (p.flip ls).length = ls.length :=
  List.length_mapIdx

theorem flip_flip (p : PrefixToggle) (h : PlainLines ls)
    (hq : p = .quote → ∀ l ∈ ls, blank l = false → l.takeWhile isSpace = []) :
    p.flip (p.flip ls) = ls := by
  have hline : ∀ i l, l ∈ ls → blank l = false → _ := fun i l hl hb =>
    markedLine_strip p i hb (h l hl hb) fun hp => hq hp l hl hb
  rw [flip_plain p h, flip_marked]
  · refine List.ext_getElem (by simp) fun i hi hi' => ?_
    simp only [List.getElem_mapIdx]
    cases hb : blank ls[i] with
    | true => simp [hb]
    | false =>
      obtain ⟨hblank, -, hstrip⟩ := hline i _ (List.getElem_mem hi') hb
      simp [hblank, hstrip]
  · intro l hl
    obtain ⟨i, hi, rfl⟩ := List.mem_mapIdx.mp hl
    cases hb : blank ls[i] with
    | true => simp [hb]
    | false => simp [(hline i _ (List.getElem_mem hi) hb).2.1]

/-- A quote mark behind an indentation is not found again. -/
theorem flip_flip_quote (h : PlainLines ls) {l : Text} (hl : l ∈ ls) (hb : blank l = false)
    (hindent : l.takeWhile isSpace ≠ []) :
    PrefixToggle.quote.flip (PrefixToggle.quote.flip ls) ≠ ls := by
  obtain ⟨i, hi, rfl⟩ := List.mem_iff_getElem.mp hl
  obtain ⟨c, t, hc, ht, hline⟩ := indent_split hb
  have hu : ∀ d ∈ ls[i].takeWhile isSpace, isSpace d = true := fun d => List.mem_takeWhile_imp
  have hfirst : (PrefixToggle.quote.flip ls)[i]? =
      some (ls[i].takeWhile isSpace ++ unit '>' :: unit ' ' :: c :: t) := by
    rw [flip_plain _ h, List.getElem?_mapIdx, List.getElem?_eq_getElem hi, Option.map_some, hb,
      if_neg (by simp), markedLine_eq hb (h _ hl hb).1, ht, List.append_assoc]
    rfl
  generalize ls[i].takeWhile isSpace = u at *
  have hmem := List.mem_of_getElem? hfirst
  obtain ⟨htake, htrim⟩ := takeWhile_indent (t := unit ' ' :: c :: t) hu
    (show isSpace (unit '>') = false by decide)
  have hblank : blank (u ++ unit '>' :: unit ' ' :: c :: t) = false := by
    refine Bool.eq_false_of_not_eq_true fun hblank => ?_
    exact absurd (blank_iff.mp hblank (unit '>') (by simp)) (by decide)
  have hall : ((PrefixToggle.quote.flip ls).all fun line =>
      blank line || PrefixToggle.quote.test line) = false := by
    refine List.all_eq_false.mpr ⟨_, hmem, ?_⟩
    rw [hblank, test_quote_indent (by rwa [htake])]
    simp
  intro heq
  have hsecond : (PrefixToggle.quote.flip (PrefixToggle.quote.flip ls))[i]? =
      some (u ++ units "> " ++ unit '>' :: unit ' ' :: c :: t) := by
    rw [PrefixToggle.flip, flipped, List.getElem?_mapIdx, hfirst, Option.map_some, hblank,
      if_neg (by simp), hall, if_neg (by simp), markedLine_eq hblank, htake, htrim]
    · rfl
    · rw [htrim]
      exact find_listPrefix_none (by decide) (by decide) (by decide)
  rw [heq, List.getElem?_eq_getElem hi, hline, Option.some.injEq] at hsecond
  have hlen := congrArg List.length hsecond
  simp [units] at hlen

/-! ### The text -/

theorem newline_notMem_flip (p : PrefixToggle) (h : ∀ l ∈ ls, newline ∉ l) :
    ∀ l ∈ p.flip ls, newline ∉ l := by
  refine newline_notMem_flipped (keepsNewlines_keepFirst _ _ List.not_mem_nil) (fun i => ?_) h
  cases p with
  | quote => exact (by decide : newline ∉ units "> ")
  | bullet => exact (by decide : newline ∉ units "- ")
  | ordered => exact newline_notMem_number (i + 1)
  | task => exact (by decide : newline ∉ units "- [ ] ")

theorem lines_rewrite (p : PrefixToggle) (v : Text) : lines (p.rewrite v) = p.flip (lines v) :=
  lines_join_map (length_flip p) (newline_notMem_flip p (newline_notMem v))

theorem rewrite_rewrite (p : PrefixToggle) (v : Text) :
    p.rewrite (p.rewrite v) = v ↔ p.flip (p.flip (lines v)) = lines v := by
  constructor
  · intro h
    rw [← lines_rewrite, ← lines_rewrite, h]
  · intro h
    rw [PrefixToggle.rewrite, lines_rewrite, h]
    exact join_lines v

/-- Only empty lines are left empty. -/
theorem keepsHead_rewrite (p : PrefixToggle) {v : Text} (h : PlainLines (lines v)) :
    KeepsHead p.rewrite v := by
  refine keepsHead_join (length_flip p _) (newline_notMem_flip p (newline_notMem v)) fun hhead => ?_
  rw [flip_plain p h, List.head?_eq_getElem?, List.getElem?_mapIdx] at hhead
  obtain ⟨l, hl, hempty⟩ := Option.map_eq_some_iff.mp hhead
  rw [List.head?_eq_getElem?, hl, Option.some.injEq]
  split_ifs at hempty with hb
  · exact hempty
  · obtain ⟨d, m, hmark, -⟩ := mark_head p 0
    simp [markedLine, hmark] at hempty

/-! ### Numbers -/

/-- A line has a number in front of its text. -/
def Carries (n : Nat) (line : Text) : Prop := ∃ t, trimStart line = decimal n ++ units ". " ++ t

/-- After the toggle the lines of the selection that are not blank are numbered in order. -/
def NumbersInOrder (state : EditorState) : Prop :=
  ∃ after, (toggleOrderedList state).resume = some after ∧ ∀ k line,
    ((lines (selectedText after).value).filter (!blank ·))[k]? = some line → Carries (k + 1) line

theorem takeWhile_number (n : Nat) (t : Text) :
    (decimal n ++ units ". " ++ t).takeWhile isDigit = decimal n := by
  have hrest : (unit '.' :: unit ' ' :: t).takeWhile isDigit = [] :=
    List.takeWhile_cons_of_neg (by decide)
  rw [List.append_assoc, List.takeWhile_append_of_pos fun c => isDigit_of_mem_decimal]
  exact (congrArg (decimal n ++ ·) hrest).trans (List.append_nil _)

/-- The line with a number has no other one. -/
theorem carries_markedLine (hb : blank l = false) (h : Plain l) {n m : Nat} :
    Carries n (markedLine (decimal m ++ units ". ") l) ↔ n = m := by
  obtain ⟨d, w, hd, hspace⟩ := decimal_head m
  have hline : trimStart (markedLine (decimal m ++ units ". ") l) =
      decimal m ++ units ". " ++ trimStart l := by
    rw [markedLine_eq hb h.1, hd, List.append_assoc, List.cons_append, List.cons_append]
    exact (takeWhile_indent (fun _ => List.mem_takeWhile_imp) hspace).2
  constructor
  · rintro ⟨t, ht⟩
    rw [hline] at ht
    have hdigits := congrArg (List.takeWhile isDigit) ht
    rw [takeWhile_number, takeWhile_number] at hdigits
    exact (decimal_inj hdigits).symm
  · rintro rfl
    exact ⟨_, hline⟩

theorem blank_markedLine (hb : blank l = false) (h : Plain l) {n : Nat} :
    blank (markedLine (decimal n ++ units ". ") l) = false := by
  obtain ⟨d, w, hd, hspace⟩ := decimal_head n
  refine Bool.eq_false_of_not_eq_true fun hblank => ?_
  rw [markedLine_eq hb h.1, hd] at hblank
  rw [blank_iff.mp hblank d (by simp)] at hspace
  simp at hspace

/-- The lines of a block numbered from `n` on, as the toggle does. -/
def numberedFrom (n : Nat) (ls : List Text) : List Text :=
  ls.mapIdx fun i l => if blank l then l else markedLine (decimal (n + i) ++ units ". ") l

theorem numberedFrom_cons (n : Nat) (l : Text) (ls : List Text) : numberedFrom n (l :: ls) =
    (if blank l then l else markedLine (decimal n ++ units ". ") l) :: numberedFrom (n + 1) ls := by
  simp only [numberedFrom, List.mapIdx_cons, Nat.add_zero, Nat.add_assoc, Nat.add_comm 1]

theorem mem_numberedFrom (h : PlainLines ls) {n : Nat} :
    l ∈ (numberedFrom n ls).filter (!blank ·) ↔ ∃ i, ∃ hi : i < ls.length,
      blank ls[i] = false ∧ l = markedLine (decimal (n + i) ++ units ". ") ls[i] := by
  rw [List.mem_filter, numberedFrom, List.mem_mapIdx, Bool.not_eq_true']
  constructor
  · rintro ⟨⟨i, hi, rfl⟩, hb⟩
    cases hline : blank ls[i] with
    | true => simp [hline] at hb
    | false => exact ⟨i, hi, hline, by simp⟩
  · rintro ⟨i, hi, hb, rfl⟩
    exact ⟨⟨i, hi, by simp [hb]⟩, blank_markedLine hb (h _ (List.getElem_mem hi) hb)⟩

/-- The lines are numbered in order where none behind a blank one has a number. -/
theorem carries_iff (h : PlainLines ls) (n : Nat) :
    (∀ k l, ((numberedFrom n ls).filter (!blank ·))[k]? = some l → Carries (n + k) l) ↔
      ls.Pairwise fun l l' => blank l = true → blank l' = true := by
  induction ls generalizing n with
  | nil => simp [numberedFrom]
  | cons l ls ih =>
    have hl := h l List.mem_cons_self
    have hls : PlainLines ls := fun l' hl' => h l' (List.mem_cons_of_mem l hl')
    rw [numberedFrom_cons, List.pairwise_cons]
    cases hb : blank l with
    | false =>
      have hline := blank_markedLine (n := n) hb (hl hb)
      simp only [if_neg (show ¬ (false = true) by simp)]
      rw [List.filter_cons_of_pos (by simp [hline])]
      constructor
      · intro hk
        refine ⟨fun _ _ hf => by simp at hf, (ih hls (n + 1)).mp fun k l' hl' => ?_⟩
        have hnext := hk (k + 1) l' (by rwa [List.getElem?_cons_succ])
        rwa [Nat.add_assoc, Nat.add_comm 1]
      · rintro ⟨-, hpairs⟩ k l' hl'
        cases k with
        | zero =>
          rw [List.getElem?_cons_zero, Option.some.injEq] at hl'
          rw [← hl']
          exact (carries_markedLine hb (hl hb)).mpr rfl
        | succ k =>
          rw [List.getElem?_cons_succ] at hl'
          have hnext := (ih hls (n + 1)).mpr hpairs k l' hl'
          rwa [Nat.add_assoc, Nat.add_comm 1] at hnext
    | true =>
      simp only [if_true]
      rw [List.filter_cons_of_neg (by simp [hb])]
      constructor
      · intro hk
        have hblank : ∀ l' ∈ ls, blank l' = true := by
          intro l' hl'
          obtain ⟨i, hi, rfl⟩ := List.mem_iff_getElem.mp hl'
          by_contra hb'
          have hmem := (mem_numberedFrom hls (n := n + 1)).mpr
            ⟨i, hi, Bool.eq_false_of_not_eq_true hb', rfl⟩
          have hfirst := List.getElem?_eq_getElem (List.length_pos_of_mem hmem)
          obtain ⟨j, hj, hline, hcarried⟩ := (mem_numberedFrom hls).mp (List.mem_of_getElem? hfirst)
          have hcarries := hk 0 _ hfirst
          rw [hcarried, carries_markedLine hline (hls _ (List.getElem_mem hj) hline)] at hcarries
          omega
        exact ⟨fun l' hl' _ => hblank l' hl', List.pairwise_of_forall_mem_list
          fun _ _ l' hl' _ => hblank l' hl'⟩
      · rintro ⟨hblank, -⟩ k l' hl'
        obtain ⟨i, hi, hb', -⟩ := (mem_numberedFrom hls).mp (List.mem_of_getElem? hl')
        rw [hblank _ (List.getElem_mem hi) trivial] at hb'
        simp at hb'

/-- The block of the state after a toggle. -/
theorem numbersInOrder_iff (h : state.Valid) (hq : ¬ AtLeadingNewline state)
    (hplain : PlainLines (lines (selectedLineBlock state).value)) :
    NumbersInOrder state ↔ (lines (selectedLineBlock state).value).Pairwise
      fun l l' => blank l = true → blank l' = true := by
  obtain ⟨A, B, -, -, -, hstart, -, hreplace⟩ := block_split h hq
  have hrun : toggleOrderedList state = replaceBlock state PrefixToggle.ordered.rewrite :=
    run_eq state .ordered
  have hflip := flip_plain .ordered hplain
  have hnumbered : lines (PrefixToggle.ordered.rewrite (selectedLineBlock state).value) =
      numberedFrom 1 (lines (selectedLineBlock state).value) := by
    rw [lines_rewrite, hflip]
    simp only [numberedFrom, PrefixToggle.mark, Nat.add_comm 1]
  rw [← carries_iff hplain 1, NumbersInOrder, hrun, resume_replaceBlock, hreplace, hstart]
  simp only [Option.map_some, Option.some.injEq, exists_eq_left', selectedText_between, hnumbered,
    Nat.add_comm 1]

/-- On plain lines a toggle and the same toggle again restore the text, and the ordered list numbers
the lines in order, except with the caret in front of a leading newline, for a quote of indented
lines and for a number behind a blank line. -/
theorem toggles_restore_iff (state : EditorState) (h : state.Valid)
    (hplain : PlainLines (lines (selectedLineBlock state).value)) (p : PrefixToggle) :
    (twice (fun s => p.run s) state = some state.text ∧ (p = .ordered → NumbersInOrder state)) ↔
      ¬ AtLeadingNewline state ∧
      (p = .quote → ∀ l ∈ lines (selectedLineBlock state).value, blank l = false →
        l.takeWhile isSpace = []) ∧
      (p = .ordered → (lines (selectedLineBlock state).value).Pairwise
        fun l l' => blank l = true → blank l' = true) := by
  have hrun : (fun s => p.run s) = fun s => replaceBlock s p.rewrite := funext fun s => run_eq s p
  rw [hrun]
  by_cases hq : AtLeadingNewline state
  · have hempty : p.rewrite [] = [] := by
      have hlines : PlainLines (lines []) := fun l hl hb => by
        rw [List.mem_singleton.mp hl] at hb
        exact absurd hb (by decide)
      rw [PrefixToggle.rewrite, flip_plain p hlines]
      rfl
    exact iff_of_false (fun hrestore => twice_atLeadingNewline h hq hempty hrestore.1)
      fun hcond => hcond.1 hq
  · rw [twice_replaceBlock h hq (keepsHead_rewrite p hplain), rewrite_rewrite,
      numbersInOrder_iff h hq hplain, and_iff_right hq]
    refine and_congr_left fun _ => ⟨fun hflip hquote l hl hb => ?_, flip_flip p hplain⟩
    subst hquote
    by_contra hindent
    exact flip_flip_quote hplain hl hb hindent hflip

theorem toggles_restore_task :
    twice (fun s => PrefixToggle.task.run s) ⟨units "  a\n\nb", 1, 6⟩ = some (units "  a\n\nb") :=
  ((toggles_restore_iff ⟨units "  a\n\nb", 1, 6⟩ ⟨by decide, by decide⟩ (by decide) .task).mpr
    ⟨by decide, by decide, by decide⟩).1

/-- The quote of an indented line is quoted again, and the number of a line counts the blank lines in
front of it. -/
theorem toggles_go_on :
    (∃ state : EditorState, state.Valid ∧ PlainLines (lines (selectedLineBlock state).value) ∧
      twice (fun s => PrefixToggle.quote.run s) state ≠ some state.text) ∧
    ∃ state : EditorState, state.Valid ∧ PlainLines (lines (selectedLineBlock state).value) ∧
      ¬ NumbersInOrder state := by
  refine ⟨⟨⟨units "  a", 0, 3⟩, ⟨by decide, by decide⟩, by decide, by decide⟩,
    ⟨units "a\n\nb", 0, 4⟩, ⟨by decide, by decide⟩, by decide, fun h => ?_⟩
  exact absurd ((numbersInOrder_iff ⟨by decide, by decide⟩ (by decide) (by decide)).mp h) (by decide)

end

end Mdock.Editor.Commands
