import Mdock.Editor.Toolbar
import Mdock.Js.Lines

/-! The commands that rewrite lines: which lines they touch. -/
namespace Mdock.Editor.Commands
open Mdock.Js Mdock.Lib

variable {state : EditorState} {next : Text → Text}

/-- The caret stands at the beginning of a text that begins with an empty line, where the search
for the newline in front of it finds the one behind it. -/
def AtLeadingNewline (state : EditorState) : Prop :=
  state.selectionStart = 0 ∧ state.selectionEnd = 0 ∧ state.text[0]? = some newline

instance (state : EditorState) : Decidable (AtLeadingNewline state) :=
  inferInstanceAs (Decidable (_ ∧ _))

/-- The lines of the block, by their numbers. -/
def firstLine (state : EditorState) : Nat :=
  if state.selectionStart = 0 ∧ state.text[0]? = some newline then 1
  else lineOf state.text state.selectionStart

def lastLine (state : EditorState) : Nat := lineOf state.text state.selectionEnd

/-- An empty first line ends where it begins. -/
theorem lineEnd_zero {s : Text} (h : s[0]? = some newline) :
    lineEnd (lines s) 0 = 0 ∧ 1 < (lines s).length := by
  obtain ⟨i, hi, hend⟩ := newline_at h
  have hzero : i = 0 := by
    by_contra hpos
    have := lineEnd_lt (L := lines s) (i := 0) (k := i) (by omega) (by omega)
    have : pieceStart (lines s) i ≤ lineEnd (lines s) i := Nat.le_add_right _ _
    omega
  subst hzero
  exact ⟨hend.symm, hi⟩

theorem lineOf_zero (s : Text) : lineOf s 0 = 0 := by
  obtain ⟨hlt, hstart, -⟩ := lineOf_spec (s := s) (Nat.zero_le _)
  by_contra hpos
  have := lineEnd_lt (L := lines s) (i := 0) (k := lineOf s 0) (by omega) (by omega)
  omega

/-- The block goes from the beginning of a line to the end of one. -/
theorem selectedLineBlock_eq (h : state.Valid) :
    (selectedLineBlock state).start = pieceStart (lines state.text) (firstLine state) ∧
      (selectedLineBlock state).stop = lineEnd (lines state.text) (lastLine state) := by
  obtain ⟨hs, hsstart, hsend⟩ := lineOf_spec (Nat.le_trans h.1 h.2)
  obtain ⟨he, hestart, heend⟩ := lineOf_spec h.2
  simp only [selectedLineBlock, selectedText_eq h]
  refine ⟨?_, ?_⟩
  · unfold firstLine
    split_ifs with hquirk
    · obtain ⟨hend, hlen⟩ := lineEnd_zero hquirk.2
      rw [hquirk.1, pieceStart_next (Nat.zero_lt_of_lt hlen), hend]
      rw [lastIndexOf_eq_some.mpr ⟨Nat.le_refl 0, hquirk.2, fun r h₁ h₂ => absurd h₁ (by omega)⟩]
      rfl
    · by_cases hzero : state.selectionStart = 0
      · rw [hzero, lineOf_zero, pieceStart_zero, lastIndexOf_eq_none.mpr fun r hr hget => ?_]
        · rfl
        · exact hquirk ⟨hzero, (Nat.le_zero.mp hr) ▸ hget⟩
      · exact lastIndexOf_newline hs (by omega) (by omega)
  · rw [indexOf_newline he hestart heend, lastLine]
    split_ifs with hnext
    · rfl
    · exact (lineEnd_last (by omega)).symm

theorem firstLine_le_lastLine (h : state.Valid) (hq : ¬ AtLeadingNewline state) :
    firstLine state ≤ lastLine state ∧ lastLine state < (lines state.text).length := by
  obtain ⟨he, hestart, heend⟩ := lineOf_spec h.2
  refine ⟨?_, he⟩
  unfold firstLine lastLine
  by_contra hlt
  split_ifs at hlt with hquirk
  · obtain ⟨hend, hlen⟩ := lineEnd_zero hquirk.2
    have hzero : lineOf state.text state.selectionEnd = 0 := by omega
    rw [hzero, hend] at heend
    exact hq ⟨hquirk.1, by omega, hquirk.2⟩
  · obtain ⟨hs, hsstart, hsend⟩ := lineOf_spec (Nat.le_trans h.1 h.2)
    have := lineEnd_lt (L := lines state.text) (Nat.lt_of_not_le hlt) he
    have := h.1
    omega

/-! ### What stays -/

/-- Lines are put for as many. -/
def KeepsLines (next : Text → Text) : Prop := ∀ v, (lines (next v)).length = (lines v).length

/-- As many lines are put for the ones the selection touches, and the others stay. -/
def TouchesOnly (state : EditorState) (r : Spec) : Prop :=
  let first := lineOf state.text state.selectionStart
  let last := lineOf state.text state.selectionEnd
  ∃ text new, r.text = some text ∧ new.length = last + 1 - first ∧
    lines text = (lines state.text).take first ++ new ++ (lines state.text).drop (last + 1)

theorem replaceBlock_text (h : state.Valid) (next : Text → Text) :
    (replaceBlock state next).text = some
      (state.text.take (pieceStart (lines state.text) (firstLine state)) ++
        next (selectedLineBlock state).value ++
        state.text.drop (lineEnd (lines state.text) (lastLine state))) := by
  obtain ⟨hstart, hstop⟩ := selectedLineBlock_eq h
  simp only [replaceBlock, replaceRange, hstart, hstop, slice_zero, slice_nat, List.take_length]

/-- The lines of the block. -/
theorem lines_block (h : state.Valid) (hq : ¬ AtLeadingNewline state) :
    lines (selectedLineBlock state).value =
      ((lines state.text).take (lastLine state + 1)).drop (firstLine state) := by
  obtain ⟨hstart, hstop⟩ := selectedLineBlock_eq h
  obtain ⟨hle, hlt⟩ := firstLine_le_lastLine h hq
  have hvalue : (selectedLineBlock state).value =
      slice state.text (selectedLineBlock state).start (selectedLineBlock state).stop := rfl
  have hvalue : (selectedLineBlock state).value =
      slice state.text (selectedLineBlock state).start (selectedLineBlock state).stop := rfl
  rw [hvalue, hstart, hstop, lines_slice hle hlt]

/-- The text with new lines put for the block. -/
theorem lines_replaceBlock (h : state.Valid) (hq : ¬ AtLeadingNewline state) (v : Text) :
    lines (state.text.take (pieceStart (lines state.text) (firstLine state)) ++ v ++
        state.text.drop (lineEnd (lines state.text) (lastLine state))) =
      (lines state.text).take (firstLine state) ++ lines v ++
        (lines state.text).drop (lastLine state + 1) :=
  lines_splice v (firstLine_le_lastLine h hq).1 (firstLine_le_lastLine h hq).2

theorem exists_cons_of_newline {s : Text} (h : s[0]? = some newline) : ∃ rest, s = newline :: rest := by
  cases s with
  | nil => simp at h
  | cons c rest =>
    rw [List.getElem?_cons_zero, Option.some.injEq] at h
    exact ⟨rest, by rw [h]⟩

/-- At the leading newline the block ends in front of its beginning. -/
theorem block_atLeadingNewline (h : state.Valid) (hq : AtLeadingNewline state) :
    (selectedLineBlock state).value = [] := by
  obtain ⟨-, hstop⟩ := selectedLineBlock_eq h
  have hvalue : (selectedLineBlock state).value =
      slice state.text (selectedLineBlock state).start (selectedLineBlock state).stop := rfl
  rw [hvalue, hstop, lastLine, hq.2.1, lineOf_zero, (lineEnd_zero hq.2.2).1, slice_nat]
  simp

/-- So the newline is doubled. -/
theorem replaceBlock_atLeadingNewline (h : state.Valid) (hq : AtLeadingNewline state)
    (next : Text → Text) :
    (replaceBlock state next).text = some (newline :: next [] ++ state.text) := by
  obtain ⟨hend, hlen⟩ := lineEnd_zero hq.2.2
  have hfirst : firstLine state = 1 := if_pos ⟨hq.1, hq.2.2⟩
  have hlast : lastLine state = 0 := by rw [lastLine, hq.2.1, lineOf_zero]
  have hone : pieceStart (lines state.text) 1 = 1 := by
    rw [pieceStart_next (Nat.zero_lt_of_lt hlen), hend]
  rw [replaceBlock_text h, hfirst, hlast, hend, hone, block_atLeadingNewline h hq,
    List.take_add_one, hq.2.2]
  rfl

theorem touchesOnly_replaceBlock (h : state.Valid) (hnext : KeepsLines next) :
    TouchesOnly state (replaceBlock state next) ↔ ¬ AtLeadingNewline state := by
  obtain ⟨hs, hsstart, hsend⟩ := lineOf_spec (Nat.le_trans h.1 h.2)
  constructor
  · rintro ⟨text, new, htext, hnew, hlines⟩ hq
    rw [replaceBlock_atLeadingNewline h hq] at htext
    obtain ⟨rest, hrest⟩ := exists_cons_of_newline hq.2.2
    have hlen := congrArg List.length hlines
    have hcount := hnext []
    have hempty : (lines []).length = 1 := rfl
    have htext' : lines text = lines [] ++ (lines (next []) ++ lines rest) := by
      rw [← Option.some.inj htext, hrest, ← lines_append_newline, ← lines_append_newline]
      rfl
    have hwhole : lines state.text = lines [] ++ lines rest := by
      rw [hrest, ← lines_append_newline]
      rfl
    rw [htext', hq.1, hq.2.1, lineOf_zero, hwhole] at hlen
    rw [hq.1, hq.2.1, lineOf_zero] at hnew
    simp only [List.length_append, List.length_take, List.length_drop, hcount, hempty] at hlen
    omega
  · intro hq
    obtain ⟨hle, hlt⟩ := firstLine_le_lastLine h hq
    have hlen := hnext (selectedLineBlock state).value
    rw [lines_block h hq, List.length_drop, List.length_take] at hlen
    have hlines := lines_replaceBlock h hq (next (selectedLineBlock state).value)
    by_cases hquirk : state.selectionStart = 0 ∧ state.text[0]? = some newline
    · have hfirst : firstLine state = 1 := if_pos hquirk
      have hzero : lineOf state.text state.selectionStart = 0 := by rw [hquirk.1, lineOf_zero]
      refine ⟨_, lineAt (lines state.text) 0 :: lines (next (selectedLineBlock state).value),
        replaceBlock_text h next, ?_, ?_⟩
      · rw [List.length_cons, hlen, hfirst, hzero, ← lastLine]
        omega
      · have hpos : 0 < (lines state.text).length := List.length_pos_iff.mpr (lines_ne_nil _)
        rw [hlines, hfirst, hzero, List.take_zero, List.nil_append, List.take_add_one,
          List.take_zero, List.nil_append, lineAt_eq hpos, List.getElem?_eq_getElem hpos]
        rfl
    · have hfirst : firstLine state = lineOf state.text state.selectionStart := if_neg hquirk
      refine ⟨_, lines (next (selectedLineBlock state).value), replaceBlock_text h next, ?_, ?_⟩
      · rw [hlen, ← hfirst, ← lastLine]
        omega
      · rw [hlines, hfirst]
        rfl

/-! ### The commands -/

theorem lines_join_map {f : List Text → List Text} {v : Text}
    (hlen : ∀ ls, (f ls).length = ls.length)
    (hno : ∀ l ∈ f (lines v), newline ∉ l) : lines (join [newline] (f (lines v))) = f (lines v) := by
  refine lines_join (fun hnil => lines_ne_nil v (List.eq_nil_of_length_eq_zero ?_)) hno
  rw [← hlen, hnil]
  rfl

theorem keepsLines_join {f : List Text → List Text} (hlen : ∀ ls, (f ls).length = ls.length)
    (hno : ∀ ls, (∀ l ∈ ls, newline ∉ l) → ∀ l ∈ f ls, newline ∉ l) :
    KeepsLines fun v => join [newline] (f (lines v)) := fun v => by
  rw [lines_join_map hlen (hno _ (newline_notMem v)), hlen]

/-- A mapper puts no newline into a line. -/
def KeepsNewlines (mapper : Text → Text) : Prop := ∀ l, newline ∉ l → newline ∉ mapper l

theorem keepsLines_mapLines {mapper : Text → Text} (h : KeepsNewlines mapper) :
    KeepsLines (mapLines mapper) :=
  keepsLines_join (f := List.map mapper) (fun _ => List.length_map _) fun ls hls l hl => by
    obtain ⟨l', hl', rfl⟩ := List.mem_map.mp hl
    exact h l' (hls l' hl')

theorem keepsNewlines_cut (a : Pattern UInt16) : KeepsNewlines a.cut :=
  fun _ hl h => hl (Pattern.mem_of_mem_cut h)

theorem keepsNewlines_keepFirst (a b : Pattern UInt16) {v : Text} (hv : newline ∉ v) :
    KeepsNewlines (Pattern.keepFirst a b v) :=
  fun _ hl h => (Pattern.mem_of_mem_keepFirst h).elim hv hl

theorem keepsNewlines_trimStart : KeepsNewlines trimStart :=
  fun _ hl h => hl ((List.dropWhile_sublist _).mem h)

theorem keepsNewlines_stripListPrefix : KeepsNewlines stripListPrefix :=
  keepsNewlines_keepFirst _ _ List.not_mem_nil

theorem keepsNewlines_stripBlockPrefix : KeepsNewlines stripBlockPrefix := fun l hl =>
  keepsNewlines_cut _ _ (keepsNewlines_cut _ _ (keepsNewlines_stripListPrefix l hl))

theorem keepsNewlines_headingLine (level : Nat) : KeepsNewlines (headingLine level) := by
  intro l hl h
  rw [headingLine, List.mem_append, List.mem_append] at h
  rcases h with (h | h) | h
  · obtain ⟨u, hu, hmem⟩ := List.mem_flatten.mp h
    rw [List.eq_of_mem_replicate hu] at hmem
    exact absurd hmem (by decide)
  · exact absurd h (by decide)
  · exact keepsNewlines_cut _ _ (keepsNewlines_cut _ _ hl) h

theorem keepsNewlines_taskDoneLine : KeepsNewlines taskDoneLine := by
  intro l hl
  unfold taskDoneLine
  simp only
  split_ifs
  · exact keepsNewlines_keepFirst _ _ (by decide) l hl
  · exact keepsNewlines_keepFirst _ _ (by decide) l hl

theorem keepsNewlines_indentLine : KeepsNewlines indentLine := by
  intro l hl
  unfold indentLine
  split_ifs
  · exact hl
  · rw [List.mem_append]
    exact fun h => h.elim (absurd · (by decide)) hl

/-- The line with a mark between its indentation and its text. -/
def markedLine (mark line : Text) : Text :=
  line.takeWhile isSpace ++ mark ++ trimStart (stripListPrefix line)

theorem keepsNewlines_markedLine {mark : Text} (hm : newline ∉ mark) :
    KeepsNewlines (markedLine mark) := by
  intro l hl h
  rw [markedLine, List.mem_append, List.mem_append] at h
  rcases h with (h | h) | h
  · exact hl ((l.takeWhile_sublist isSpace).mem h)
  · exact hm h
  · exact keepsNewlines_trimStart _ (keepsNewlines_stripListPrefix l hl) h

/-- Marks go in front of the lines, or away where every line has one. -/
def flipped (test : Text → Bool) (strip : Text → Text) (mark : Nat → Text) (ls : List Text) :
    List Text :=
  ls.mapIdx fun i line =>
    if blank line then line
    else if ls.all fun line => blank line || test line then strip line
    else markedLine (mark i) line

section
variable {test : Text → Bool} {strip : Text → Text} {mark : Nat → Text} {ls : List Text}

theorem newline_notMem_flipped (hstrip : KeepsNewlines strip) (hmark : ∀ i, newline ∉ mark i)
    (hls : ∀ l ∈ ls, newline ∉ l) : ∀ l ∈ flipped test strip mark ls, newline ∉ l := by
  intro l hl
  obtain ⟨i, hi, rfl⟩ := List.mem_mapIdx.mp hl
  have hno := hls _ (List.getElem_mem hi)
  split_ifs
  · exact hno
  · exact hstrip _ hno
  · exact keepsNewlines_markedLine (hmark i) _ hno

end

theorem toggledLines_eq (t : Toggle) :
    toggledLines t = fun v => join [newline] (flipped t.test t.strip (fun _ => t.mark) (lines v)) := by
  funext v
  refine congrArg (join [newline]) (List.ext_getElem (by simp [flipped]) fun i _ _ => ?_)
  simp [flipped, markedLine]

theorem orderedLines_eq : orderedLines = fun v => join [newline]
    (flipped (fun line => (Pattern.find₂ (.star isSpace) numbered line).isSome)
      (Pattern.keepFirst (.star isSpace) numbered []) (fun i => decimal (i + 1) ++ units ". ")
      (lines v)) := by
  funext v
  simp only [orderedLines, flipped, markedLine, List.append_assoc]

theorem newline_notMem_number (n : Nat) : newline ∉ decimal n ++ units ". " := by
  rw [List.mem_append]
  exact fun h => h.elim (fun h => absurd (isDigit_of_mem_decimal h) (by decide))
    (absurd · (by decide))

theorem keepsLines_toggledLines (t : Toggle) (hm : newline ∉ t.mark) :
    KeepsLines (toggledLines t) := by
  rw [toggledLines_eq]
  exact keepsLines_join (fun _ => List.length_mapIdx) fun _ =>
    newline_notMem_flipped (keepsNewlines_keepFirst _ _ List.not_mem_nil) fun _ => hm

theorem keepsLines_orderedLines : KeepsLines orderedLines := by
  rw [orderedLines_eq]
  exact keepsLines_join (fun _ => List.length_mapIdx) fun _ =>
    newline_notMem_flipped (keepsNewlines_keepFirst _ _ List.not_mem_nil) fun i =>
      newline_notMem_number (i + 1)

/-- The commands that rewrite the lines of the selection. -/
inductive LineCommand
  | heading (level : Nat) | paragraph | blockquote | bulletList | orderedList | taskList | taskDone
  | indent | outdent

def LineCommand.run (state : EditorState) : LineCommand → Spec
  | .heading level => setHeading state level
  | .paragraph => setParagraph state
  | .blockquote => toggleBlockquote state
  | .bulletList => toggleBulletList state
  | .orderedList => toggleOrderedList state
  | .taskList => toggleTaskList state
  | .taskDone => toggleTaskDone state
  | .indent => indentLines state
  | .outdent => outdentLines state

/-- The commands that rewrite lines put as many lines for those the selection touches and leave the
others, except with the caret in front of a leading newline. -/
theorem lineCommand_touchesOnly_iff (state : EditorState) (h : state.Valid) (c : LineCommand) :
    TouchesOnly state (c.run state) ↔ ¬ AtLeadingNewline state := by
  have hparagraph : TouchesOnly state (setParagraph state) ↔ ¬ AtLeadingNewline state :=
    touchesOnly_replaceBlock h (keepsLines_mapLines keepsNewlines_stripBlockPrefix)
  cases c with
  | heading level =>
    rw [LineCommand.run, setHeading]
    split_ifs
    · exact hparagraph
    · exact touchesOnly_replaceBlock h (keepsLines_mapLines (keepsNewlines_headingLine level))
  | paragraph => exact hparagraph
  | blockquote => exact touchesOnly_replaceBlock h (keepsLines_toggledLines quote (by decide))
  | bulletList => exact touchesOnly_replaceBlock h (keepsLines_toggledLines bullet (by decide))
  | orderedList => exact touchesOnly_replaceBlock h keepsLines_orderedLines
  | taskList => exact touchesOnly_replaceBlock h (keepsLines_toggledLines task (by decide))
  | taskDone =>
    exact touchesOnly_replaceBlock h (keepsLines_mapLines keepsNewlines_taskDoneLine)
  | indent => exact touchesOnly_replaceBlock h (keepsLines_mapLines keepsNewlines_indentLine)
  | outdent => exact touchesOnly_replaceBlock h (keepsLines_mapLines (keepsNewlines_cut _))

theorem lineCommand_touchesOnly_indent :
    TouchesOnly ⟨units "\na", 1, 2⟩ (LineCommand.indent.run ⟨units "\na", 1, 2⟩) :=
  (lineCommand_touchesOnly_iff ⟨units "\na", 1, 2⟩ ⟨by decide, by decide⟩ .indent).mpr (by decide)

/-- A heading set on an empty first line goes between its newline and another one. -/
theorem heading_doubles_newline : ∃ state : EditorState, state.Valid ∧
    ¬ TouchesOnly state ((LineCommand.heading 1).run state) :=
  ⟨⟨units "\na", 0, 0⟩, ⟨by decide, by decide⟩, fun h =>
    (touchesOnly_replaceBlock ⟨by decide, by decide⟩
      (keepsLines_mapLines (keepsNewlines_headingLine 1))).mp h (by decide)⟩

end Mdock.Editor.Commands
