import Mdock.Editor.Commands

/-! The dispatcher of the package against the commands it dispatches. -/
namespace Mdock.Editor.Commands
open Mdock.Js Mdock.Lib

/-- The document of a view and its main selection. -/
structure View where
  doc : Text
  anchor : Nat
  head : Nat
  anchor_le : anchor ≤ doc.length
  head_le : head ≤ doc.length

namespace View

def start (view : View) : Nat := min view.anchor view.head

def stop (view : View) : Nat := max view.anchor view.head

/-- A transaction of one change and a selection; `none` where it throws. -/
def dispatch (view : View) (c : Change) (anchor head : Nat) : Option View :=
  let doc := view.doc.take c.start ++ c.insert ++ view.doc.drop c.stop
  if h : (c.start ≤ c.stop ∧ c.stop ≤ view.doc.length) ∧ anchor ≤ doc.length ∧ head ≤ doc.length then
    some ⟨doc, anchor, head, h.2.1, h.2.2⟩
  else none

end View

def createMockState (view : View) : EditorState := ⟨view.doc, view.start, view.stop⟩

/-- The view afterwards and the answer; `none` where the transaction throws. -/
def applyCommandToView (random : Text) (view : View) (values : Values) (c : Command) :
    Option (View × Bool) :=
  match executeCommand random (createMockState view) values c with
  | none => some (view, false)
  | some spec =>
    match spec.changes with
    | some change =>
      let selection := spec.selection.getD (view.start, view.stop)
      (view.dispatch change selection.1 selection.2).map fun view' => (view', true)
    | none => some (view, false)

/-- The view takes over what the command computes. -/
def Applies (random : Text) (view : View) (values : Values) (c : Command) : Prop :=
  ∀ r, executeCommand random (createMockState view) values c = some r →
    ∃ view' changed, applyCommandToView random view values c = some (view', changed) ∧
      r.text = some view'.doc ∧ r.selectionStart = some (some (view'.start : Int)) ∧
      r.selectionEnd = some (some (view'.stop : Int)) ∧
      (changed = true ↔ r.text ≠ some view.doc)

/-! ### Where a command changes nothing -/

/-- The selection covers the lines it touches, and `next` leaves them. -/
def KeepsBlock (state : EditorState) (next : Text → Text) : Prop :=
  let block := selectedLineBlock state
  block.start = state.selectionStart ∧ block.stop = state.selectionEnd ∧
    next block.value = block.value

/-- A mark that goes on the lines goes on none of them. -/
def KeepsMark (state : EditorState) (marker : Text) : Prop :=
  betweenMarks state marker = false ∧ marked marker (selectedText state).value = false ∧
    overLines state = true ∧ KeepsBlock state (mapLines (inlineLine marker))

/-- The block is what is selected already, set off as it is to be. -/
def KeepsInsert (state : EditorState) (block : Text) : Prop :=
  blockBefore state = [] ∧ blockAfter state = [] ∧ block = (selectedText state).value

/-- The command has nothing to do. -/
def Idle (state : EditorState) (values : Values) : Command → Prop
  | .paragraph => KeepsBlock state (mapLines stripBlockPrefix)
  | .heading1 => KeepsBlock state (mapLines (headingLine 1))
  | .heading2 => KeepsBlock state (mapLines (headingLine 2))
  | .heading3 => KeepsBlock state (mapLines (headingLine 3))
  | .heading4 => KeepsBlock state (mapLines (headingLine 4))
  | .heading5 => KeepsBlock state (mapLines (headingLine 5))
  | .heading6 => KeepsBlock state (mapLines (headingLine 6))
  | .quote => KeepsBlock state (toggledLines quote)
  | .bulletList => KeepsBlock state (toggledLines bullet)
  | .taskList => KeepsBlock state (toggledLines task)
  | .orderedList => KeepsBlock state orderedLines
  | .taskDone => KeepsBlock state (mapLines taskDoneLine)
  | .indent => KeepsBlock state (mapLines indentLine)
  | .outdent => KeepsBlock state (mapLines outdentLine)
  | .bold => KeepsMark state (units "**")
  | .italic => KeepsMark state (units "*")
  | .strikethrough => KeepsMark state (units "~~")
  | .highlight => KeepsMark state (units "==")
  | .inlineCode => KeepsMark state (inlineCodeMarker state)
  | .comment => KeepsMark state (units "%%")
  | .inlineMath => KeepsMark state (units "$")
  | .horizontalRule => KeepsInsert state (units "---")
  | .table => ∃ rows columns, ((values.get "rows").or (.ofNat 2)).elements = some rows ∧
      ((values.get "cols").or (.ofNat 2)).elements = some columns ∧
      KeepsInsert state (table rows columns)
  | .metadata => ∃ n, frontmatter.find state.text = some n ∧
      frontmatterBlock values = some (state.text.take n)
  | .codeBlock | .link | .image | .wikilink | .embed | .callout | .blockMath | .footnote
  | .blockId => False

/-- The object returns the document and the selection as they are. -/
def Leaves (state : EditorState) (r : Spec) : Prop :=
  r.text = some state.text ∧ r.selectionStart = some (some (state.selectionStart : Int)) ∧
    r.selectionEnd = some (some (state.selectionEnd : Int))

/-- The selection lies in the document. -/
def EditorState.Valid (state : EditorState) : Prop :=
  state.selectionStart ≤ state.selectionEnd ∧ state.selectionEnd ≤ state.text.length

variable {state : EditorState} {v : Text} {p q : Position}

theorem slice_zero (s : Text) (b : Nat) : slice s 0 b = s.take b := by
  simpa using slice_nat s 0 b

theorem leaves_replaceRange {a b : Nat} (hab : a ≤ b) :
    Leaves state (replaceRange state a b v p q) ↔ v = slice state.text a b ∧
      p = some (state.selectionStart : Int) ∧ q = some (state.selectionEnd : Int) := by
  simp only [Leaves, replaceRange, slice_zero, slice_nat, List.take_length, Option.some.injEq,
    splice_eq_self hab]

theorem selectedText_eq (h : state.Valid) : selectedText state =
    ⟨state.selectionStart, state.selectionEnd,
      slice state.text state.selectionStart state.selectionEnd⟩ := by
  simp only [selectedText, Nat.min_eq_left h.1, Nat.max_eq_right h.1]

theorem leaves_replaceSelection (h : state.Valid) :
    Leaves state (replaceSelection state v p q) ↔ v = (selectedText state).value ∧
      p = some (state.selectionStart : Int) ∧ q = some (state.selectionEnd : Int) := by
  simp only [replaceSelection, selectedText_eq h]
  exact leaves_replaceRange h.1

theorem selectedLineBlock_stop (h : state.Valid) :
    state.selectionEnd ≤ (selectedLineBlock state).stop ∧
      (selectedLineBlock state).stop ≤ state.text.length := by
  simp only [selectedLineBlock, selectedText_eq h]
  cases hi : indexOf state.text newline state.selectionEnd with
  | none => exact ⟨h.2, le_rfl⟩
  | some i => exact indexOf_le hi

/-- Lines are left alone where the selection covers them and they come out as they were. -/
theorem leaves_replaceBlock (h : state.Valid) (next : Text → Text) :
    Leaves state (replaceBlock state next) ↔ KeepsBlock state next := by
  obtain ⟨hstop, hlen⟩ := selectedLineBlock_stop h
  have hvalue : (selectedLineBlock state).value =
      slice state.text (selectedLineBlock state).start (selectedLineBlock state).stop := rfl
  have hlength := congrArg List.length hvalue
  rw [slice_nat, List.length_drop, List.length_take, Nat.min_eq_left hlen] at hlength
  constructor
  · intro hl
    have hstart : (selectedLineBlock state).start = state.selectionStart := by
      have hs := hl.2.1
      simp only [replaceBlock, replaceRange, Option.some.injEq, Nat.cast_inj] at hs
      exact hs
    have hle : (selectedLineBlock state).start ≤ (selectedLineBlock state).stop :=
      hstart.le.trans (h.1.trans hstop)
    obtain ⟨hnext, -, hend⟩ := (leaves_replaceRange hle).mp hl
    rw [← hvalue] at hnext
    rw [hnext] at hend
    simp only [Option.some.injEq, Nat.cast_inj] at hend
    exact ⟨hstart, by omega, hnext⟩
  · rintro ⟨hstart, hend, hnext⟩
    have hle : (selectedLineBlock state).start ≤ (selectedLineBlock state).stop := by
      rw [hstart, hend]
      exact h.1
    refine (leaves_replaceRange hle).mpr ⟨hnext.trans hvalue, by rw [hstart], ?_⟩
    simp only [hnext, Option.some.injEq, Nat.cast_inj]
    omega

theorem selectedText_length (h : state.Valid) :
    (selectedText state).value.length = state.selectionEnd - state.selectionStart := by
  simp only [selectedText_eq h, slice_nat, List.length_drop, List.length_take, Nat.min_eq_left h.2]

theorem leaves_setHeading (h : state.Valid) {level : Nat} (hl : 1 ≤ level ∧ level ≤ 6) :
    Leaves state (setHeading state level) ↔ KeepsBlock state (mapLines (headingLine level)) := by
  rw [setHeading, if_neg (by omega)]
  exact leaves_replaceBlock h _

/-- Taking marks away leaves less. -/
theorem unmark_length {marker s : Text} (hs : marked marker s = true) (hm : marker ≠ []) :
    (unmark marker s).length < s.length := by
  simp only [marked, Bool.and_eq_true, decide_eq_true_eq] at hs
  have hpos := List.length_pos_of_ne_nil hm
  have hcast : (s.length - marker.length : Int) = (s.length - marker.length : Nat) := by omega
  rw [unmark, hcast, slice_nat, List.length_drop, List.length_take]
  omega

/-- A mark around the selection, put there or taken away, moves the selection; only lines
that get none leave it. -/
theorem leaves_toggleInlineMark (h : state.Valid) {marker : Text} (hm : marker ≠ []) :
    Leaves state (toggleInlineMark state marker) ↔ KeepsMark state marker := by
  have hpos := List.length_pos_of_ne_nil hm
  have hsel := selectedText_eq h
  rw [toggleInlineMark, KeepsMark]
  split
  · rename_i hb
    simp only [hb, Bool.true_eq_false, false_and, iff_false]
    rintro ⟨-, hs, -⟩
    simp only [replaceRange, hsel, Option.some.injEq] at hs
    omega
  · rename_i hb
    split
    · rename_i hw
      simp only [hw, Bool.true_eq_false, false_and, and_false, iff_false]
      intro hl
      have hshort := unmark_length hw hm
      simp only [hsel] at hl hshort
      rw [((leaves_replaceRange h.1).mp hl).1] at hshort
      omega
    · rename_i hw
      split
      · rename_i ho
        simp only [hb, hw, ho, true_and]
        exact leaves_replaceBlock h _
      · rename_i ho
        simp only [ho, false_and, and_false, iff_false, Bool.false_eq_true]
        intro hl
        have hs := ((leaves_replaceSelection h).mp hl).2.1
        simp only [hsel, Option.some.injEq] at hs
        omega

theorem leaves_insertBlock (h : state.Valid) (block : Text) :
    Leaves state (insertBlock state block) ↔ KeepsInsert state block := by
  have hlen := selectedText_length h
  have hstart : (selectedText state).start = state.selectionStart := by rw [selectedText_eq h]
  simp only [insertBlock, leaves_replaceSelection h, KeepsInsert, hstart, Option.some.injEq,
    Nat.cast_inj]
  constructor
  · rintro ⟨hv, hs, he⟩
    have hb : blockBefore state = [] := List.eq_nil_of_length_eq_zero (by omega)
    rw [hb, List.nil_append] at hv
    have hl := congrArg List.length hv
    rw [List.length_append, hlen] at hl
    have ha : blockAfter state = [] := List.eq_nil_of_length_eq_zero (by omega)
    rw [ha, List.append_nil] at hv
    exact ⟨hb, ha, hv⟩
  · rintro ⟨hb, ha, hv⟩
    have hl := congrArg List.length hv
    have hle := h.1
    rw [hlen] at hl
    refine ⟨by rw [hb, ha, List.nil_append, List.append_nil, hv], by rw [hb]; rfl, ?_⟩
    rw [hb, List.length_nil]
    omega

/-- An insertion that puts the selection elsewhere. -/
theorem not_leaves_moved (h : state.Valid) {n : Nat} (hn : state.selectionStart < n) :
    ¬ Leaves state (replaceSelection state v (some (n : Int)) q) := by
  intro hl
  have hs := ((leaves_replaceSelection h).mp hl).2.1
  simp only [Option.some.injEq, Nat.cast_inj] at hs
  omega

/-- An insertion that is longer than what it stands for. -/
theorem not_leaves_longer (h : state.Valid) (hv : (selectedText state).value.length < v.length) :
    ¬ Leaves state (replaceSelection state v p q) := by
  intro hl
  rw [((leaves_replaceSelection h).mp hl).1] at hv
  exact lt_irrefl _ hv

theorem leaves_ensureFrontmatter {values : Values} {r : Spec}
    (hr : ensureFrontmatter state values = some r) :
    Leaves state r ↔ Idle state values .metadata := by
  obtain ⟨block, hblock, hr⟩ := Option.bind_eq_some_iff.mp hr
  have hne : block ≠ [] := by
    obtain ⟨yaml, -, hb⟩ := Option.bind_eq_some_iff.mp hblock
    cases hb
    simp [units]
  simp only [Idle, hblock, Option.some.injEq]
  split at hr
  · rename_i n hn
    cases hr
    simp only [leaves_replaceRange (Nat.zero_le n), hn, Option.some.injEq, and_true,
      exists_eq_left']
    rw [show slice state.text ((0 : Nat) : Int) n = state.text.take n from slice_zero _ _]
  · rename_i hn
    cases hr
    simp only [hn, false_and, exists_false, iff_false, reduceCtorEq]
    intro hl
    exact hne ((leaves_replaceRange le_rfl).mp hl).1

/-! ### What the dispatcher reads -/

variable {random : Text} {values : Values} {c : Command} {r : Spec}

theorem changes_toggleInlineMark (state : EditorState) (marker : Text) :
    (toggleInlineMark state marker).changes = none := by
  rw [toggleInlineMark]
  split
  · rfl
  · split
    · rfl
    · split <;> rfl

theorem changes_ensureFrontmatter (hr : ensureFrontmatter state values = some r) :
    r.changes = none := by
  obtain ⟨block, -, hr⟩ := Option.bind_eq_some_iff.mp hr
  split at hr <;>
  · cases hr
    rfl

theorem insertReference_settles (h : state.Valid) {sign fallback : Text} {url text : Value}
    (hr : insertReference state sign url text fallback = some r) :
    r.changes = none ∧ ¬ Leaves state r := by
  obtain ⟨label, -, hr⟩ := Option.bind_eq_some_iff.mp hr
  obtain ⟨address, -, hr⟩ := Option.bind_eq_some_iff.mp hr
  cases hr
  refine ⟨rfl, not_leaves_moved h ?_⟩
  rw [selectedText_eq h]
  exact (show state.selectionStart < state.selectionStart + sign.length + 1 by omega)

theorem insertCallout_settles (h : state.Valid) {type title : Value}
    (hr : insertCallout state type title = some r) : r.changes = none ∧ ¬ Leaves state r := by
  obtain ⟨kind, -, hr⟩ := Option.bind_eq_some_iff.mp hr
  obtain ⟨heading, -, hr⟩ := Option.bind_eq_some_iff.mp hr
  cases hr
  refine ⟨rfl, fun hl => ?_⟩
  obtain ⟨hv, -, he⟩ := (leaves_replaceSelection h).mp hl
  have hlen := congrArg List.length hv
  rw [selectedText_length h] at hlen
  simp only [selectedText_eq h, Option.some.injEq, Nat.cast_inj] at he
  simp only [List.length_append] at hlen he
  have hline : (units "\n").length = 1 := rfl
  omega

/-- What a command returns has no `changes`, and leaves document and selection exactly where
the command has nothing to do. -/
theorem executeCommand_settles (h : state.Valid)
    (hr : executeCommand random state values c = some r) :
    r.changes = none ∧ (Leaves state r ↔ Idle state values c) := by
  cases c with
  | paragraph | quote | bulletList | taskList | orderedList | taskDone | indent | outdent =>
    cases hr
    exact ⟨rfl, leaves_replaceBlock h _⟩
  | heading1 | heading2 | heading3 | heading4 | heading5 | heading6 =>
    cases hr
    exact ⟨rfl, leaves_setHeading h (by omega)⟩
  | bold | italic | strikethrough | highlight | comment | inlineMath =>
    cases hr
    exact ⟨changes_toggleInlineMark _ _, leaves_toggleInlineMark h nofun⟩
  | inlineCode =>
    cases hr
    refine ⟨changes_toggleInlineMark _ _, leaves_toggleInlineMark h ?_⟩
    rw [inlineCodeMarker]
    split <;> exact nofun
  | horizontalRule =>
    cases hr
    exact ⟨rfl, leaves_insertBlock h _⟩
  | table =>
    obtain ⟨columns, hc, hr⟩ := Option.bind_eq_some_iff.mp hr
    obtain ⟨rows, hrows, hr⟩ := Option.bind_eq_some_iff.mp hr
    cases hr
    refine ⟨rfl, ?_⟩
    simp only [Idle, hc, hrows, Option.some.injEq, exists_and_left, exists_eq_left']
    exact leaves_insertBlock h _
  | metadata => exact ⟨changes_ensureFrontmatter hr, leaves_ensureFrontmatter hr⟩
  | link | image =>
    obtain ⟨hc, hl⟩ := insertReference_settles h hr
    exact ⟨hc, iff_of_false hl id⟩
  | callout =>
    obtain ⟨hc, hl⟩ := insertCallout_settles h hr
    exact ⟨hc, iff_of_false hl id⟩
  | codeBlock =>
    obtain ⟨lang, -, hr⟩ := Option.bind_eq_some_iff.mp hr
    cases hr
    refine ⟨rfl, iff_of_false (not_leaves_longer h ?_) id⟩
    simp only [List.length_append]
    have hfence : (units "```").length = 3 := rfl
    omega
  | wikilink =>
    obtain ⟨page, -, hr⟩ := Option.bind_eq_some_iff.mp hr
    obtain ⟨value, -, hr⟩ := Option.bind_eq_some_iff.mp hr
    cases hr
    refine ⟨rfl, iff_of_false (not_leaves_moved h ?_) id⟩
    rw [selectedText_eq h]
    exact Nat.lt_add_of_pos_right Nat.two_pos
  | embed =>
    obtain ⟨file, -, hr⟩ := Option.bind_eq_some_iff.mp hr
    cases hr
    refine ⟨rfl, iff_of_false (not_leaves_moved h ?_) id⟩
    rw [selectedText_eq h]
    exact Nat.lt_add_of_pos_right (Nat.succ_pos _)
  | blockMath =>
    cases hr
    refine ⟨rfl, iff_of_false (not_leaves_moved h ?_) id⟩
    rw [selectedText_eq h]
    exact Nat.lt_add_of_pos_right (Nat.succ_pos _)
  | footnote =>
    obtain ⟨name, -, hr⟩ := Option.bind_eq_some_iff.mp hr
    obtain ⟨note, -, hr⟩ := Option.bind_eq_some_iff.mp hr
    cases hr
    refine ⟨rfl, iff_of_false (not_leaves_moved h ?_) id⟩
    have hle := h.1
    rw [selectedText_eq h]
    dsimp only
    omega
  | blockId =>
    obtain ⟨id', -, hr⟩ := Option.bind_eq_some_iff.mp hr
    split at hr
    · cases hr
      refine ⟨rfl, iff_of_false (not_leaves_moved h ?_) id⟩
      rw [selectedText_eq h]
      exact Nat.lt_add_of_pos_right Nat.two_pos
    · cases hr
      refine ⟨rfl, iff_of_false (not_leaves_moved h ?_) id⟩
      rw [selectedText_eq h]
      exact Nat.lt_add_of_pos_right (Nat.succ_pos _)

theorem createMockState_valid (view : View) : (createMockState view).Valid :=
  ⟨min_le_max, max_le view.anchor_le view.head_le⟩

/-- The dispatcher never changes the view. -/
theorem applyCommandToView_eq (random : Text) (view : View) (values : Values) (c : Command) :
    applyCommandToView random view values c = some (view, false) := by
  rw [applyCommandToView]
  cases hr : executeCommand random (createMockState view) values c with
  | none => rfl
  | some r =>
    have hc := (executeCommand_settles (createMockState_valid view) hr).1
    simp only [hc]

/-- The view takes over what a command computes only where the command has nothing to do, or
throws. -/
theorem applyCommandToView_applies (random : Text) (view : View) (values : Values) (c : Command) :
    Applies random view values c ↔ executeCommand random (createMockState view) values c = none ∨
      Idle (createMockState view) values c := by
  rw [Applies]
  cases hr : executeCommand random (createMockState view) values c with
  | none => simp
  | some r =>
    have hi := (executeCommand_settles (createMockState_valid view) hr).2
    rw [← hi]
    simp only [applyCommandToView_eq, Option.some.injEq, Prod.mk.injEq, reduceCtorEq, false_or]
    constructor
    · intro h
      obtain ⟨view', changed, ⟨rfl, rfl⟩, ht, hs, he, -⟩ := h r rfl
      exact ⟨ht, hs, he⟩
    · rintro ⟨ht, hs, he⟩ _ rfl
      exact ⟨view, false, ⟨rfl, rfl⟩, ht, hs, he, iff_of_false nofun (not_not_intro ht)⟩

def hello : View := ⟨units "hello", 0, 5, by decide, by decide⟩

theorem bold_not_applied :
    executeCommand [] (createMockState hello) [] .bold =
      some { text := units "**hello**", selectionStart := some (some 2),
             selectionEnd := some (some 7) } ∧
    applyCommandToView [] hello [] .bold = some (hello, false) ∧ ¬ Applies [] hello [] .bold := by
  have hr : executeCommand [] (createMockState hello) [] .bold =
      some { text := units "**hello**", selectionStart := some (some 2),
             selectionEnd := some (some 7) } := by decide +kernel
  have hview := applyCommandToView_eq [] hello [] .bold
  refine ⟨hr, hview, fun h => ?_⟩
  obtain ⟨view', changed, heq, ht, -⟩ := h _ hr
  rw [hview] at heq
  cases heq
  exact absurd ht (by decide +kernel)

end Mdock.Editor.Commands
