import Mdock.Editor.Toolbar

/-! The selections that the commands return. -/
namespace Mdock.Editor.Commands
open Mdock.Js Mdock.Lib

/-- The commands that the module exports, with their parameters; `random` is what `Math.random`
gives for a block without an id. -/
inductive Exported
  | inlineMark (marker : Text) | inlineCode | heading (level : Nat) | paragraph | blockquote
  | bulletList | orderedList | taskList | taskDone | indent | outdent
  | codeBlock (language : Text) | horizontalRule | table (rows columns : Value)
  | link (url label : Text) | image (url alt : Text) | wikilink (target aliasText : Text)
  | embed (target : Text) | callout (type title : Text) | inlineMath | blockMath
  | footnote (id text : Text) | blockId (random id : Text) | comment
  | metadata (entries : Values)

def Exported.run (state : EditorState) : Exported → Option Spec
  | .inlineMark marker => some (toggleInlineMark state marker)
  | .inlineCode => some (toggleInlineCode state)
  | .heading level => some (setHeading state level)
  | .paragraph => some (setParagraph state)
  | .blockquote => some (toggleBlockquote state)
  | .bulletList => some (toggleBulletList state)
  | .orderedList => some (toggleOrderedList state)
  | .taskList => some (toggleTaskList state)
  | .taskDone => some (toggleTaskDone state)
  | .indent => some (indentLines state)
  | .outdent => some (outdentLines state)
  | .codeBlock language => insertCodeBlock state (.ofText language)
  | .horizontalRule => some (insertHorizontalRule state)
  | .table rows columns => insertTable state rows columns
  | .link url label => insertMarkdownLink state (.ofText url) (.ofText label)
  | .image url alt => insertImage state (.ofText url) (.ofText alt)
  | .wikilink target aliasText => insertWikilink state (.ofText target) (.ofText aliasText)
  | .embed target => insertEmbed state (.ofText target)
  | .callout type title => insertCallout state (.ofText type) (.ofText title)
  | .inlineMath => some (insertInlineMath state)
  | .blockMath => some (insertBlockMath state)
  | .footnote id text => insertFootnote state (.ofText id) (.ofText text)
  | .blockId random id => insertBlockId random state (.ofText id)
  | .comment => some (toggleComment state)
  | .metadata entries => ensureFrontmatter state entries

/-- A text and a selection that lies in it. -/
def Spec.InBounds (r : Spec) : Prop :=
  ∃ (text : Text) (s e : Nat), r.text = some text ∧ r.selectionStart = some (some (s : Int)) ∧
    r.selectionEnd = some (some (e : Int)) ∧ s ≤ e ∧ e ≤ text.length

/-- The length of the lines that entries become, each with its newline. -/
def yamlLength : Values → Option Nat
  | [] => some 0
  | entry :: entries => do
    let value ← formatYamlValue entry.2
    let n ← yamlLength entries
    return entry.1.length + 2 + value.length + 1 + n

/-- A table has a number of rows and columns that an array can have, and entries can be turned into
text, which is not too short for the front matter that it replaces. -/
def Exported.Fits (state : EditorState) : Exported → Prop
  | .table rows columns => rows.elements.isSome = true ∧ columns.elements.isSome = true
  | .metadata entries => ∃ n, yamlLength entries = some n ∧
      ∀ m ∈ frontmatter.find state.text, state.selectionEnd + m ≤ max 1 n + 8 + state.text.length
  | _ => True

section
variable {state : EditorState} {v : Text} {p q : Position}

theorem inBounds_replaceRange {a b : Nat} : (replaceRange state a b v p q).InBounds ↔
    ∃ s e : Nat, p = some (s : Int) ∧ q = some (e : Int) ∧ s ≤ e ∧
      e ≤ min a state.text.length + v.length + (state.text.length - b) := by
  simp only [Spec.InBounds, replaceRange, slice_zero, slice_nat, List.take_length,
    Option.some.injEq, exists_and_left, exists_eq_left', List.length_append, List.length_take,
    List.length_drop]

theorem inBounds_replaceSelection (h : state.Valid) (s e : Nat) (hp : p = some (s : Int))
    (hq : q = some (e : Int)) (hse : s ≤ e) (he : e ≤ state.selectionStart + v.length) :
    (replaceSelection state v p q).InBounds := by
  have hlen := Nat.le_trans h.1 h.2
  simp only [replaceSelection, selectedText_eq h]
  refine inBounds_replaceRange.mpr ⟨s, e, hp, hq, hse, ?_⟩
  rw [Nat.min_eq_left hlen]
  omega

/-- The lines put for a block are selected. -/
theorem inBounds_replaceBlock (state : EditorState) (next : Text → Text) :
    (replaceBlock state next).InBounds := by
  have hstart : (selectedLineBlock state).start ≤ state.text.length := by
    have hlast : (selectedLineBlock state).start =
        (lastIndexOf state.text newline ((selectedText state).start - 1)).elim 0 (· + 1) := rfl
    rw [hlast]
    cases hi : lastIndexOf state.text newline ((selectedText state).start - 1) with
    | none => exact Nat.zero_le _
    | some i => exact (List.getElem?_eq_some_iff.mp (lastIndexOf_eq_some.mp hi).2.1).1
  refine inBounds_replaceRange.mpr ⟨_, _, rfl, rfl, Nat.le_add_right _ _, ?_⟩
  rw [Nat.min_eq_left hstart]
  exact Nat.le_add_right _ _

theorem inBounds_insertBlock (h : state.Valid) (block : Text) :
    (insertBlock state block).InBounds := by
  simp only [insertBlock, selectedText_eq h]
  refine inBounds_replaceSelection h _ _ rfl rfl (Nat.le_add_right _ _) ?_
  simp only [List.length_append]
  omega

theorem inBounds_toggleInlineMark (h : state.Valid) (marker : Text) :
    (toggleInlineMark state marker).InBounds := by
  have hlen := Nat.le_trans h.1 h.2
  have hvalue : (slice state.text state.selectionStart state.selectionEnd).length =
      state.selectionEnd - state.selectionStart := by
    rw [slice_nat, List.length_drop, List.length_take, Nat.min_eq_left h.2]
  simp only [toggleInlineMark, selectedText_eq h]
  split_ifs with hbetween hmarked hover
  · have hmark : marker.length ≤ state.selectionStart := by
      have hlength := congrArg List.length (of_decide_eq_true hbetween).1
      simp only [selectedText_eq h, slice, List.length_drop, List.length_take, clamp_nat] at hlength
      omega
    refine inBounds_replaceRange.mpr ⟨state.selectionStart - marker.length,
      state.selectionEnd - marker.length, by rw [Nat.cast_sub hmark],
      by rw [Nat.cast_sub (Nat.le_trans hmark h.1)], Nat.sub_le_sub_right h.1 _, ?_⟩
    rw [hvalue]
    omega
  · refine inBounds_replaceRange.mpr ⟨_, _, rfl, rfl, Nat.le_add_right _ _, ?_⟩
    omega
  · exact inBounds_replaceBlock state _
  · refine inBounds_replaceSelection h _ _ rfl rfl (Nat.add_le_add_right h.1 _) ?_
    simp only [List.length_append, hvalue]
    omega

/-! ### Strings -/

theorem ofText_or (s t : Text) :
    (Value.ofText s).or (.ofText t) = .ofText (if s = [] then t else s) := by
  unfold Value.or Value.ofText
  by_cases hs : s = [] <;> simp [hs]

theorem inBounds_codeBlock (h : state.Valid) (language : Text) :
    ∃ r, insertCodeBlock state (.ofText language) = some r ∧ r.InBounds := by
  refine ⟨_, rfl, inBounds_replaceSelection h (state.selectionStart + 4 + language.length)
    (state.selectionStart + 4 + language.length + (selectedText state).value.length) ?_ ?_
    (Nat.le_add_right _ _) ?_⟩
  · simp [Value.ofText, selectedText_eq h]
  · simp [Value.ofText, selectedText_eq h]
  · simp [units]
    omega

theorem inBounds_reference (h : state.Valid) (sign fallback url text : Text) :
    ∃ r, insertReference state sign (.ofText url) (.ofText text) fallback = some r ∧
      r.InBounds := by
  simp only [insertReference, ofText_or]
  generalize (if (if text = [] then (selectedText state).value else text) = [] then fallback
    else if text = [] then (selectedText state).value else text) = label
  refine ⟨_, rfl, inBounds_replaceSelection h (state.selectionStart + sign.length + 1)
    (state.selectionStart + sign.length + 1 + label.length) ?_ ?_ (Nat.le_add_right _ _) ?_⟩
  · simp [selectedText_eq h]
  · simp [Value.ofText, selectedText_eq h]
  · simp [units]
    omega

theorem inBounds_wikilink (h : state.Valid) (target aliasText : Text) :
    ∃ r, insertWikilink state (.ofText target) (.ofText aliasText) = some r ∧ r.InBounds := by
  simp only [insertWikilink, ofText_or]
  generalize (if (if target = [] then (selectedText state).value else target) = [] then
    units "Page" else if target = [] then (selectedText state).value else target) = page
  have htemplate : (Value.ofText page).template = some page := rfl
  obtain ⟨value, hvalue, hlen⟩ : ∃ value, (if (Value.ofText aliasText).truthy then
      (Value.ofText aliasText).template.map fun name => units "[[" ++ page ++ units "|" ++ name ++
        units "]]"
      else some (units "[[" ++ page ++ units "]]")) = some value ∧
        2 + page.length ≤ value.length := by
    split_ifs
    · refine ⟨_, rfl, ?_⟩
      simp [units]
      omega
    · refine ⟨_, rfl, ?_⟩
      simp [units]
      omega
  simp only [htemplate, Option.bind_eq_bind, Option.bind_some, hvalue]
  refine ⟨_, rfl, inBounds_replaceSelection h (state.selectionStart + 2)
    (state.selectionStart + 2 + page.length) ?_ ?_ (Nat.le_add_right _ _) (by omega)⟩
  · simp [selectedText_eq h]
  · simp [Value.ofText, selectedText_eq h]

theorem inBounds_embed (h : state.Valid) (target : Text) :
    ∃ r, insertEmbed state (.ofText target) = some r ∧ r.InBounds := by
  simp only [insertEmbed, ofText_or]
  generalize (if (if target = [] then (selectedText state).value else target) = [] then
    units "File" else if target = [] then (selectedText state).value else target) = file
  refine ⟨_, rfl, inBounds_replaceSelection h (state.selectionStart + 3)
    (state.selectionStart + 3 + file.length) ?_ ?_ (Nat.le_add_right _ _) ?_⟩
  · simp [selectedText_eq h]
  · simp [selectedText_eq h, units]
    omega
  · simp [units]
    omega

theorem inBounds_callout (h : state.Valid) (type title : Text) :
    ∃ r, insertCallout state (.ofText type) (.ofText title) = some r ∧ r.InBounds := by
  obtain ⟨heading, hheading⟩ : ∃ heading, (if (Value.ofText title).truthy then
      (Value.ofText title).template.map (units " " ++ ·) else some []) = some heading := by
    split_ifs <;> exact ⟨_, rfl⟩
  have htemplate : (Value.ofText type).template = some type := rfl
  simp only [insertCallout, htemplate, Option.bind_eq_bind, Option.bind_some, hheading]
  refine ⟨_, rfl, inBounds_replaceSelection h _ _ rfl rfl (Nat.le_add_right _ _) ?_⟩
  simp only [selectedText_eq h, List.length_append]
  omega

theorem inBounds_footnote (h : state.Valid) (id text : Text) :
    ∃ r, insertFootnote state (.ofText id) (.ofText text) = some r ∧ r.InBounds := by
  have hvalue := selectedText_length h
  have hle := h.1
  refine ⟨_, rfl, inBounds_replaceSelection h
    (state.selectionEnd + (units "[^" ++ id ++ units "]").length + 2)
    (state.selectionEnd + (units "[^" ++ id ++ units "]").length + 2 + text.length) ?_ ?_
    (Nat.le_add_right _ _) ?_⟩
  · rw [selectedText_eq h]
  · simp only [selectedText_eq h, Value.ofText, Option.map_some]
    rfl
  · simp [units, hvalue]
    omega

theorem inBounds_blockId (h : state.Valid) (random id : Text) :
    ∃ r, insertBlockId random state (.ofText id) = some r ∧ r.InBounds := by
  simp only [insertBlockId, ofText_or]
  generalize (if id = [] then units "block-" ++ random else id) = name
  have htemplate : (Value.ofText name).template = some name := rfl
  rw [htemplate, Option.bind_eq_bind, Option.bind_some]
  split_ifs with hvalue
  · refine ⟨_, rfl, inBounds_replaceSelection h _ _ rfl rfl (Nat.le_add_right _ _) ?_⟩
    simp [selectedText_eq h, units]
    omega
  · refine ⟨_, rfl, inBounds_replaceSelection h _ _ rfl rfl (Nat.le_refl _) ?_⟩
    rw [selectedText_eq h]

/-! ### Front matter -/

/-- The lines of the entries. -/
def yaml (entries : Values) : Option (List Text) :=
  entries.mapM fun e => (formatYamlValue e.2).map fun v => e.1 ++ units ": " ++ v

theorem yaml_cons (e : Text × Value) (entries : Values) : yaml (e :: entries) = do
    let v ← formatYamlValue e.2
    let ls ← yaml entries
    return (e.1 ++ units ": " ++ v) :: ls := by
  rw [yaml, List.mapM_cons]
  cases formatYamlValue e.2 <;> rfl

theorem length_yaml (entries : Values) : yamlLength entries =
    (yaml entries).map fun ls => (join [newline] ls).length + (if ls = [] then 0 else 1) := by
  induction entries with
  | nil => rfl
  | cons e entries ih =>
    rw [yamlLength, yaml_cons, ih]
    cases formatYamlValue e.2 with
    | none => rfl
    | some v =>
      cases yaml entries with
      | none => rfl
      | some ls =>
        cases ls with
        | nil =>
          simp [join, units]
          omega
        | cons l ls =>
          simp [join, List.intercalate_cons_cons, units]
          omega

theorem length_frontmatterBlock (entries : Values) : (frontmatterBlock entries).map List.length =
    (yamlLength entries).map fun n => max 1 n + 8 := by
  rw [length_yaml, frontmatterBlock, ← yaml]
  cases yaml entries with
  | none => rfl
  | some ls =>
    simp only [Option.bind_eq_bind, Option.bind_some, Option.pure_def, Option.map_some,
      Option.some.injEq]
    split_ifs with hls
    · subst hls
      rfl
    · simp [units]

theorem inBounds_metadata (h : state.Valid) (entries : Values) :
    (∃ r, ensureFrontmatter state entries = some r ∧ r.InBounds) ↔
      (Exported.metadata entries).Fits state := by
  have hlen := length_frontmatterBlock entries
  rw [Exported.Fits, ensureFrontmatter]
  cases hb : frontmatterBlock entries with
  | none =>
    rw [hb, Option.map_none, eq_comm, Option.map_eq_none_iff] at hlen
    simp [hlen]
  | some block =>
    rw [hb, Option.map_some, eq_comm, Option.map_eq_some_iff] at hlen
    obtain ⟨n, hn, hlen⟩ := hlen
    simp only [Option.bind_eq_bind, Option.bind_some, hn, Option.some.injEq, exists_eq_left', hlen]
    have hstart := h.1
    have hstop := h.2
    cases hfind : frontmatter.find state.text with
    | none =>
      refine iff_of_true ⟨_, rfl, inBounds_replaceRange.mpr ⟨_, _, rfl, rfl,
        Nat.add_le_add_right h.1 _, ?_⟩⟩ (by simp)
      omega
    | some m =>
      have hm : m ≤ state.text.length := frontmatter.ends_le _ (List.mem_of_mem_head? hfind)
      constructor
      · rintro ⟨r, hr, hin⟩ k hk
        rw [← Option.some.inj hr] at hin
        obtain rfl : m = k := Option.some.inj hk
        obtain ⟨s, e, hs, he, -, hle⟩ := inBounds_replaceRange.mp hin
        obtain rfl : state.selectionEnd = e := by simpa using he
        omega
      · intro hfits
        have hbound := hfits m rfl
        refine ⟨_, rfl, inBounds_replaceRange.mpr ⟨_, _, rfl, rfl, h.1, ?_⟩⟩
        omega

/-- A command returns a selection of the text it returns, except that a front matter put for a
longer one leaves the selection where it was. -/
theorem run_inBounds_iff (state : EditorState) (h : state.Valid) (c : Exported) :
    (∃ r, c.run state = some r ∧ r.InBounds) ↔ c.Fits state := by
  have hblock : ∀ next, (∃ r, some (replaceBlock state next) = some r ∧ r.InBounds) ↔ True :=
    fun next => iff_true_intro ⟨_, rfl, inBounds_replaceBlock state next⟩
  have hmark : ∀ marker, (∃ r, some (toggleInlineMark state marker) = some r ∧ r.InBounds) ↔ True :=
    fun marker => iff_true_intro ⟨_, rfl, inBounds_toggleInlineMark h marker⟩
  cases c with
  | inlineMark marker => exact hmark marker
  | inlineCode => exact hmark _
  | comment => exact hmark _
  | inlineMath => exact hmark _
  | heading level =>
    rw [Exported.run, setHeading]
    split_ifs
    · exact hblock _
    · exact hblock _
  | paragraph => exact hblock _
  | blockquote => exact hblock _
  | bulletList => exact hblock _
  | orderedList => exact hblock _
  | taskList => exact hblock _
  | taskDone => exact hblock _
  | indent => exact hblock _
  | outdent => exact hblock _
  | codeBlock language => exact iff_true_intro (inBounds_codeBlock h language)
  | horizontalRule => exact iff_true_intro ⟨_, rfl, inBounds_insertBlock h _⟩
  | table rows columns =>
    rw [Exported.Fits, Exported.run, insertTable]
    cases columns.elements with
    | none => simp
    | some n =>
      cases rows.elements with
      | none => simp
      | some m => exact iff_of_true ⟨_, rfl, inBounds_insertBlock h _⟩ ⟨rfl, rfl⟩
  | link url label => exact iff_true_intro (inBounds_reference h _ _ url label)
  | image url alt => exact iff_true_intro (inBounds_reference h _ _ url alt)
  | wikilink target aliasText => exact iff_true_intro (inBounds_wikilink h target aliasText)
  | embed target => exact iff_true_intro (inBounds_embed h target)
  | callout type title => exact iff_true_intro (inBounds_callout h type title)
  | blockMath =>
    refine iff_true_intro
      ⟨_, rfl, inBounds_replaceSelection h _ _ rfl rfl (Nat.le_add_right _ _) ?_⟩
    simp [selectedText_eq h, units]
    omega
  | footnote id text => exact iff_true_intro (inBounds_footnote h id text)
  | blockId random id => exact iff_true_intro (inBounds_blockId h random id)
  | metadata entries => exact inBounds_metadata h entries

theorem run_inBounds_bold : ∃ r, (Exported.inlineMark (units "**")).run ⟨units "a", 0, 1⟩ = some r ∧
    r.InBounds :=
  (run_inBounds_iff ⟨units "a", 0, 1⟩ ⟨by decide, by decide⟩ (.inlineMark (units "**"))).mpr trivial

/-- With the caret at the end, a shorter front matter leaves it behind the end. -/
theorem metadata_out_of_bounds : ∃ (state : EditorState) (c : Exported), state.Valid ∧
    ¬ ∃ r, c.run state = some r ∧ r.InBounds := by
  have hvalid : EditorState.Valid ⟨units "---\ntags: [a]\n---\n", 18, 18⟩ :=
    ⟨by decide, by decide⟩
  refine ⟨_, .metadata [], hvalid, fun hrun => ?_⟩
  obtain ⟨n, hn, hfits⟩ := (inBounds_metadata hvalid []).mp hrun
  obtain rfl : 0 = n := Option.some.inj hn
  exact absurd (hfits 18 (by decide)) (by decide)

end

end Mdock.Editor.Commands
