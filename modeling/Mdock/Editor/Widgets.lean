import Mdock.Editor.Fences
import Mdock.Editor.Lookup

/-! The widgets that show rendered Markdown: the front matter they set apart, and when one is
kept for another. -/
namespace Mdock.Editor.Blocks
open Mdock.Js Mdock.Lib

/-! ### Front matter -/

structure Parts where
  frontmatter : Text
  body : Text

def splitFrontmatter (content : Text) : Parts :=
  if startsWith content (units "---\n") then
    match indexOfText content (units "\n---") 4 with
    | none => ⟨[], content⟩
    | some stop =>
      ⟨trim (slice content 4 stop), match indexOf content newline (stop + 4) with
        | none => []
        | some bodyStart => slice content (bodyStart + 1 : Nat) content.length⟩
  else ⟨[], content⟩

/-- The front matter is set apart where the splitter makes a block of it, and the body is what
comes behind the line this block ends with. -/
def FrontmatterAgrees (random : Nat → Text) (content : Text) : Prop :=
  ((splitFrontmatter content).body ≠ content ↔
    ∃ b, (splitBlocks random content).head? = some b ∧ b.type = .frontmatter) ∧
  ∀ b, (splitBlocks random content).head? = some b → b.type = .frontmatter →
    (splitFrontmatter content).body = content.drop (b.sourceTo + 1)

variable {random : Nat → Text} {content : Text} {ls : List Text} {i j : Nat}

def dashes : Text := units "---"

theorem newline_notMem_dashes : newline ∉ dashes := by decide

/-- A document begins with a line of dashes that is not its last. -/
theorem startsWith_dashes : startsWith content (units "---\n") = true ↔
    lineAt (lines content) 0 = dashes ∧ 1 < (lines content).length := by
  have hunits : units "---\n" = dashes ++ [newline] := by decide
  rw [startsWith, List.isPrefixOf_iff_prefix, hunits]
  constructor
  · rintro ⟨rest, rfl⟩
    have hlines : lines (dashes ++ [newline] ++ rest) = dashes :: lines rest := by
      rw [lines, List.append_assoc, List.singleton_append, List.splitOn_append_cons_self,
        List.splitOn_eq_singleton newline_notMem_dashes]
      rfl
    rw [hlines]
    exact ⟨rfl, Nat.lt_add_of_pos_left (List.length_pos_iff.mpr (lines_ne_nil rest))⟩
  · rintro ⟨hfirst, hlen⟩
    have hjoin := join_lines content
    cases hls : lines content with
    | nil => simp [hls] at hlen
    | cons l ls =>
      cases ls with
      | nil => simp [hls] at hlen
      | cons l' ls =>
        obtain rfl : l = dashes := by simpa [hls, lineAt] using hfirst
        rw [hls, List.intercalate_cons_cons] at hjoin
        exact ⟨_, hjoin⟩

/-- The search for the closing dashes finds the next line that begins with them, from the third
on. -/
theorem indexOf_dashes (h : lineAt (lines content) 0 = dashes) :
    indexOfText content (units "\n---") 4 =
      (nextLine (lines content) 1 fun l => startsWith l dashes).map fun j =>
        lineEnd (lines content) (j - 1) := by
  have hfirst : lineEnd (lines content) 0 = 3 := by
    rw [lineEnd, h, pieceStart_zero]
    rfl
  have hunits : units "\n---" = newline :: dashes := by decide
  have hsecond : ∀ i, 4 ≤ lineEnd (lines content) i → 1 ≤ i := fun i hle => by
    by_contra hlt
    obtain rfl : i = 0 := by omega
    omega
  rw [hunits]
  cases hnext : nextLine (lines content) 1 fun l => startsWith l dashes with
  | none =>
    refine List.find?_eq_none.mpr fun q hq hstart => ?_
    obtain ⟨i, hi, rfl, hline⟩ := (startsWith_newline newline_notMem_dashes).mp hstart
    have hle := hsecond i (List.mem_range'_1.mp hq).1
    simp [nextLine_eq_none.mp hnext (i + 1) (by omega) hi] at hline
  | some j =>
    obtain ⟨hj, hlt, hline, hbefore⟩ := nextLine_eq_some.mp hnext
    obtain ⟨j, rfl⟩ : ∃ k, j = k + 1 := ⟨j - 1, by omega⟩
    refine List.find?_range'_eq_some.mpr ⟨?_, List.mem_range'_1.mpr ?_, fun q hq hqlt => ?_⟩
    · exact (startsWith_newline newline_notMem_dashes).mpr ⟨j, hlt, rfl, hline⟩
    · have hpos := lineEnd_lt (L := lines content) (i := 0) (k := j) (by omega) (by omega)
      have hstart : pieceStart (lines content) j ≤ lineEnd (lines content) j := Nat.le_add_right _ _
      have hlen := lineEnd_le_length (s := content) (i := j) (by omega)
      simp only [Nat.add_sub_cancel]
      omega
    · rw [Bool.not_eq_true', ← Bool.not_eq_true]
      intro hstart
      obtain ⟨i, hi, rfl, hline'⟩ := (startsWith_newline newline_notMem_dashes).mp hstart
      have hle := hsecond i hq
      have hij : i < j := by
        by_contra hij
        have := lineEnd_mono (L := lines content) (Nat.le_of_not_lt hij) (by omega)
        simp only [Nat.add_sub_cancel] at hqlt
        omega
      simp [hbefore (i + 1) (by omega) (by omega)] at hline'

/-- The body begins behind the line of the closing dashes. -/
theorem body_eq (h : lineAt (lines content) 0 = dashes) : (splitFrontmatter content).body =
    ((nextLine (lines content) 1 fun l => startsWith l dashes).map fun j =>
      content.drop (lineEnd (lines content) j + 1)).getD content := by
  by_cases hlen : 1 < (lines content).length
  · rw [splitFrontmatter, if_pos (startsWith_dashes.mpr ⟨h, hlen⟩), indexOf_dashes h]
    cases hnext : nextLine (lines content) 1 fun l => startsWith l dashes with
    | none => rfl
    | some j =>
      obtain ⟨hj, hlt, hline, -⟩ := nextLine_eq_some.mp hnext
      have hthree : 3 ≤ (lineAt (lines content) j).length :=
        (List.isPrefixOf_iff_prefix.mp hline).length_le
      have hbegin : lineEnd (lines content) (j - 1) + 4 = pieceStart (lines content) j + 3 := by
        have := pieceStart_next (L := lines content) (i := j - 1) (by omega)
        rw [Nat.sub_add_cancel (by omega)] at this
        omega
      simp only [Option.map_some, Option.getD_some]
      rw [hbegin, indexOf_newline hlt (Nat.le_add_right _ _) (Nat.add_le_add_left hthree _)]
      split_ifs with hlast
      · simp only [slice_nat, List.take_length]
      · rw [lineEnd_last (by omega), List.drop_eq_nil_of_le (Nat.le_succ _)]
  · have hnone : nextLine (lines content) 1 (fun l => startsWith l dashes) = none :=
      nextLine_eq_none.mpr fun k h₁ h₂ => absurd h₂ (by omega)
    rw [splitFrontmatter, if_neg (fun hstart => hlen (startsWith_dashes.mp hstart).2), hnone]
    rfl

theorem frontmatterEnd_eq (h : lineAt ls 0 = dashes) :
    frontmatterEnd ls = nextLine ls 0 fun l => decide (l = dashes) := by
  refine Option.ext fun j => ?_
  rw [frontmatterEnd, if_pos (show lineAt ls 0 = units "---" from h), nextLine_eq_some,
    List.find?_range_eq_some]
  simp only [decide_eq_true_iff, List.mem_range, decide_eq_false_iff_not]
  constructor
  · rintro ⟨⟨hpos, hline⟩, hlt, hbefore⟩
    refine ⟨hpos, hlt, hline, fun k hk hkj hdash => ?_⟩
    simpa [hk, show lineAt ls k = units "---" from hdash] using hbefore k hkj
  · rintro ⟨hpos, hlt, hline, hbefore⟩
    refine ⟨⟨hpos, hline⟩, hlt, fun k hkj => ?_⟩
    rw [Bool.not_eq_true', decide_eq_false_iff_not]
    exact fun h => hbefore k h.1 hkj h.2

theorem blockFrom_type (ls : List Text) (i : Nat) : (blockFrom ls i).1.type ≠ .frontmatter := by
  unfold blockFrom
  simp only
  split_ifs <;> simp

/-- The first block is front matter where the splitter finds the end of one. -/
theorem head_frontmatter (random : Nat → Text) (content : Text) (b : SplitBlock) :
    (splitBlocks random content).head? = some b ∧ b.type = .frontmatter →
      ∃ last, frontmatterEnd (lines content) = some last ∧
        b.sourceTo = lineEnd (lines content) last := by
  rintro ⟨hhead, htype⟩
  rw [splitBlocks_eq, splitLines] at hhead
  cases hend : frontmatterEnd (lines content) with
  | some last =>
    rw [hend] at hhead
    obtain rfl := Option.some.inj hhead
    exact ⟨last, rfl, rfl⟩
  | none =>
    rw [hend] at hhead
    obtain ⟨r, hr, hshows⟩ := exists_stretch 0 (List.mem_of_mem_head? hhead)
    have hfrom := (mem_blocksFrom hr).2
    refine absurd ?_ (blockFrom_type (lines content) r.first)
    rw [← hfrom, ← hshows.1, htype]

theorem exists_head_frontmatter (random : Nat → Text) {last : Nat}
    (h : frontmatterEnd (lines content) = some last) :
    ∃ b, (splitBlocks random content).head? = some b ∧ b.type = .frontmatter ∧
      b.sourceTo = lineEnd (lines content) last := by
  rw [splitBlocks_eq, splitLines, h]
  exact ⟨_, rfl, rfl, rfl⟩

/-- Behind two lines that are not empty stands the same text only if they are one. -/
theorem drop_lineEnd_inj (hi : i < (lines content).length) (hj : j < (lines content).length)
    (hi' : 0 < (lineAt (lines content) i).length) (hj' : 0 < (lineAt (lines content) j).length)
    (h : content.drop (lineEnd (lines content) i + 1) = content.drop (lineEnd (lines content) j + 1)) :
    i = j := by
  have hlen := congrArg List.length h
  rw [List.length_drop, List.length_drop] at hlen
  have hendi := lineEnd_le_length hi
  have hendj := lineEnd_le_length hj
  have hstarti : lineEnd (lines content) i = pieceStart (lines content) i + _ := rfl
  have hstartj : lineEnd (lines content) j = pieceStart (lines content) j + _ := rfl
  rcases Nat.lt_trichotomy i j with hij | hij | hij
  · have := lineEnd_lt hij hi
    omega
  · exact hij
  · have := lineEnd_lt hij hj
    omega

/-- Both readers agree in terms of the lines where they end. -/
theorem frontmatterAgrees_of_dashes (h : lineAt (lines content) 0 = dashes) :
    FrontmatterAgrees random content ↔
      nextLine (lines content) 1 (fun l => startsWith l dashes) =
        nextLine (lines content) 0 fun l => decide (l = dashes) := by
  have hpos : 0 < content.length := by
    have hlen := lineEnd_le_length (s := content) (i := 0)
      (List.length_pos_iff.mpr (lines_ne_nil content))
    rw [lineEnd, h, pieceStart_zero] at hlen
    exact Nat.lt_of_lt_of_le (by decide) hlen
  have hdrop : ∀ k, content.drop (k + 1) ≠ content := fun k heq => by
    have := congrArg List.length heq
    rw [List.length_drop] at this
    omega
  have hend := frontmatterEnd_eq h
  have hhead : (∃ b, (splitBlocks random content).head? = some b ∧ b.type = .frontmatter) ↔
      frontmatterEnd (lines content) ≠ none := by
    constructor
    · rintro ⟨b, hb⟩
      obtain ⟨last, hlast, -⟩ := head_frontmatter random content b hb
      simp [hlast]
    · intro hne
      obtain ⟨last, hlast⟩ := Option.ne_none_iff_exists'.mp hne
      obtain ⟨b, hb, htype, -⟩ := exists_head_frontmatter random hlast
      exact ⟨b, hb, htype⟩
  rw [FrontmatterAgrees, hhead, body_eq h, hend]
  cases hopen : nextLine (lines content) 1 fun l => startsWith l dashes with
  | none =>
    cases hclose : nextLine (lines content) 0 fun l => decide (l = dashes) with
    | none =>
      have hnone : ∀ b, (splitBlocks random content).head? = some b → b.type ≠ .frontmatter :=
        fun b hb htype => hhead.mp ⟨b, hb, htype⟩ (hend.trans hclose)
      simpa using fun b hb htype => absurd htype (hnone b hb)
    | some e => simp
  | some j =>
    cases hclose : nextLine (lines content) 0 fun l => decide (l = dashes) with
    | none => simp [hdrop]
    | some e =>
      obtain ⟨-, hj, hjline, -⟩ := nextLine_eq_some.mp hopen
      obtain ⟨-, he, heline, -⟩ := nextLine_eq_some.mp hclose
      have hjpos : 0 < (lineAt (lines content) j).length :=
        Nat.lt_of_lt_of_le (by decide) (List.isPrefixOf_iff_prefix.mp hjline).length_le
      have hepos : 0 < (lineAt (lines content) e).length := by
        rw [of_decide_eq_true heline]
        decide
      simp only [Option.map_some, Option.getD_some, ne_eq, hdrop, not_false_eq_true, reduceCtorEq,
        Option.some.injEq, true_and]
      constructor
      · intro hbody
        obtain ⟨b, hb, htype, hto⟩ := exists_head_frontmatter random (hend.trans hclose)
        have hsame := hbody b hb htype
        rw [hto] at hsame
        exact drop_lineEnd_inj hj he hjpos hepos hsame
      · rintro rfl b hb htype
        obtain ⟨last, hlast, hto⟩ := head_frontmatter random content b ⟨hb, htype⟩
        rw [hto, Option.some.inj (hlast.symm.trans (hend.trans hclose))]

/-- The two readers agree where the document does not begin with dashes, and otherwise where the
second line is not dashes and the next line that begins with dashes is nothing but dashes. -/
theorem frontmatter_agrees_iff (random : Nat → Text) (content : Text) :
    FrontmatterAgrees random content ↔ lineAt (lines content) 0 ≠ dashes ∨
      (lineAt (lines content) 1 ≠ dashes ∧ ∀ j,
        nextLine (lines content) 1 (fun l => startsWith l dashes) = some j →
          lineAt (lines content) j = dashes) := by
  by_cases h : lineAt (lines content) 0 = dashes
  · rw [frontmatterAgrees_of_dashes h, or_iff_right (not_not_intro h)]
    have hskip : ∀ {l}, startsWith l dashes = false → decide (l = dashes) = false := fun hl =>
      decide_eq_false fun heq => absurd hl (by rw [heq]; decide)
    constructor
    · intro heq
      refine ⟨fun hsecond => ?_, fun j hj => ?_⟩
      · have hlt : 1 < (lines content).length := by
          by_contra hle
          have hnil : lineAt (lines content) 1 = [] := by simp [lineAt, Nat.le_of_not_lt hle]
          exact absurd (hnil.symm.trans hsecond) (by decide)
        have hone := nextLine_eq_some (p := fun l => decide (l = dashes)).mpr
          ⟨Nat.zero_lt_one, hlt, decide_eq_true hsecond, fun k h₁ h₂ => absurd h₁ (by omega)⟩
        exact absurd (nextLine_eq_some.mp (heq.trans hone)).1 (Nat.lt_irrefl 1)
      · exact of_decide_eq_true (nextLine_eq_some.mp (heq.symm.trans hj)).2.2.1
    · rintro ⟨hsecond, hexact⟩
      have hbefore : ∀ k, 0 < k → (1 < k → startsWith (lineAt (lines content) k) dashes = false) →
          decide (lineAt (lines content) k = dashes) = false := fun k hpos hk => by
        by_cases hone : k = 1
        · exact decide_eq_false (hone ▸ hsecond)
        · exact hskip (hk (by omega))
      cases hopen : nextLine (lines content) 1 fun l => startsWith l dashes with
      | none =>
        refine (nextLine_eq_none.mpr fun k h₁ h₂ => hbefore k h₁ fun hk => ?_).symm
        exact nextLine_eq_none.mp hopen k hk h₂
      | some j =>
        obtain ⟨hj, hlt, -, hmin⟩ := nextLine_eq_some.mp hopen
        refine (nextLine_eq_some.mpr ⟨by omega, hlt, decide_eq_true (hexact j hopen),
          fun k h₁ h₂ => hbefore k h₁ fun hk => hmin k hk h₂⟩).symm
  · rw [iff_true_right (.inl h), FrontmatterAgrees, splitFrontmatter,
      if_neg fun hstart => h (startsWith_dashes.mp hstart).1]
    have hnone : ∀ b, (splitBlocks random content).head? = some b → b.type ≠ .frontmatter := by
      intro b hb htype
      obtain ⟨last, hlast, -⟩ := head_frontmatter random content b ⟨hb, htype⟩
      exact h (frontmatterEnd_spec hlast).2.2.1
    refine ⟨⟨fun hne => absurd rfl hne, ?_⟩, fun b hb htype => absurd htype (hnone b hb)⟩
    rintro ⟨b, hb, htype⟩
    exact absurd htype (hnone b hb)

/-- An empty front matter is a block of its own and is not set apart. -/
theorem frontmatter_disagrees : ¬ FrontmatterAgrees (fun _ => []) (units "---\n---\na") := by
  rintro ⟨hiff, -⟩
  refine absurd ?_ (hiff.mpr ⟨⟨.frontmatter, 0, 8, 7, units "---\n---", units "block-"⟩, ?_, rfl⟩)
  · decide +kernel
  · decide +kernel

/-! ### Widgets -/

/-- The widget of a rendered block; `isFocused` is `none` where it is `null`. -/
structure RenderedMarkdownBlockWidget where
  block : SplitBlock
  frontmatterLabel : Text
  isFocused : Option Bool

def RenderedMarkdownBlockWidget.eq (this other : RenderedMarkdownBlockWidget) : Bool :=
  decide (other.block.markdown = this.block.markdown) && decide (other.block.type = this.block.type) &&
    decide (other.frontmatterLabel = this.frontmatterLabel) &&
    decide (other.isFocused = this.isFocused)

/-- `caret` is what `posAtDOM` gives for the caret under the pointer, if there is one. -/
structure MouseEvent where
  button : Int
  altKey : Bool
  ctrlKey : Bool
  metaKey : Bool
  shiftKey : Bool
  caret : Option Nat

def cursorPositionFromClick (doc : Text) (event : MouseEvent) (blockFrom : Nat) : Nat :=
  match event.caret with
  | none => blockFrom
  | some position =>
    if position ≤ doc.length then
      let line := (doc.take position).count newline
      max (pieceStart (lines doc) line) (min position (lineEnd (lines doc) line))
    else blockFrom

/-- The range of the effect `setFocusedBlock`. -/
structure FocusedRange where
  start : Nat
  stop : Nat
  sourceTo : Nat

/-- The transaction a handler dispatches. -/
structure Dispatch where
  anchor : Nat
  focused : FocusedRange

/-- The handler that the DOM of a widget is built with. -/
def RenderedMarkdownBlockWidget.mousedown (w : RenderedMarkdownBlockWidget) (doc : Text)
    (event : MouseEvent) : Option Dispatch :=
  if event.button ≠ 0 ∨ event.altKey = true ∨ event.ctrlKey = true ∨ event.metaKey = true ∨
      event.shiftKey = true then none
  else some ⟨cursorPositionFromClick doc event w.block.start,
    ⟨w.block.start, w.block.stop, w.block.sourceTo⟩⟩

/-- A mousedown on the DOM of one widget focuses what one on the DOM of the other focuses. -/
def FocusesLike (w w' : RenderedMarkdownBlockWidget) : Prop :=
  ∀ doc event, (w.mousedown doc event).map Dispatch.focused =
    (w'.mousedown doc event).map Dispatch.focused

theorem sourceTo_eq {b : SplitBlock} (hb : b ∈ splitBlocks random content) :
    b.sourceTo = b.start + b.markdown.length := by
  obtain ⟨hlt, hto, hlen, hmark⟩ := (tiles_splitBlocks random content).of_mem hb
  rw [hmark, slice_nat, List.length_drop, List.length_take, Nat.min_eq_left (by omega)]
  omega

theorem focusesLike_iff {w w' : RenderedMarkdownBlockWidget} : FocusesLike w w' ↔
    w.block.start = w'.block.start ∧ w.block.stop = w'.block.stop ∧
      w.block.sourceTo = w'.block.sourceTo := by
  constructor
  · intro h
    simpa [RenderedMarkdownBlockWidget.mousedown] using h [] ⟨0, false, false, false, false, none⟩
  · rintro ⟨hstart, hstop, hto⟩ doc event
    simp only [RenderedMarkdownBlockWidget.mousedown, hstart, hstop, hto]

/-- A widget kept for an equal one focuses the right range exactly where the block has stayed at its
offset with as much blank text behind it. -/
theorem kept_widget_focuses_iff (random random' : Nat → Text) (content content' : Text)
    (w w' : RenderedMarkdownBlockWidget) (hw : w.block ∈ splitBlocks random content)
    (hw' : w'.block ∈ splitBlocks random' content') (heq : w.eq w' = true) :
    FocusesLike w w' ↔ w.block.start = w'.block.start ∧
      w.block.stop - w.block.sourceTo = w'.block.stop - w'.block.sourceTo := by
  simp only [RenderedMarkdownBlockWidget.eq, Bool.and_eq_true, decide_eq_true_iff] at heq
  have hto := sourceTo_eq hw
  have hto' := sourceTo_eq hw'
  have hle := ((tiles_splitBlocks random content).of_mem hw).2.1
  have hle' := ((tiles_splitBlocks random' content').of_mem hw').2.1
  rw [heq.1.1.1] at hto'
  rw [focusesLike_iff]
  omega

/-- The widget of a block in front of an edit. -/
theorem kept_widget_focuses : FocusesLike
    ⟨⟨.paragraph, 0, 3, 1, units "a", units "block-"⟩, [], some false⟩
    ⟨⟨.paragraph, 0, 3, 1, units "a", units "block-"⟩, [], some false⟩ :=
  (kept_widget_focuses_iff (fun _ => []) (fun _ => []) (units "a\n\nb") (units "a\n\nbc") _ _
    (by decide +kernel) (by decide +kernel) (by decide)).mpr ⟨rfl, rfl⟩

/-- A character typed in front of a block leaves its widget with the old range. -/
theorem kept_widget_stale : ∃ b ∈ splitBlocks (fun _ => []) (units "a\n\nb"),
    ∃ b' ∈ splitBlocks (fun _ => []) (units "xa\n\nb"),
      RenderedMarkdownBlockWidget.eq ⟨b, [], some false⟩ ⟨b', [], some false⟩ = true ∧
        ¬ FocusesLike ⟨b, [], some false⟩ ⟨b', [], some false⟩ :=
  ⟨⟨.paragraph, 3, 4, 4, units "b", units "block-"⟩, by decide +kernel,
    ⟨.paragraph, 4, 5, 5, units "b", units "block-"⟩, by decide +kernel, by decide,
    fun h => absurd (focusesLike_iff.mp h).1 (by decide)⟩

end Mdock.Editor.Blocks
