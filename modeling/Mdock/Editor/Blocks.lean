import Mdock.Editor.Commands
import Mdock.Js.Lines

/-! The blocks live preview makes of a document. -/
namespace Mdock.Editor.Blocks
open Mdock.Js Mdock.Lib Mdock.Editor.Commands

inductive BlockType
  | frontmatter | code | table | list | blockquote | heading | thematicBreak | paragraph
  deriving DecidableEq

/-- `start` and `stop` are the fields `from` and `to`. -/
structure SplitBlock where
  type : BlockType
  start : Nat
  stop : Nat
  sourceTo : Nat
  markdown : Text
  blockId : Text
  deriving DecidableEq

/-- `random` is what `Math.random` gives. -/
def generateBlockId (random : Text) : Text := units "block-" ++ random

/-! ### Lines -/

def isBlank (line : Text) : Bool := decide ((Pattern.star isSpace).Matches line)

/-- `\s{0,3}`. -/
def lead : Pattern UInt16 := .run isSpace 0 (some 3) true

def isFenceStart (line : Text) : Bool :=
  (Pattern.seq lead (.alt (lit "```") (lit "~~~"))).test line

def isAtxHeading (line : Text) : Bool :=
  let hashes := Pattern.seq lead (.run (· = unit '#') 1 (some 6) true)
  (hashes.seq (.plus isSpace)).test line || decide (hashes.Matches line)

def isSetextUnderline (line : Text) : Bool :=
  decide ((Pattern.seq lead (.seq (.alt (.plus (· = unit '=')) (.plus (· = unit '-')))
    (.star isSpace))).Matches line)

/-- `(?:c\s*){3,}` on a line. -/
def marks (c : Char) (line : Text) : Pattern UInt16 :=
  let mark := Pattern.seq (.one (· = unit c)) (.star isSpace)
  (mark.times 3).seq (mark.upTo line.length)

def isThematicBreak (line : Text) : Bool :=
  decide ((lead.seq ((marks '*' line).alt ((marks '-' line).alt (marks '_' line)))).Matches line)

def isBlockquoteLine (line : Text) : Bool := (lead.seq (lit ">")).test line

def isListLine (line : Text) : Bool :=
  (lead.seq ((Pattern.alt (oneOf "-+*") (.seq (.run isDigit 1 (some 9) true) (oneOf ".)"))).seq
    (.plus isSpace))).test line

def isListContinuation (line : Text) : Bool :=
  isListLine line || (Pattern.seq (.run isSpace 2 none true) (.one fun c => !isSpace c)).test line

/-- What `.` stands for. -/
def dot (c : UInt16) : Bool := c ∉ ([0x0A, 0x0D, 0x2028, 0x2029] : Text)

def bar : Pattern UInt16 := lit "|"

def isTableRow (line : Text) : Bool :=
  decide ((Pattern.seq (.star isSpace) (.seq (.opt (· = unit '|')) (.seq (.plus dot) (.seq bar
    (.seq (.plus dot) (.seq (.opt (· = unit '|')) (.star isSpace))))))).Matches line)

/-- `\s*:?-{1,}:?\s*`. -/
def rule : Pattern UInt16 :=
  .seq (.star isSpace) (.seq (.opt (· = unit ':')) (.seq (.plus (· = unit '-'))
    (.seq (.opt (· = unit ':')) (.star isSpace))))

def isTableDelimiter (line : Text) : Bool :=
  let column := bar.seq rule
  decide ((Pattern.seq (.star isSpace) (.seq (.opt (· = unit '|')) (.seq rule
    (.seq column (.seq (column.upTo line.length) (.seq (.opt (· = unit '|')) (.star isSpace)))))))
    |>.Matches line)

def isTableStart (lines : List Text) (index : Nat) : Bool :=
  decide (index + 1 < lines.length) && isTableRow (lineAt lines index) &&
    isTableDelimiter (lineAt lines (index + 1))

def trimTrailingBlank (lines : List Text) (start : Nat) : Nat → Nat
  | 0 => 0
  | stop + 1 =>
    if start < stop + 1 ∧ isBlank (lineAt lines (stop + 1)) = true then
      trimTrailingBlank lines start stop
    else stop + 1

def startsNewBlock (lines : List Text) (index : Nat) : Bool :=
  isFenceStart (lineAt lines index) || isTableStart lines index ||
    isListLine (lineAt lines index) || isBlockquoteLine (lineAt lines index) ||
    isAtxHeading (lineAt lines index) || isThematicBreak (lineAt lines index)

/-! ### Blocks -/

/-- The offsets of the lines. -/
def starts (offset : Nat) : List Text → List Nat
  | [] => []
  | line :: lines => offset :: starts (offset + line.length + 1) lines

def createBlock (random : Text) (type : BlockType) (lines : List Text) (starts : List Nat)
    (startLine endLine : Nat) (existingBlockId : Option Text) : SplitBlock where
  type := type
  start := starts.getD startLine 0
  stop := starts.getD endLine 0 + (lineAt lines endLine).length
  sourceTo := starts.getD endLine 0 + (lineAt lines endLine).length
  markdown := join [newline] ((lines.take (endLine + 1)).drop startLine)
  blockId := existingBlockId.getD (generateBlockId random)

def absorbSeparators (blocks : List SplitBlock) (contentLength : Nat) : List SplitBlock :=
  blocks.mapIdx fun index block =>
    { block with stop := (blocks[index + 1]?.map SplitBlock.start).getD contentLength }

/-- The lines of a block. -/
structure Stretch where
  type : BlockType
  first : Nat
  last : Nat

/-- `while (index < stop && p(index)) index += 1`. -/
def advance (p : Nat → Bool) (stop index : Nat) : Nat :=
  index + ((List.range' index (stop - index)).takeWhile p).length

/-- The block that begins at a line and the line the loop goes on with. -/
def blockFrom (lines : List Text) (start : Nat) : Stretch × Nat :=
  let line := lineAt lines
  if isFenceStart (line start) then
    let index := advance (fun i => !isFenceStart (line i)) lines.length (start + 1)
    let index := if index < lines.length then index + 1 else index
    (⟨.code, start, index - 1⟩, index)
  else if isTableStart lines start then
    let index := advance (fun i => isTableRow (line i)) lines.length (start + 2)
    (⟨.table, start, index - 1⟩, index)
  else if isListLine (line start) then
    let index := advance (fun i => isListContinuation (line i) || isBlank (line i)) lines.length
      (start + 1)
    (⟨.list, start, trimTrailingBlank lines start (index - 1)⟩, index)
  else if isBlockquoteLine (line start) then
    let index := advance (fun i => isBlockquoteLine (line i) || isBlank (line i)) lines.length
      (start + 1)
    (⟨.blockquote, start, trimTrailingBlank lines start (index - 1)⟩, index)
  else if isAtxHeading (line start) then (⟨.heading, start, start⟩, start + 1)
  else if start + 1 < lines.length ∧ isSetextUnderline (line (start + 1)) = true then
    (⟨.heading, start, start + 1⟩, start + 2)
  else if isThematicBreak (line start) then (⟨.thematicBreak, start, start⟩, start + 1)
  else
    let index := advance (fun i => !isBlank (line i) && !startsNewBlock lines i) lines.length
      (start + 1)
    (⟨.paragraph, start, index - 1⟩, index)

theorem le_advance (p : Nat → Bool) (stop index : Nat) : index ≤ advance p stop index :=
  Nat.le_add_right _ _

/-- The loop goes forward. -/
theorem lt_blockFrom (lines : List Text) (start : Nat) : start < (blockFrom lines start).2 := by
  have hle : ∀ p k, start + (k + 1) ≤ advance p lines.length (start + (k + 1)) :=
    fun p k => le_advance p _ _
  unfold blockFrom
  simp only
  split_ifs
  · exact Nat.lt_succ_of_le (Nat.le_trans (Nat.le_succ start) (hle _ 0))
  · exact hle _ 0
  · exact Nat.lt_of_lt_of_le (by omega) (hle _ 1)
  · exact hle _ 0
  · exact hle _ 0
  · exact Nat.lt_succ_self start
  · exact Nat.lt_add_of_pos_right (by decide)
  · exact Nat.lt_succ_self start
  · exact hle _ 0

/-- The loop of `splitBlocks`. -/
def blocksFrom (lines : List Text) (index : Nat) : List Stretch :=
  if index < lines.length then
    if isBlank (lineAt lines index) then blocksFrom lines (index + 1)
    else (blockFrom lines index).1 :: blocksFrom lines (blockFrom lines index).2
  else []
termination_by lines.length - index
decreasing_by
  · omega
  · have := lt_blockFrom lines index
    omega

def frontmatterEnd (lines : List Text) : Option Nat :=
  if lineAt lines 0 = units "---" then
    (List.range lines.length).find? fun i => 0 < i ∧ lineAt lines i = units "---"
  else none

def splitLines (lines : List Text) : List Stretch :=
  match frontmatterEnd lines with
  | some last => ⟨.frontmatter, 0, last⟩ :: blocksFrom lines (last + 1)
  | none => blocksFrom lines 0

/-- `random` gives what `Math.random` gives for each block. -/
def splitBlocks (random : Nat → Text) (content : Text) : List SplitBlock :=
  let ls := lines content
  absorbSeparators ((splitLines ls).mapIdx fun k b =>
    createBlock (random k) b.type ls (starts 0 ls) b.first b.last none) content.length

/-! ### Where the stretches stand -/

variable {lines : List Text} {p : Nat → Bool} {stop index start i : Nat}

theorem isBlank_iff {line : Text} : isBlank line = true ↔ ∀ c ∈ line, isSpace c = true := by
  rw [isBlank, decide_eq_true_iff, Pattern.matches_star]

theorem advance_le (h : index ≤ stop) : advance p stop index ≤ stop := by
  have := ((List.range' index (stop - index)).takeWhile_sublist p).length_le
  rw [List.length_range'] at this
  unfold advance
  omega

/-- What the loop passes meets its condition. -/
theorem of_lt_advance (hle : index ≤ i) (hlt : i < advance p stop index) : p i = true := by
  unfold advance at hlt
  generalize hw : (List.range' index (stop - index)).takeWhile p = w at hlt
  have hi : i - index < w.length := by omega
  have hpre : w <+: List.range' index (stop - index) := hw ▸ List.takeWhile_prefix p
  have hget : w[i - index] = i := by
    rw [hpre.getElem hi, List.getElem_range']
    omega
  have hmem : i ∈ w := hget ▸ List.getElem_mem hi
  exact List.mem_takeWhile_imp (hw ▸ hmem)

/-- What it stops at does not. -/
theorem not_of_advance_lt (h : advance p stop index < stop) : p (advance p stop index) = false := by
  unfold advance at h ⊢
  generalize hw : (List.range' index (stop - index)).takeWhile p = w at h ⊢
  have hsplit := List.takeWhile_append_dropWhile (p := p) (l := List.range' index (stop - index))
  rw [hw] at hsplit
  cases hd : (List.range' index (stop - index)).dropWhile p with
  | nil =>
    have hlen := congrArg List.length hsplit
    rw [hd, List.append_nil, List.length_range'] at hlen
    omega
  | cons k ks =>
    have hk : (List.range' index (stop - index))[w.length]? = some k := by
      rw [← hsplit, hd, List.getElem?_append_right (Nat.le_refl _)]
      simp
    obtain ⟨hlt, hk⟩ := List.getElem?_eq_some_iff.mp hk
    rw [List.getElem_range', Nat.one_mul] at hk
    have hnot := List.head_dropWhile_not p (l := List.range' index (stop - index)) (by simp [hd])
    simp only [hd, List.head_cons] at hnot
    rw [hk]
    exact hnot

theorem trimTrailingBlank_spec (lines : List Text) (h : start ≤ stop) :
    start ≤ trimTrailingBlank lines start stop ∧ trimTrailingBlank lines start stop ≤ stop ∧
      ∀ i, trimTrailingBlank lines start stop < i → i ≤ stop → isBlank (lineAt lines i) = true := by
  induction stop with
  | zero => exact ⟨h, Nat.le_refl 0, fun i hi hle => absurd hi (by omega)⟩
  | succ stop ih =>
    rw [trimTrailingBlank]
    split
    next hblank =>
      obtain ⟨h₁, h₂, h₃⟩ := ih (by omega)
      refine ⟨h₁, Nat.le_succ_of_le h₂, fun i hi hle => ?_⟩
      rcases Nat.lt_or_eq_of_le hle with hlt | rfl
      · exact h₃ i hi (by omega)
      · exact hblank.2
    next => exact ⟨h, Nat.le_refl _, fun i hi hle => absurd hi (by omega)⟩

/-- A block begins where it is looked for, ends within the document, and the loop goes on behind
it with only blank lines left out. -/
def Fits (lines : List Text) (start : Nat) (r : Stretch × Nat) : Prop :=
  r.1.first = start ∧ start ≤ r.1.last ∧ r.1.last < r.2 ∧ r.2 ≤ lines.length ∧
    ∀ i, r.1.last < i → i < r.2 → isBlank (lineAt lines i) = true

/-- The loop goes on right behind the block. -/
theorem fits_next {type : BlockType} (h : start < stop) (hstop : stop ≤ lines.length) :
    Fits lines start (⟨type, start, stop - 1⟩, stop) :=
  ⟨rfl, Nat.le_sub_one_of_lt h, Nat.sub_one_lt (Nat.ne_zero_of_lt h), hstop,
    fun _ h₁ h₂ => absurd h₁ (Nat.not_lt.mpr (Nat.le_sub_one_of_lt h₂))⟩

theorem fits_trimmed {type : BlockType} (h : start < stop) (hstop : stop ≤ lines.length) :
    Fits lines start (⟨type, start, trimTrailingBlank lines start (stop - 1)⟩, stop) := by
  obtain ⟨h₁, h₂, h₃⟩ := trimTrailingBlank_spec lines (Nat.le_sub_one_of_lt h)
  refine ⟨rfl, h₁, ?_, hstop, fun i hi hlt => h₃ i hi (Nat.le_sub_one_of_lt hlt)⟩
  exact Nat.lt_of_le_of_lt h₂ (Nat.sub_one_lt (Nat.ne_zero_of_lt h))

theorem blockFrom_fits (h : start < lines.length) : Fits lines start (blockFrom lines start) := by
  have hadv : ∀ p : Nat → Bool, start < advance p lines.length (start + 1) ∧
      advance p lines.length (start + 1) ≤ lines.length :=
    fun p => ⟨le_advance p _ _, advance_le h⟩
  unfold blockFrom
  simp only
  split_ifs with hfence hlt htable hlist hquote hatx hsetext hbreak
  · exact fits_next (Nat.lt_succ_of_lt (hadv _).1) hlt
  · exact fits_next (hadv _).1 (hadv _).2
  · have hnext : start + 1 < lines.length := by
      simp only [isTableStart, Bool.and_eq_true, decide_eq_true_iff] at htable
      exact htable.1.1
    exact fits_next (Nat.lt_of_succ_lt (le_advance _ _ _)) (advance_le hnext)
  · exact fits_trimmed (hadv _).1 (hadv _).2
  · exact fits_trimmed (hadv _).1 (hadv _).2
  · exact fits_next (show start < start + 1 from Nat.lt_succ_self start) h
  · exact fits_next (show start < start + 2 by omega) hsetext.1
  · exact fits_next (show start < start + 1 from Nat.lt_succ_self start) h
  · exact fits_next (hadv _).1 (hadv _).2

/-- The stretches come one after the other from a line on, each from a line that is not blank,
and what is left out is blank. -/
def Covers (lines : List Text) : Nat → List Stretch → Prop
  | index, [] => ∀ i, index ≤ i → i < lines.length → isBlank (lineAt lines i) = true
  | index, b :: bs => index ≤ b.first ∧ b.first ≤ b.last ∧ b.last < lines.length ∧
      isBlank (lineAt lines b.first) = false ∧
      (∀ i, index ≤ i → i < b.first → isBlank (lineAt lines i) = true) ∧ Covers lines (b.last + 1) bs

theorem Covers.of_blank {bs : List Stretch} {j : Nat} (h : Covers lines j bs) (hle : index ≤ j)
    (hblank : ∀ i, index ≤ i → i < j → isBlank (lineAt lines i) = true) : Covers lines index bs := by
  cases bs with
  | nil =>
    intro i hi hlt
    by_cases hj : j ≤ i
    · exact h i hj hlt
    · exact hblank i hi (by omega)
  | cons b bs =>
    obtain ⟨h₁, h₂, h₃, h₄, h₅, h₆⟩ := h
    refine ⟨Nat.le_trans hle h₁, h₂, h₃, h₄, fun i hi hlt => ?_, h₆⟩
    by_cases hj : j ≤ i
    · exact h₅ i hj hlt
    · exact hblank i hi (by omega)

theorem covers_blocksFrom (lines : List Text) (index : Nat) :
    Covers lines index (blocksFrom lines index) := by
  fun_induction blocksFrom lines index with
  | case1 index hlt hblank ih =>
    refine ih.of_blank (Nat.le_succ index) fun i hi hlt' => ?_
    obtain rfl : i = index := by omega
    exact hblank
  | case2 index hlt hblank ih =>
    have hfits := blockFrom_fits hlt
    generalize blockFrom lines index = r at hfits ih ⊢
    obtain ⟨hfirst, hle, hlast, hnext, hbetween⟩ := hfits
    refine ⟨hfirst.ge, hfirst.le.trans hle, Nat.lt_of_lt_of_le hlast hnext, ?_, fun i hi hlt' => ?_,
      ih.of_blank hlast fun i hi hlt' => hbetween i hi hlt'⟩
    · rw [hfirst]
      exact Bool.eq_false_of_not_eq_true hblank
    · omega
  | case3 index hlt => exact fun i hi hlt' => absurd hlt' (by omega)

theorem frontmatterEnd_spec {last : Nat} (h : frontmatterEnd lines = some last) :
    0 < last ∧ last < lines.length ∧ lineAt lines 0 = units "---" ∧
      lineAt lines last = units "---" ∧ ∀ i, 0 < i → i < last → lineAt lines i ≠ units "---" := by
  rw [frontmatterEnd] at h
  split at h
  next hfirst =>
    obtain ⟨hlast, hmem, hbefore⟩ := List.find?_range_eq_some.mp h
    rw [decide_eq_true_iff] at hlast
    refine ⟨hlast.1, List.mem_range.mp hmem, hfirst, hlast.2, fun i hi hlt heq => ?_⟩
    simpa [hi, heq] using hbefore i hlt
  next => simp at h

theorem covers_splitLines (lines : List Text) : Covers lines 0 (splitLines lines) := by
  unfold splitLines
  split
  next last hlast =>
    obtain ⟨hpos, hlt, hfirst, -⟩ := frontmatterEnd_spec hlast
    have hblank : isBlank (lineAt lines 0) = false := by
      rw [hfirst]
      decide
    exact ⟨Nat.le_refl 0, Nat.zero_le last, hlt, hblank, fun i hi hlt => absurd hlt (by simp),
      covers_blocksFrom lines (last + 1)⟩
  next => exact covers_blocksFrom lines 0

end Mdock.Editor.Blocks
