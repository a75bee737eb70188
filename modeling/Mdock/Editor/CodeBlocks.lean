import Mdock.Editor.Toolbar
import Mdock.Editor.Widgets

/-! A code block put around the lines of the selection, as the splitter reads it. -/
namespace Mdock.Editor.Blocks
open Mdock.Js Mdock.Lib Mdock.Editor.Commands

/-- The selection is of whole lines, and the lines around them are blank. -/
structure SetOff (state : EditorState) (first last : Nat) : Prop where
  le : first ≤ last
  lt : last < (lines state.text).length
  start : state.selectionStart = pieceStart (lines state.text) first
  stop : state.selectionEnd = lineEnd (lines state.text) last
  before : first = 0 ∨ isBlank (lineAt (lines state.text) (first - 1)) = true
  behind : isBlank (lineAt (lines state.text) (last + 1)) = true

/-- Each fence of a text that opens a code block has one behind it. -/
def NoOpenFence (text : Text) : Prop :=
  ∀ r ∈ splitLines (lines text), r.type = .code →
    (nextLine (lines text) r.first isFenceStart).isSome = true

/-- The block `n` characters on, without its random id. -/
def SplitBlock.moved (n : Nat) (b : SplitBlock) : SplitBlock :=
  { b with start := n + b.start, stop := n + b.stop, sourceTo := n + b.sourceTo, blockId := [] }

/-- A text splits into the blocks of what is in front, a code block with the lines of a text, and
the blocks of what is behind. -/
def SplitsAround (random : Nat → Text) (before value behind text : Text) : Prop :=
  ∃ code : SplitBlock, code.type = .code ∧ (lines code.markdown).tail.dropLast = lines value ∧
    (splitBlocks random text).map (SplitBlock.moved 0) =
      (splitBlocks random before).map (SplitBlock.moved 0) ++ code.moved 0 ::
        (splitBlocks random behind).map (SplitBlock.moved (text.length - behind.length))

/-- The text the command returns splits around the selection. -/
def HoldsSelection (random : Nat → Text) (state : EditorState) (language : Text) : Prop :=
  ∃ text, (insertCodeBlock state (.ofText language)).bind Spec.text = some text ∧
    SplitsAround random (state.text.take state.selectionStart) (selectedText state).value
      (state.text.drop state.selectionEnd) text

variable {Y Z P W : List Text} {o : Text} {i k m n : Nat}

/-! ### The loops over lines -/

section
variable {p q : Nat → Bool} {stop stop' index : Nat}

theorem advance_eq_iff (h : index ≤ stop) : advance p stop index = m ↔ index ≤ m ∧ m ≤ stop ∧
    (∀ i, index ≤ i → i < m → p i = true) ∧ (m < stop → p m = false) := by
  constructor
  · rintro rfl
    exact ⟨le_advance p stop index, advance_le h, fun i => of_lt_advance, not_of_advance_lt⟩
  · rintro ⟨hle, hstop, hpass, hnot⟩
    rcases Nat.lt_trichotomy (advance p stop index) m with hlt | heq | hgt
    · have hfalse := not_of_advance_lt (Nat.lt_of_lt_of_le hlt hstop)
      simp [hpass _ (le_advance p stop index) hlt] at hfalse
    · exact heq
    · have hfalse := hnot (Nat.lt_of_lt_of_le hgt (advance_le h))
      simp [of_lt_advance hle hgt] at hfalse

/-- A loop that meets a barrier runs as one without it, up to the barrier. -/
theorem advance_eq_min (hle : index ≤ m) (hstop : m ≤ stop) (hstop' : m < stop')
    (heq : ∀ k, index ≤ k → k < m → p k = q k) (hq : q m = false) :
    advance q stop' index = min (advance p stop index) m := by
  have hge := le_advance p stop index
  refine (advance_eq_iff (by omega)).mpr ⟨by omega, by omega, fun k h₁ h₂ => ?_, fun _ => ?_⟩
  · rw [← heq k h₁ (by omega)]
    exact of_lt_advance h₁ (Nat.lt_of_lt_of_le h₂ (Nat.min_le_left _ _))
  · rcases Nat.lt_or_ge (advance p stop index) m with hlt | hge'
    · rw [Nat.min_eq_left (Nat.le_of_lt hlt), ← heq _ hge hlt]
      exact not_of_advance_lt (Nat.lt_of_lt_of_le hlt hstop)
    · rwa [Nat.min_eq_right hge']

theorem advance_le_of_not (hle : index ≤ m) (hp : p m = false) : advance p stop index ≤ m := by
  by_contra hlt
  simp [of_lt_advance hle (Nat.lt_of_not_le hlt)] at hp

theorem advance_congr (hle : index ≤ m) (hstop : m ≤ stop) (hstop' : m < stop')
    (heq : ∀ k, index ≤ k → k < m → p k = q k) (hp : p m = false) (hq : q m = false) :
    advance q stop' index = advance p stop index ∧ advance p stop index ≤ m := by
  have hadv : advance p stop index ≤ m := advance_le_of_not hle hp
  exact ⟨by rw [advance_eq_min hle hstop hstop' heq hq, Nat.min_eq_left hadv], hadv⟩

theorem advance_add (p : Nat → Bool) (n stop index : Nat) : advance p (n + stop) (n + index) =
    n + advance (fun k => p (n + k)) stop index := by
  rcases Nat.lt_or_ge stop index with hlt | hle
  · have hzero : n + stop - (n + index) = 0 := by omega
    simp [advance, hzero, Nat.sub_eq_zero_of_le (Nat.le_of_lt hlt)]
  · have hadv := advance_le (p := fun k => p (n + k)) hle
    have hge := le_advance (fun k => p (n + k)) stop index
    refine (advance_eq_iff (by omega)).mpr ⟨by omega, by omega, fun k h₁ h₂ => ?_, fun hlt => ?_⟩
    · obtain ⟨j, rfl⟩ := Nat.exists_eq_add_of_le (Nat.le_trans (Nat.le_add_right n index) h₁)
      exact of_lt_advance (p := fun k => p (n + k)) (Nat.le_of_add_le_add_left h₁)
        (Nat.lt_of_add_lt_add_left h₂)
    · exact not_of_advance_lt (p := fun k => p (n + k)) (Nat.lt_of_add_lt_add_left hlt)

end

theorem lineAt_append_right (Y Z : List Text) (k : Nat) :
    lineAt (Y ++ Z) (Y.length + k) = lineAt Z k := by
  simp [lineAt, List.getElem?_append_right]

theorem lineAt_append_left (h : k < Y.length) : lineAt (Y ++ Z) k = lineAt Y k := by
  simp [lineAt, List.getElem?_append_left h]

/-! ### Lines behind other lines -/

def Stretch.shift (n : Nat) (r : Stretch) : Stretch := ⟨r.type, n + r.first, n + r.last⟩

theorem isTableStart_append_right (Y Z : List Text) (k : Nat) :
    isTableStart (Y ++ Z) (Y.length + k) = isTableStart Z k := by
  simp only [isTableStart, Nat.add_assoc, lineAt_append_right, List.length_append,
    Nat.add_lt_add_iff_left]

theorem startsNewBlock_append_right (Y Z : List Text) (k : Nat) :
    startsNewBlock (Y ++ Z) (Y.length + k) = startsNewBlock Z k := by
  simp only [startsNewBlock, lineAt_append_right, isTableStart_append_right]

theorem trimTrailingBlank_append_right (Y Z : List Text) (i k : Nat) :
    trimTrailingBlank (Y ++ Z) (Y.length + i) (Y.length + (i + k)) =
      Y.length + trimTrailingBlank Z i (i + k) := by
  induction k with
  | zero =>
    have hstay : ∀ L n, trimTrailingBlank L n n = n := fun L n => by
      cases n with
      | zero => rfl
      | succ n => rw [trimTrailingBlank, if_neg fun h => Nat.lt_irrefl _ h.1]
    rw [Nat.add_zero, hstay, hstay]
  | succ k ih =>
    have hlt : Y.length + i < Y.length + (i + k) + 1 := by omega
    have hlt' : i < i + k + 1 := Nat.lt_succ_of_le (Nat.le_add_right i k)
    rw [← Nat.add_assoc i, ← Nat.add_assoc Y.length, trimTrailingBlank, trimTrailingBlank, ih,
      Nat.add_assoc Y.length, lineAt_append_right]
    by_cases hblank : isBlank (lineAt Z (i + k + 1)) = true
    · rw [if_pos ⟨hlt, hblank⟩, if_pos ⟨hlt', hblank⟩]
    · rw [if_neg fun h => hblank h.2, if_neg fun h => hblank h.2, Nat.add_assoc]

/-- What the loop makes of lines that stand behind others. -/
theorem blockFrom_append_right (Y Z : List Text) (i : Nat) : blockFrom (Y ++ Z) (Y.length + i) =
    ((blockFrom Z i).1.shift Y.length, Y.length + (blockFrom Z i).2) := by
  have hadd : ∀ j, Y.length + i + j = Y.length + (i + j) := Nat.add_assoc Y.length i
  have hlast : ∀ f j, Y.length + advance f Z.length (i + (j + 1)) - 1 =
      Y.length + (advance f Z.length (i + (j + 1)) - 1) := fun f j => by
    have := le_advance f Z.length (i + (j + 1))
    omega
  have htrim : ∀ f, trimTrailingBlank (Y ++ Z) (Y.length + i)
      (Y.length + (advance f Z.length (i + 1) - 1)) =
      Y.length + trimTrailingBlank Z i (advance f Z.length (i + 1) - 1) := fun f => by
    obtain ⟨k, hk⟩ := Nat.exists_eq_add_of_le (le_advance f Z.length (i + 1))
    have hsub : advance f Z.length (i + 1) - 1 = i + k := by omega
    rw [hsub, trimTrailingBlank_append_right]
  unfold blockFrom
  simp only [hadd, lineAt_append_right, isTableStart_append_right, startsNewBlock_append_right,
    List.length_append, Nat.add_lt_add_iff_left, advance_add]
  simp only [hlast, htrim]
  split_ifs
  case neg => exact Prod.ext (congrArg (Stretch.mk .code (Y.length + i)) (hlast _ 0)) rfl
  all_goals rfl

theorem blocksFrom_append_right (Y Z : List Text) (i : Nat) :
    blocksFrom (Y ++ Z) (Y.length + i) = (blocksFrom Z i).map (Stretch.shift Y.length) := by
  fun_induction blocksFrom Z i with
  | case1 i hlt hblank ih =>
    rw [blocksFrom, if_pos (by simpa using hlt), lineAt_append_right, if_pos hblank]
    exact ih
  | case2 i hlt hblank ih =>
    rw [blocksFrom, if_pos (by simpa using hlt), lineAt_append_right, if_neg hblank,
      blockFrom_append_right, ih]
    rfl
  | case3 i hlt => rw [blocksFrom, if_neg (by simpa using hlt), List.map_nil]

/-! ### Lines in front of a fence -/

theorem not_blank_of_mem {line : Text} {c : UInt16} (hc : c ∈ line) (h : isSpace c = false) :
    isBlank line = false :=
  Bool.eq_false_of_not_eq_true fun hblank => by simp [isBlank_iff.mp hblank c hc] at h

theorem bar_mem : unit '|' ∈ units "|" := by decide

theorem not_blank_of_row {line : Text} (h : isTableRow line = true) : isBlank line = false := by
  have hmatch := of_decide_eq_true h
  simp only [Pattern.matches_seq] at hmatch
  obtain ⟨_, _, rfl, -, _, _, rfl, -, _, _, rfl, -, _, _, rfl, hbar, -⟩ := hmatch
  obtain rfl := Pattern.matches_literal.mp hbar
  exact not_blank_of_mem (c := unit '|') (by simp [bar_mem]) (by decide)

theorem not_blank_of_delimiter {line : Text} (h : isTableDelimiter line = true) :
    isBlank line = false := by
  have hmatch := of_decide_eq_true h
  simp only [Pattern.matches_seq] at hmatch
  obtain ⟨_, _, rfl, -, _, _, rfl, -, _, _, rfl, -, _, _, rfl, ⟨_, _, rfl, hbar, -⟩, -⟩ := hmatch
  obtain rfl := Pattern.matches_literal.mp hbar
  exact not_blank_of_mem (c := unit '|') (by simp [bar_mem]) (by decide)

/-- A line that ends the block in front of it. -/
structure Barrier (o : Text) : Prop where
  blank : isBlank o = false
  list : isListContinuation o = false
  quote : isBlockquoteLine o = false

theorem trimTrailingBlank_congr (h : ∀ k ≤ n, lineAt Y k = lineAt Z k) :
    trimTrailingBlank Y i n = trimTrailingBlank Z i n := by
  induction n with
  | zero => rfl
  | succ n ih =>
    rw [trimTrailingBlank, trimTrailingBlank, h (n + 1) (Nat.le_refl _),
      ih fun k hk => h k (Nat.le_succ_of_le hk)]

theorem lineAt_end (P : List Text) (o : Text) (W : List Text) : lineAt (P ++ o :: W) P.length = o :=
  lineAt_append_right P (o :: W) 0

theorem isTableStart_append_left (h : k + 1 < P.length) (o : Text) (W : List Text) :
    isTableStart (P ++ o :: W) k = isTableStart P k := by
  have hlt : k + 1 < (P ++ o :: W).length := by
    rw [List.length_append]
    omega
  simp only [isTableStart, lineAt_append_left h, lineAt_append_left (Nat.lt_of_succ_lt h), h, hlt]

theorem startsNewBlock_append_left (h : k + 1 < P.length) (o : Text) (W : List Text) :
    startsNewBlock (P ++ o :: W) k = startsNewBlock P k := by
  simp only [startsNewBlock, lineAt_append_left (Nat.lt_of_succ_lt h), isTableStart_append_left h]

/-- A loop that goes over blank lines stops at a barrier. -/
theorem skipped (hi : i + 1 < P.length) (f : Text → Bool) (hf : f o = false)
    (ho : isBlank o = false) (W : List Text) :
    advance (fun k => f (lineAt (P ++ o :: W) k) || isBlank (lineAt (P ++ o :: W) k))
        (P ++ o :: W).length (i + 1) =
      min (advance (fun k => f (lineAt (P ++ [[]]) k) || isBlank (lineAt (P ++ [[]]) k))
        (P ++ [[]]).length (i + 1)) P.length := by
  refine advance_eq_min (Nat.le_of_lt hi) (by simp) (by simp) (fun k _ hk => ?_) ?_
  · rw [lineAt_append_left hk, lineAt_append_left hk]
  · rw [lineAt_end, hf, ho]
    rfl

/-- It is trimmed to the same line. -/
theorem trimmed (hi : i < P.length) (h : i < n) (hn : n ≤ P.length + 1) (W : List Text) :
    trimTrailingBlank (P ++ o :: W) i (min n P.length - 1) =
      trimTrailingBlank (P ++ [[]]) i (n - 1) := by
  have hcongr : ∀ k ≤ P.length - 1, lineAt (P ++ o :: W) k = lineAt (P ++ [[]]) k := fun k hk => by
    rw [lineAt_append_left (by omega), lineAt_append_left (by omega)]
  rcases Nat.lt_or_eq_of_le hn with hlt | rfl
  · rw [Nat.min_eq_left (by omega)]
    exact trimTrailingBlank_congr fun k hk => hcongr k (by omega)
  · obtain ⟨m, hm⟩ : ∃ m, P.length = m + 1 := ⟨P.length - 1, by omega⟩
    have hblank : isBlank (lineAt (P ++ [[]]) (m + 1)) = true := by
      rw [← hm, lineAt_end]
      decide
    rw [Nat.min_eq_right (Nat.le_succ _), Nat.add_sub_cancel, hm, Nat.add_sub_cancel,
      show trimTrailingBlank (P ++ [[]]) i (m + 1) = trimTrailingBlank (P ++ [[]]) i m from
        if_pos ⟨by omega, hblank⟩]
    exact trimTrailingBlank_congr fun k hk => hcongr k (by omega)

/-- A loop that stops within a part of the lines takes no notice of what stands behind it. -/
theorem advance_append_left {f : List Text → Nat → Bool} (hk : k ≤ m) (hm : m < P.length)
    (heq : ∀ n, k ≤ n → n < m → f (P ++ o :: W) n = f P n) (hnot : f (P ++ o :: W) m = false)
    (heq' : ∀ n, k ≤ n → n < m → f (P ++ [[]]) n = f P n) (hnot' : f (P ++ [[]]) m = false) :
    advance (f (P ++ o :: W)) (P ++ o :: W).length k =
        advance (f (P ++ [[]])) (P ++ [[]]).length k ∧
      advance (f (P ++ [[]])) (P ++ [[]]).length k ≤ m := by
  have hlen : ∀ Z : List Text, m < (P ++ Z).length := fun Z => by
    rw [List.length_append]
    omega
  exact advance_congr hk (Nat.le_of_lt (hlen _)) (hlen _)
    (fun n h₁ h₂ => by rw [heq n h₁ h₂, heq' n h₁ h₂]) hnot' hnot

/-- In front of a barrier that stands behind a blank line, the loop makes what it makes at the end
of a document. -/
theorem blockFrom_append_left (hi : i + 1 < P.length)
    (hlast : isBlank (lineAt P (P.length - 1)) = true) (ho : Barrier o)
    (hclosed : isFenceStart (lineAt P i) = true →
      ∃ j, i < j ∧ j < P.length ∧ isFenceStart (lineAt P j) = true) (W : List Text) :
    blockFrom (P ++ o :: W) i =
      ((blockFrom (P ++ [[]]) i).1, min (blockFrom (P ++ [[]]) i).2 P.length) := by
  have hi' : i < P.length := Nat.lt_of_succ_lt hi
  have hend : P.length - 1 < P.length := by omega
  have hlen : ∀ o W, P.length < (P ++ o :: W).length := fun o W => by simp
  have hline : ∀ {k}, k < P.length → ∀ o W, lineAt (P ++ o :: W) k = lineAt P k :=
    fun hk _ _ => lineAt_append_left hk
  have hsecond : ∀ o W, i + 1 < (P ++ o :: W).length := fun o W => Nat.lt_trans hi (hlen o W)
  unfold blockFrom
  simp only [hline hi', hline hi, isTableStart_append_left hi, hsecond, true_and]
  by_cases hfence : isFenceStart (lineAt P i) = true
  · obtain ⟨j, hij, hj, hclose⟩ := hclosed hfence
    obtain ⟨heq, hle⟩ := advance_append_left (o := o) (W := W)
      (k := i + 1) (f := fun L k => !isFenceStart (lineAt L k)) hij hj
      (fun n _ hn => by rw [hline (by omega)]) (by simp [hline hj, hclose])
      (fun n _ hn => by rw [hline (by omega)]) (by simp [hline hj, hclose])
    have hbelow := hlen o W
    have hbelow' := hlen [] []
    simp only [if_pos hfence]
    rw [heq, if_pos (by omega), if_pos (by omega), Nat.min_eq_left (by omega)]
  by_cases htable : isTableStart P i = true
  · have hdelimiter : isTableDelimiter (lineAt P (i + 1)) = true := by
      simp only [isTableStart, Bool.and_eq_true] at htable
      exact htable.2
    have hnext : i + 1 ≠ P.length - 1 := fun heq => by
      rw [← heq, not_blank_of_delimiter hdelimiter] at hlast
      exact absurd hlast (by decide)
    have hrow : isTableRow (lineAt P (P.length - 1)) = false :=
      Bool.eq_false_of_not_eq_true fun h => by simp [not_blank_of_row h] at hlast
    obtain ⟨heq, hle⟩ := advance_append_left (o := o) (W := W) (k := i + 2)
      (f := fun L k => isTableRow (lineAt L k)) (by omega) hend
      (fun n _ hn => by rw [hline (by omega)]) (by rw [hline hend, hrow])
      (fun n _ hn => by rw [hline (by omega)]) (by rw [hline hend, hrow])
    simp only [if_neg hfence, if_pos htable]
    rw [heq, Nat.min_eq_left (by omega)]
  have hstop : ∀ f : Nat → Bool, i < advance f (P ++ [[]]).length (i + 1) ∧
      advance f (P ++ [[]]).length (i + 1) ≤ P.length + 1 := fun f =>
    ⟨le_advance _ _ _, Nat.le_trans (advance_le (Nat.le_of_lt (hsecond [] []))) (by simp)⟩
  simp only [if_neg hfence, if_neg htable]
  split_ifs with hlist hquote hatx hsetext hbreak
  · obtain ⟨h₁, h₂⟩ := hstop fun k => isListContinuation (lineAt (P ++ [[]]) k) ||
      isBlank (lineAt (P ++ [[]]) k)
    rw [skipped hi isListContinuation ho.list ho.blank W, trimmed hi' h₁ h₂]
  · obtain ⟨h₁, h₂⟩ := hstop fun k => isBlockquoteLine (lineAt (P ++ [[]]) k) ||
      isBlank (lineAt (P ++ [[]]) k)
    rw [skipped hi isBlockquoteLine ho.quote ho.blank W, trimmed hi' h₁ h₂]
  · rw [Nat.min_eq_left (Nat.le_of_lt hi)]
  · rw [Nat.min_eq_left (Nat.succ_le_of_lt hi)]
  · rw [Nat.min_eq_left (Nat.le_of_lt hi)]
  · obtain ⟨heq, hle⟩ := advance_append_left (o := o) (W := W) (k := i + 1)
      (f := fun L k => !isBlank (lineAt L k) && !startsNewBlock L k) (by omega) hend
      (fun n _ hn => by rw [hline (by omega), startsNewBlock_append_left (by omega)])
      (by simp [hline hend, hlast])
      (fun n _ hn => by rw [hline (by omega), startsNewBlock_append_left (by omega)])
      (by simp [hline hend, hlast])
    rw [heq, Nat.min_eq_left (by omega)]

/-- The part leaves no fence open. -/
def ClosesFences (P : List Text) (bs : List Stretch) : Prop :=
  ∀ r ∈ bs, r.type = .code →
    ∃ j, r.first < j ∧ j < P.length ∧ isFenceStart (lineAt P j) = true

theorem blockFrom_fence (h : isFenceStart (lineAt Z i) = true) :
    (blockFrom Z i).1.type = .code := by
  simp only [blockFrom, if_pos h]

theorem blocksFrom_of_le (h : Z.length ≤ i) : blocksFrom Z i = [] := by
  rw [blocksFrom, if_neg (Nat.not_lt.mpr h)]

/-- The blocks in front of a barrier are those of the lines in front of it. -/
theorem blocksFrom_append_left (hlast : isBlank (lineAt P (P.length - 1)) = true) (ho : Barrier o)
    (W : List Text) (hi : i ≤ P.length) (hclosed : ClosesFences P (blocksFrom (P ++ [[]]) i)) :
    blocksFrom (P ++ o :: W) i =
      blocksFrom (P ++ [[]]) i ++ blocksFrom (P ++ o :: W) P.length := by
  have hlen : ∀ o W, P.length < (P ++ o :: W).length := fun o W => by simp
  have hlen' : (P ++ [[]]).length = P.length + 1 := List.length_append
  have hempty : blocksFrom (P ++ [[]]) P.length = [] := by
    rw [blocksFrom, if_pos (hlen _ _), lineAt_end, if_pos (by decide), blocksFrom_of_le hlen'.le]
  fun_induction blocksFrom (P ++ [[]]) i with
  | case1 i hlt hblank ih =>
    rcases Nat.lt_or_eq_of_le hi with hlt' | rfl
    · rw [lineAt_append_left hlt'] at hblank
      rw [blocksFrom, if_pos (Nat.lt_trans hlt' (hlen o W)), lineAt_append_left hlt', if_pos hblank,
        ih hlt' hclosed]
    · rw [blocksFrom_of_le hlen'.le, List.nil_append]
  | case2 i hlt hblank ih =>
    have hlt' : i < P.length := by
      refine Nat.lt_of_le_of_ne hi fun heq => hblank ?_
      rw [heq, lineAt_end]
      decide
    have hi' : i + 1 < P.length := by
      refine Nat.lt_of_le_of_ne hlt' fun heq => hblank ?_
      rw [lineAt_append_left hlt', show i = P.length - 1 by omega]
      exact hlast
    have hfits := blockFrom_fits hlt
    have hblock := blockFrom_append_left hi' hlast ho (fun hfence => by
      have hcode := blockFrom_fence (Z := P ++ [[]]) (by rwa [lineAt_append_left hlt'])
      rw [← hfits.1]
      exact hclosed _ List.mem_cons_self hcode) W
    have hnext : (blockFrom (P ++ [[]]) i).2 ≤ P.length + 1 := hlen' ▸ hfits.2.2.2.1
    rw [lineAt_append_left hlt'] at hblank
    rw [blocksFrom, if_pos (Nat.lt_trans hlt' (hlen o W)), lineAt_append_left hlt', if_neg hblank,
      hblock, List.cons_append]
    congr 1
    rcases Nat.lt_or_eq_of_le hnext with hle | heq
    · rw [Nat.min_eq_left (Nat.le_of_lt_succ hle)]
      exact ih (Nat.le_of_lt_succ hle) fun r hr => hclosed r (List.mem_cons_of_mem _ hr)
    · simp only [heq, blocksFrom_of_le hlen'.le, List.nil_append, Nat.min_eq_right (Nat.le_succ _)]
  | case3 i hlt => exact absurd (Nat.lt_of_le_of_lt hi (hlen [] [])) hlt

theorem backticks_eq (l : Text) : units "```" ++ l = unit '`' :: unit '`' :: unit '`' :: l := rfl

theorem isFenceStart_backticks (l : Text) : isFenceStart (units "```" ++ l) = true :=
  isFenceStart_iff.mpr ⟨[], unit '`', l, rfl, by simp, by simp, .inl rfl⟩

theorem barrier_backticks (l : Text) : Barrier (units "```" ++ l) := by
  have hspace : isSpace (unit '`') = false := by decide
  have hlead : ∀ s, lead.ends (unit '`' :: s) = [0] := fun s => by
    simp [lead, Pattern.ends, hspace]
  have hseq : ∀ (a : Pattern UInt16) s, a.ends (unit '`' :: s) = [] →
      (lead.seq a).test (unit '`' :: s) = false := fun a s ha => by
    simp [Pattern.test, Pattern.find, Pattern.ends_seq, hlead, ha]
  have hrun : ∀ (p : UInt16 → Bool) n most s, p (unit '`') = false →
      (Pattern.run p (n + 1) most true).ends (unit '`' :: s) = [] :=
    fun p n most s hp => Pattern.ends_run_cons_neg hp
  rw [backticks_eq]
  refine ⟨not_blank_of_mem List.mem_cons_self hspace, ?_, hseq _ _ ?_⟩
  · have hitem : isListLine (unit '`' :: unit '`' :: unit '`' :: l) = false := by
      refine hseq _ _ (Pattern.ends_seq_eq_nil ?_)
      rw [Pattern.ends_alt, oneOf, Pattern.one, hrun _ 0 _ _ (by decide),
        Pattern.ends_seq_eq_nil (hrun isDigit 0 _ _ (by decide)), List.append_nil]
    have hdeep := Pattern.ends_seq_eq_nil (b := .one fun c => !isSpace c)
      (hrun isSpace 1 none (unit '`' :: unit '`' :: l) hspace)
    rw [isListContinuation, hitem, Pattern.test, Pattern.find, hdeep]
    rfl
  · exact Pattern.ends_seq_eq_nil (hrun _ 0 _ _ (by decide))

/-! ### Front matter in front of a fence -/

/-- Lines behind a part that opens front matter and does not close it do not close it either. -/
def KeepsFrontmatter (Y R : List Text) : Prop :=
  lineAt Y 0 = dashes → frontmatterEnd Y = none → dashes ∉ R

theorem frontmatterEnd_of_ne (h : lineAt Z 0 ≠ dashes) : frontmatterEnd Z = none := if_neg h

theorem frontmatterEnd_lt {last : Nat} (h : frontmatterEnd (P ++ [[]]) = some last) :
    last < P.length := by
  obtain ⟨-, hlt, -, hline, -⟩ := frontmatterEnd_spec h
  rw [List.length_append] at hlt
  refine Nat.lt_of_le_of_ne (Nat.le_of_lt_succ hlt) fun heq => ?_
  rw [heq, lineAt_end] at hline
  exact absurd hline (by decide)

theorem frontmatterEnd_append_iff (ho : o ≠ dashes) (R : List Text) :
    frontmatterEnd (P ++ o :: R) = frontmatterEnd (P ++ [[]]) ↔
      KeepsFrontmatter (P ++ [[]]) (o :: R) := by
  cases hP : P with
  | nil =>
    have hnil : lineAt ([] ++ [[]]) 0 ≠ dashes := by decide
    have ho' : lineAt ([] ++ o :: R) 0 ≠ dashes := ho
    rw [frontmatterEnd_of_ne hnil, frontmatterEnd_of_ne ho']
    exact iff_of_true rfl fun h => absurd h hnil
  | cons l P' =>
    rw [← hP]
    have hpos : 0 < P.length := by simp [hP]
    have hfirst : ∀ o R, lineAt (P ++ o :: R) 0 = lineAt P 0 := fun o R => lineAt_append_left hpos
    by_cases hdash : lineAt P 0 = dashes
    · have hY : lineAt (P ++ [[]]) 0 = dashes := by rwa [hfirst]
      rw [frontmatterEnd_eq (show lineAt (P ++ o :: R) 0 = dashes by rwa [hfirst])]
      cases hend : frontmatterEnd (P ++ [[]]) with
      | some last =>
        have hlt := frontmatterEnd_lt hend
        refine iff_of_true (nextLine_eq_some.mpr ?_) fun _ hnone => by simp [hend] at hnone
        obtain ⟨hzero, -, -, hline, hbefore⟩ := frontmatterEnd_spec hend
        rw [lineAt_append_left hlt] at hline
        refine ⟨hzero, ?_, decide_eq_true ?_, fun k h₁ h₂ => decide_eq_false ?_⟩
        · rw [List.length_append]
          omega
        · rwa [lineAt_append_left hlt]
        · have hk := Nat.lt_trans h₂ hlt
          have hne := hbefore k h₁ h₂
          rw [lineAt_append_left hk] at hne ⊢
          exact hne
      | none =>
        have hbefore := nextLine_eq_none.mp ((frontmatterEnd_eq hY).symm.trans hend)
        rw [nextLine_eq_none]
        constructor
        · intro hall _ _ hmem
          obtain ⟨j, hj, hline⟩ := List.mem_iff_getElem.mp hmem
          have hnot := hall (P.length + j) (by omega) (by rw [List.length_append]; omega)
          rw [lineAt_append_right, lineAt_eq hj, hline] at hnot
          simp at hnot
        · intro hkeeps k h₁ h₂
          rcases Nat.lt_or_ge k P.length with hk | hk
          · have hnot := hbefore k h₁ (by rw [List.length_append]; omega)
            rw [lineAt_append_left hk] at hnot ⊢
            exact hnot
          · obtain ⟨j, rfl⟩ := Nat.exists_eq_add_of_le hk
            have hj : j < (o :: R).length := by
              rw [List.length_append] at h₂
              omega
            rw [lineAt_append_right, lineAt_eq hj]
            refine decide_eq_false fun heq => hkeeps hY hend ?_
            exact heq ▸ List.getElem_mem hj
    · rw [frontmatterEnd_of_ne (by rwa [hfirst]), frontmatterEnd_of_ne (by rwa [hfirst])]
      exact iff_of_true rfl fun h => absurd (hfirst [] [] ▸ h) hdash

/-- The blocks in front of a barrier, with the front matter. -/
theorem splitLines_append (hlast : isBlank (lineAt P (P.length - 1)) = true) (ho : Barrier o)
    {R : List Text} (hfront : frontmatterEnd (P ++ o :: R) = frontmatterEnd (P ++ [[]]))
    (hclosed : ClosesFences P (splitLines (P ++ [[]]))) :
    splitLines (P ++ o :: R) =
      splitLines (P ++ [[]]) ++ blocksFrom (P ++ o :: R) P.length := by
  unfold splitLines at hclosed ⊢
  rw [hfront]
  cases hend : frontmatterEnd (P ++ [[]]) with
  | none =>
    rw [hend] at hclosed
    exact blocksFrom_append_left hlast ho R (Nat.zero_le _) hclosed
  | some last =>
    rw [hend] at hclosed
    simp only [List.cons_append]
    rw [blocksFrom_append_left hlast ho R (frontmatterEnd_lt hend) fun r hr =>
      hclosed r (List.mem_cons_of_mem _ hr)]

/-- A code block goes to the next fence. -/
theorem blocksFrom_fence {R : List Text} {d : Nat} (ho : isFenceStart o = true) (hb : Barrier o)
    (hd : d < R.length) (hfence : isFenceStart (lineAt R d) = true)
    (hbefore : ∀ k < d, isFenceStart (lineAt R k) = false) :
    blocksFrom (P ++ o :: R) P.length =
      ⟨.code, P.length, P.length + 1 + d⟩ :: blocksFrom (P ++ o :: R) (P.length + 1 + d + 1) := by
  have hline : ∀ k, lineAt (P ++ o :: R) (P.length + 1 + k) = lineAt R k := fun k => by
    rw [Nat.add_assoc, lineAt_append_right, Nat.add_comm 1 k]
    rfl
  have hlen : P.length + 1 + d < (P ++ o :: R).length := by
    rw [List.length_append, List.length_cons]
    omega
  have hlt : P.length < (P ++ o :: R).length := by omega
  have hnext : nextLine (P ++ o :: R) P.length isFenceStart = some (P.length + 1 + d) := by
    refine nextLine_eq_some.mpr ⟨by omega, hlen, by rwa [hline], fun k h₁ h₂ => ?_⟩
    obtain ⟨j, rfl⟩ := Nat.exists_eq_add_of_le h₁
    rw [Nat.succ_eq_add_one, hline]
    exact hbefore j (by omega)
  have hblock : blockFrom (P ++ o :: R) P.length =
      (⟨.code, P.length, P.length + 1 + d⟩, P.length + 1 + d + 1) := by
    simp only [blockFrom, lineAt_end, if_pos ho, advance_eq_nextLine isFenceStart hlt, hnext,
      Option.getD_some, if_pos hlen, Nat.add_sub_cancel]
  rw [blocksFrom, if_pos hlt, lineAt_end, hb.blank, if_neg Bool.false_ne_true, hblock]

/-! ### The blocks of a text -/

section
variable {random random' : Nat → Text} {A B C D : Text} {Q : List Text} {bs cs : List Stretch}
  {c : Stretch} {k' : Nat}

theorem Covers.le_first {index : Nat} {r : Stretch} (h : Covers Z index bs) (hr : r ∈ bs) :
    index ≤ r.first := by
  induction bs generalizing index with
  | nil => simp at hr
  | cons r' bs ih =>
    obtain ⟨hge, hle, -, -, -, hrest⟩ := h
    rcases List.mem_cons.mp hr with rfl | hr
    · exact hge
    · have := ih hrest hr
      omega

theorem Covers.last_lt {index : Nat} (h : Covers Z index (bs ++ c :: cs)) {r : Stretch}
    (hr : r ∈ bs) : r.first ≤ r.last ∧ r.last < c.first := by
  induction bs generalizing index with
  | nil => simp at hr
  | cons r' bs ih =>
    obtain ⟨-, hle, -, -, -, hrest⟩ := h
    rcases List.mem_cons.mp hr with rfl | hr
    · exact ⟨hle, hrest.le_first (by simp)⟩
    · exact ih hrest hr

/-- The blocks of the lines in front are those of the text in front, where the next one begins at
its end. -/
theorem blocksOf_before (hA : lines A = P ++ [[]]) (hAC : lines (A ++ C) = P ++ W)
    (hbs : ∀ r ∈ bs, r.first ≤ r.last ∧ r.last < P.length)
    (hc : pieceStart (P ++ W) c.first = A.length) (k k' : Nat) :
    ∃ k'', (blocksOf random (A ++ C) k (bs ++ c :: cs)).map (SplitBlock.moved 0) =
      (blocksOf random' A k' bs).map (SplitBlock.moved 0) ++
        (blocksOf random (A ++ C) k'' (c :: cs)).map (SplitBlock.moved 0) := by
  induction bs generalizing k k' with
  | nil => exact ⟨k, rfl⟩
  | cons r bs ih =>
    obtain ⟨k'', hk⟩ := ih (fun r' hr' => hbs r' (List.mem_cons_of_mem r hr')) (k + 1) (k' + 1)
    refine ⟨k'', ?_⟩
    have hstart : ∀ {j}, j < P.length →
        pieceStart (lines (A ++ C)) j = pieceStart (lines A) j := fun hj => by
      rw [hA, hAC, pieceStart_append_left (Nat.le_of_lt hj),
        pieceStart_append_left (Nat.le_of_lt hj)]
    have hend : ∀ {j}, j < P.length →
        lineEnd (lines (A ++ C)) j = lineEnd (lines A) j := fun hj => by
      rw [lineEnd, lineEnd, hstart hj, hA, hAC, lineAt_append_left hj, lineAt_append_left hj]
    obtain ⟨hle, hlt⟩ := hbs r List.mem_cons_self
    have hlen : lineEnd (lines A) r.last ≤ A.length := by
      refine lineEnd_le_length ?_
      rw [hA, List.length_append]
      omega
    have hslice : slice (A ++ C) (pieceStart (lines A) r.first) (lineEnd (lines A) r.last) =
        slice A (pieceStart (lines A) r.first) (lineEnd (lines A) r.last) := by
      rw [slice_nat, slice_nat, List.take_append_of_le_length hlen]
    rw [List.cons_append, blocksOf, blocksOf, List.map_cons, List.map_cons, hk, List.cons_append]
    congr 1
    simp only [SplitBlock.moved, hstart (Nat.lt_of_le_of_lt hle hlt), hend hlt, hslice]
    congr 2
    cases bs with
    | nil => simp [hAC, hc]
    | cons r' bs =>
      obtain ⟨hle', hlt'⟩ := hbs r' (by simp)
      simp [hstart (Nat.lt_of_le_of_lt hle' hlt')]

/-- The blocks of the lines behind are those of the text behind. -/
theorem blocksOf_behind (hB : lines B = [] :: Q) (hDB : lines (D ++ B) = lines D ++ Q)
    (bs : List Stretch) (k k' : Nat) :
    (blocksOf random (D ++ B) k (bs.map (Stretch.shift (lines D).length))).map
        (SplitBlock.moved 0) =
      (blocksOf random' B k' (bs.map (Stretch.shift 1))).map (SplitBlock.moved D.length) := by
  have hstart : ∀ j, pieceStart (lines (D ++ B)) ((lines D).length + j) =
      D.length + pieceStart (lines B) (1 + j) := fun j => by
    have hlen := length_join newline (lines_ne_nil D)
    rw [join_lines] at hlen
    rw [hB, hDB, pieceStart_append_right, ← hlen, Nat.add_comm 1 j, pieceStart_cons]
    simp only [List.length_nil]
    omega
  have hend : ∀ j, lineEnd (lines (D ++ B)) ((lines D).length + j) =
      D.length + lineEnd (lines B) (1 + j) := fun j => by
    rw [lineEnd, lineEnd, hstart, hB, hDB, lineAt_append_right, Nat.add_assoc]
    have hline : lineAt ([] :: Q) (1 + j) = lineAt Q j := lineAt_append_right [[]] Q j
    rw [hline]
  have hslice : ∀ a b : Nat,
      slice (D ++ B) (D.length + a : Nat) (D.length + b : Nat) = slice B a b := fun a b => by
    rw [slice_nat, slice_nat, List.take_length_add_append, List.drop_length_add_append]
  induction bs generalizing k k' with
  | nil => rfl
  | cons r bs ih =>
    rw [List.map_cons, List.map_cons, blocksOf, blocksOf, List.map_cons, List.map_cons,
      ih]
    congr 1
    simp only [SplitBlock.moved, Stretch.shift, hstart, hend, hslice, Nat.zero_add]
    congr 1
    cases bs with
    | nil => simp
    | cons r' bs => simp [Stretch.shift, hstart]

end

/-- The lines of a text put in front of a line. -/
theorem lines_append_left {u s l : Text} {ls : List Text} (hu : newline ∉ u)
    (h : lines s = l :: ls) : lines (u ++ s) = (u ++ l) :: ls := by
  have hno := newline_notMem s
  rw [h] at hno
  have hjoin : u ++ s = [newline].intercalate ((u ++ l) :: ls) := by
    rw [← join_lines s, h]
    cases ls with
    | nil => simp
    | cons l' ls => simp [List.intercalate_cons_cons]
  rw [hjoin, lines_join (by simp)]
  intro l' hl'
  rcases List.mem_cons.mp hl' with rfl | hmem
  · rw [List.mem_append]
    exact fun h => h.elim hu (hno l List.mem_cons_self)
  · exact hno l' (List.mem_cons_of_mem l hmem)

section
variable {state : EditorState} {first last : Nat}

theorem lines_before (h : SetOff state first last) :
    lines (state.text.take state.selectionStart) = (lines state.text).take first ++ [[]] := by
  have htake := lines_take_append [] (Nat.lt_of_le_of_lt h.le h.lt)
  rwa [List.append_nil, ← h.start] at htake

theorem lines_behind (h : SetOff state first last) :
    lines (state.text.drop state.selectionEnd) = [] :: (lines state.text).drop (last + 1) := by
  have hdrop := lines_append_drop [] h.lt
  rwa [List.nil_append, ← h.stop] at hdrop

theorem SetOff.valid (h : SetOff state first last) : state.Valid := by
  refine ⟨?_, ?_⟩
  · rw [h.start, h.stop]
    exact Nat.le_trans (pieceStart_mono _ h.le) (Nat.le_add_right _ _)
  · rw [h.stop]
    exact lineEnd_le_length h.lt

/-- The block that the command puts around a text. -/
def fenced (language v : Text) : Text :=
  units "```" ++ language ++ newline :: (v ++ newline :: units "```")

theorem codeBlock_text (h : SetOff state first last) (language : Text) :
    (insertCodeBlock state (.ofText language)).bind Spec.text =
      some (state.text.take state.selectionStart ++ fenced language (selectedText state).value ++
        state.text.drop state.selectionEnd) := by
  have hunits : units "\n```" = newline :: units "```" := rfl
  have hunits' : units "\n" = [newline] := rfl
  simp only [insertCodeBlock, Value.ofText, Option.bind_eq_bind, Option.bind_some, replaceSelection,
    replaceRange, selectedText_eq h.valid, slice_zero, slice_nat, List.take_length, fenced, hunits,
    hunits', Option.pure_def, List.append_assoc, List.nil_append, List.cons_append]

theorem lines_fenced (language v : Text) : ∃ l L, lines language = l :: L ∧
    lines (fenced language v) = (units "```" ++ l) :: (L ++ lines v ++ [units "```"]) := by
  obtain ⟨l, L, hl⟩ := List.exists_cons_of_ne_nil (lines_ne_nil language)
  refine ⟨l, L, hl, ?_⟩
  have hclose : lines (units "```") = [units "```"] := by decide
  rw [fenced, lines_append_newline, lines_append_newline, lines_append_left (by decide) hl, hclose,
    List.cons_append, List.append_assoc]

/-- Nothing closes the code block before its end. -/
theorem exists_first_fence (S Q : List Text) : ∃ d ≤ S.length,
    isFenceStart (lineAt (S ++ units "```" :: Q) d) = true ∧
      ∀ k < d, isFenceStart (lineAt (S ++ units "```" :: Q) k) = false := by
  have hex : ∃ d, isFenceStart (lineAt (S ++ units "```" :: Q) d) = true :=
    ⟨S.length, by rw [lineAt_end]; decide⟩
  refine ⟨Nat.find hex, Nat.find_min' hex (by rw [lineAt_end]; decide), Nat.find_spec hex,
    fun k hk => Bool.eq_false_of_not_eq_true (Nat.find_min hex hk)⟩

theorem closesFences_of_noOpenFence {text : Text} (h : NoOpenFence text)
    (hlines : lines text = P ++ [[]]) : ClosesFences P (splitLines (P ++ [[]])) := by
  intro r hr hcode
  rw [← hlines] at hr
  obtain ⟨j, hj⟩ := Option.isSome_iff_exists.mp (h r hr hcode)
  rw [hlines] at hj
  obtain ⟨hlt, hlen, hfence, -⟩ := nextLine_eq_some.mp hj
  have hne : j ≠ P.length := fun heq => by
    rw [heq, lineAt_end] at hfence
    exact absurd hfence (by decide)
  have hj' : j < P.length := by
    rw [List.length_append, List.length_singleton] at hlen
    omega
  exact ⟨j, hlt, hj', by rwa [lineAt_append_left hj'] at hfence⟩

/-- What stands behind a text is split into a code block and the blocks behind its fence. -/
theorem splitBlocks_append {A C : Text} {R : List Text} {d : Nat} (random : Nat → Text)
    (hA : lines A = P ++ [[]]) (hAC : lines (A ++ C) = P ++ o :: R)
    (hlast : isBlank (lineAt P (P.length - 1)) = true) (hb : Barrier o)
    (ho : isFenceStart o = true) (hclosed : NoOpenFence A)
    (hfront : frontmatterEnd (P ++ o :: R) = frontmatterEnd (P ++ [[]])) (hd : d < R.length)
    (hfence : isFenceStart (lineAt R d) = true)
    (hbefore : ∀ k < d, isFenceStart (lineAt R k) = false) :
    ∃ (k : Nat) (code : SplitBlock), code.type = .code ∧
      (lines code.markdown).tail.dropLast = R.take d ∧
      (splitBlocks random (A ++ C)).map (SplitBlock.moved 0) =
        (splitBlocks random A).map (SplitBlock.moved 0) ++ code.moved 0 ::
          (blocksOf random (A ++ C) k
            (blocksFrom (P ++ o :: R) (P.length + 1 + d + 1))).map (SplitBlock.moved 0) := by
  have hsplit := splitLines_append hlast hb hfront (closesFences_of_noOpenFence hclosed hA)
  rw [blocksFrom_fence ho hb hd hfence hbefore] at hsplit
  have hcovers := covers_splitLines (P ++ o :: R)
  rw [hsplit] at hcovers
  have hstart : pieceStart (P ++ o :: R) P.length = A.length := by
    have hend := lineEnd_last (s := A) (i := P.length) (by rw [hA, List.length_append]; rfl)
    rw [hA, lineEnd, lineAt_end, pieceStart_append_left (Nat.le_refl _)] at hend
    rwa [pieceStart_append_left (Nat.le_refl _)]
  obtain ⟨k, hblocks⟩ := blocksOf_before hA hAC (c := ⟨.code, P.length, P.length + 1 + d⟩)
    (fun r hr => hcovers.last_lt hr) hstart 0 0
  have hlen : P.length + 1 + d < (lines (A ++ C)).length := by
    rw [hAC, List.length_append, List.length_cons]
    omega
  have hbody := lines_slice (s := A ++ C) (i := P.length) (j := P.length + 1 + d) (by omega) hlen
  have htake : ((P ++ o :: R).take (P.length + 1 + d + 1)).drop P.length = o :: R.take (d + 1) := by
    rw [Nat.add_assoc P.length, Nat.add_assoc P.length, List.take_length_add_append, List.drop_left,
      Nat.add_comm 1 d, List.take_succ_cons]
  have hcode : ∃ code : SplitBlock, blocksOf random (A ++ C) k
      (⟨.code, P.length, P.length + 1 + d⟩ :: blocksFrom (P ++ o :: R) (P.length + 1 + d + 1)) =
        code :: blocksOf random (A ++ C) (k + 1)
          (blocksFrom (P ++ o :: R) (P.length + 1 + d + 1)) ∧ code.type = .code ∧
      code.markdown = slice (A ++ C) (pieceStart (lines (A ++ C)) P.length)
        (lineEnd (lines (A ++ C)) (P.length + 1 + d)) := ⟨_, rfl, rfl, rfl⟩
  obtain ⟨code, hcons, htype, hmarkdown⟩ := hcode
  refine ⟨k + 1, code, htype, ?_, ?_⟩
  · rw [hmarkdown, hbody, hAC, htake, List.tail_cons, List.take_succ_eq_append_getElem hd,
      List.dropLast_concat]
  · rw [splitBlocks_eq, splitBlocks_eq, hAC, hsplit, hA, hblocks, hcons, List.map_cons]

end

section
variable {A B D T v language : Text} {Q S R : List Text} {random : Nat → Text} {d : Nat}

/-- The line that closes the block is not in one of the blocks behind. -/
theorem first_fence_eq {blocks : List SplitBlock} (hD : lines D = P ++ o :: (S ++ [units "```"]))
    (hT : lines (D ++ B) = lines D ++ Q) (hd : d ≤ S.length)
    (hrest : (blocksOf random (D ++ B) k
      (blocksFrom (lines (D ++ B)) (P.length + 1 + d + 1))).map (SplitBlock.moved 0) =
        blocks.map (SplitBlock.moved D.length)) : d = S.length := by
  by_contra hne
  have hlen : P.length + 1 + S.length + 1 = (lines D).length := by
    simp only [hD, List.length_append, List.length_cons, List.length_nil]
    omega
  have hclose : lineAt (lines D) (P.length + 1 + S.length) = units "```" := by
    have hline := lineAt_end (P ++ o :: S) (units "```") []
    rw [List.length_append, List.length_cons, ← Nat.add_assoc, Nat.add_right_comm] at hline
    simpa [hD] using hline
  have hlt : P.length + 1 + S.length < (lines D).length := by omega
  have hclose' : lineAt (lines (D ++ B)) (P.length + 1 + S.length) = units "```" := by
    rw [hT, lineAt_append_left hlt, hclose]
  have hcovers := covers_blocksFrom (lines (D ++ B)) (P.length + 1 + d + 1)
  obtain ⟨r, hr, hfirst, -⟩ := hcovers.exists_mem (i := P.length + 1 + S.length) (by omega)
    (by rw [hT, List.length_append]; omega) (by rw [hclose']; decide)
  obtain ⟨b, hb, -, hstart, -⟩ := exists_mem_blocksOf random k hr
  have hmem := List.mem_map_of_mem (f := SplitBlock.moved 0) hb
  rw [hrest] at hmem
  obtain ⟨b', -, hb'⟩ := List.mem_map.mp hmem
  have hstart' : D.length + b'.start = 0 + b.start := congrArg SplitBlock.start hb'
  have hbefore := pieceStart_mono (lines (D ++ B)) hfirst
  rw [hT, pieceStart_append_left (Nat.le_of_lt hlt)] at hbefore
  rw [hT] at hstart
  have hend := lineEnd_last (s := D) hlen
  rw [lineEnd, hclose] at hend
  have hthree : 0 < (units "```").length := by decide
  omega

/-- Where front matter is closed behind the text in front, the blocks of that text are lost. -/
theorem not_splitsAround {last : Nat} (hA : frontmatterEnd (lines A) = none)
    (hT : frontmatterEnd (lines T) = some last) : ¬ SplitsAround random A v B T := by
  rintro ⟨code, hcode, -, heq⟩
  obtain ⟨b, hb, htype, -⟩ := exists_head_frontmatter random hT
  have hhead := congrArg List.head? heq
  rw [List.head?_map, hb] at hhead
  cases hblocks : splitBlocks random A with
  | nil =>
    rw [hblocks] at hhead
    have hsame := congrArg SplitBlock.type (Option.some.inj hhead)
    exact absurd (htype.symm.trans (hsame.trans hcode)) (by decide)
  | cons b' blocks =>
    rw [hblocks] at hhead
    have hsame := congrArg SplitBlock.type (Option.some.inj hhead)
    have hfirst : (splitBlocks random A).head? = some b' := by rw [hblocks, List.head?_cons]
    obtain ⟨last', hlast, -⟩ := head_frontmatter random A b' ⟨hfirst, hsame.symm.trans htype⟩
    rw [hA] at hlast
    simp at hlast

theorem splitsAround_iff (random : Nat → Text) (hA : lines A = P ++ [[]]) (hB : lines B = [] :: Q)
    (hD : lines (A ++ fenced language v) = P ++ lines (fenced language v))
    (hT : lines (A ++ fenced language v ++ B) = lines (A ++ fenced language v) ++ Q)
    (hlast : isBlank (lineAt P (P.length - 1)) = true) (hclosed : NoOpenFence A) :
    SplitsAround random A v B (A ++ fenced language v ++ B) ↔ newline ∉ language ∧
      (∀ line ∈ lines v, isFenceStart line = false) ∧
      KeepsFrontmatter (lines A) (lines v ++ Q) := by
  obtain ⟨l, L, hl, hfenced⟩ := lines_fenced language v
  have hsingle : newline ∉ language ↔ L = [] := by
    constructor
    · intro hno
      rw [lines_eq_singleton hno] at hl
      exact (List.cons.inj hl).2.symm
    · rintro rfl
      rw [← join_lines language, hl, List.intercalate_singleton]
      exact newline_notMem language l (by simp [hl])
  rw [hfenced] at hD
  have hZ : lines (A ++ fenced language v ++ B) =
      P ++ (units "```" ++ l) :: (L ++ lines v ++ units "```" :: Q) := by
    rw [hT, hD]
    simp
  have hne : units "```" ++ l ≠ dashes := fun h => by
    rw [backticks_eq] at h
    exact absurd (List.cons.inj h).1 (by decide)
  have hiff := frontmatterEnd_append_iff (P := P) hne (L ++ lines v ++ units "```" :: Q)
  rw [← hZ, ← hA] at hiff
  have hkeeps : L = [] → (KeepsFrontmatter (lines A) ((units "```" ++ l) ::
      (L ++ lines v ++ units "```" :: Q)) ↔ KeepsFrontmatter (lines A) (lines v ++ Q)) := by
    rintro rfl
    have hticks : dashes ≠ units "```" := by decide
    simp only [KeepsFrontmatter, List.mem_cons, List.mem_append, hne.symm, hticks, List.not_mem_nil,
      false_or]
  by_cases hfront : frontmatterEnd (lines (A ++ fenced language v ++ B)) = frontmatterEnd (lines A)
  · obtain ⟨d, hd, hfence, hbefore⟩ := exists_first_fence (L ++ lines v) Q
    have hdlt : d < (L ++ lines v ++ units "```" :: Q).length := by
      rw [List.length_append, List.length_cons]
      omega
    rw [List.append_assoc] at hZ
    obtain ⟨k, code', htype, hbody, hblocks⟩ := splitBlocks_append random hA hZ hlast
      (barrier_backticks l) (isFenceStart_backticks l) hclosed
      (by rw [← hZ, ← List.append_assoc, hfront, hA]) hdlt hfence hbefore
    rw [List.take_append_of_le_length hd] at hbody
    rw [← List.append_assoc] at hblocks hZ
    have hoffset : (A ++ fenced language v ++ B).length - B.length =
        (A ++ fenced language v).length := by
      rw [List.length_append, Nat.add_sub_cancel]
    rw [SplitsAround, hblocks, hoffset]
    constructor
    · rintro ⟨code, -, hlines, heq⟩
      obtain ⟨hsame, hrest⟩ := List.cons.inj (List.append_cancel_left heq)
      have hmarkdown := congrArg SplitBlock.markdown hsame
      simp only [SplitBlock.moved] at hmarkdown
      rw [← hZ] at hrest
      have hlen := first_fence_eq (o := units "```" ++ l) (by rw [hD]) hT hd hrest
      rw [hmarkdown, hlines, hlen, List.take_length] at hbody
      have hL : L = [] := by
        have := congrArg List.length hbody
        rw [List.length_append] at this
        exact List.eq_nil_of_length_eq_zero (by omega)
      refine ⟨hsingle.mpr hL, fun line hline => ?_, (hkeeps hL).mp (hiff.mp hfront)⟩
      subst hL
      obtain ⟨j, hj, rfl⟩ := List.mem_iff_getElem.mp hline
      have hno := hbefore j (by rw [hlen]; exact hj)
      rw [lineAt_append_left (by exact hj)] at hno
      rwa [← lineAt_eq hj]
    · rintro ⟨hno, hfences, -⟩
      have hL := hsingle.mp hno
      subst hL
      rw [List.nil_append] at hd hbody hfence hD
      have hlen : d = (lines v).length := by
        by_contra hne
        have hlt := Nat.lt_of_le_of_ne hd hne
        rw [lineAt_append_left hlt, lineAt_eq hlt] at hfence
        simp [hfences _ (List.getElem_mem hlt)] at hfence
      refine ⟨code', htype, ?_, ?_⟩
      · rw [hbody, hlen, List.take_length]
      have hsplit : splitLines (lines B) = (blocksFrom Q 0).map (Stretch.shift 1) := by
        have hfirst : lineAt ([] :: Q) 0 = [] := rfl
        rw [hB, splitLines, frontmatterEnd_of_ne (by rw [hfirst]; decide), blocksFrom,
          if_pos (by simp), hfirst, if_pos (by decide)]
        exact blocksFrom_append_right [[]] Q 0
      have hbehind := blocksFrom_append_right (lines (A ++ fenced language v)) Q 0
      have hnext : P.length + 1 + d + 1 = (lines (A ++ fenced language v)).length + 0 := by
        simp only [hD, hlen, List.length_append, List.length_cons, List.length_nil]
        omega
      rw [← hZ, hT, hnext, hbehind, splitBlocks_eq random B, hsplit]
      exact congrArg (_ ++ _ :: ·) (blocksOf_behind hB hT (blocksFrom Q 0) k 0)
  · have hlost := fun h => hfront (hiff.mpr h)
    refine iff_of_false ?_ fun h => hlost ((hkeeps (hsingle.mp h.1)).mpr h.2.2)
    have hnone : frontmatterEnd (lines A) = none := by
      by_contra hsome
      exact hlost fun _ hnone => absurd hnone hsome
    obtain ⟨last, hsome⟩ := Option.ne_none_iff_exists'.mp (hnone ▸ hfront)
    exact not_splitsAround hnone hsome

/-- The code block holds the selection exactly where the language is one line, no line of the
selection looks like a fence, and neither it nor what is behind it has the dashes that would close
front matter opened in front of it. -/
theorem holdsSelection_iff (random : Nat → Text) (state : EditorState) (language : Text)
    (first last : Nat) (h : SetOff state first last)
    (hclosed : NoOpenFence (state.text.take state.selectionStart)) :
    HoldsSelection random state language ↔ newline ∉ language ∧
      (∀ line ∈ lines (selectedText state).value, isFenceStart line = false) ∧
      KeepsFrontmatter (lines (state.text.take state.selectionStart))
        (lines ((selectedText state).value ++ state.text.drop state.selectionEnd)) := by
  have hlt := Nat.lt_of_le_of_lt h.le h.lt
  have hD := lines_take_append (fenced language (selectedText state).value) hlt
  have hvB := lines_append_drop (selectedText state).value h.lt
  have hT := lines_append_drop (state.text.take state.selectionStart ++
    fenced language (selectedText state).value) h.lt
  rw [← h.start] at hD
  rw [← h.stop] at hvB hT
  have hlast : isBlank (lineAt ((lines state.text).take first)
      (((lines state.text).take first).length - 1)) = true := by
    rw [List.length_take, Nat.min_eq_left (Nat.le_of_lt hlt)]
    rcases Nat.eq_zero_or_pos first with rfl | hpos
    · rw [List.take_zero]
      decide
    · have hblank := h.before.resolve_left (Nat.ne_of_gt hpos)
      rw [← List.take_append_drop first (lines state.text), lineAt_append_left] at hblank
      · exact hblank
      · rw [List.length_take]
        omega
  have hsplits := splitsAround_iff random (lines_before h) (lines_behind h) hD hT hlast hclosed
  rw [HoldsSelection, codeBlock_text h, hvB, ← hsplits]
  simp only [Option.some.injEq, exists_eq_left']

/-- The last paragraph of a document. -/
theorem holdsSelection_paragraph : HoldsSelection (fun _ => []) ⟨units "a\n\nb", 3, 4⟩ [] :=
  (holdsSelection_iff (fun _ => []) ⟨units "a\n\nb", 3, 4⟩ [] 2 2
    ⟨by decide, by decide, by decide, by decide, .inr (by decide), by decide⟩
    (by unfold NoOpenFence; decide +kernel)).mpr
      ⟨by decide, by decide, fun h => absurd h (by decide)⟩

/-- A fence in the selection ends the block, and the closing one opens another. -/
theorem fence_ends_block : ∃ (state : EditorState) (first last : Nat),
    SetOff state first last ∧ NoOpenFence (state.text.take state.selectionStart) ∧
      ¬ HoldsSelection (fun _ => []) state [] := by
  have hset : SetOff ⟨units "```", 0, 3⟩ 0 0 :=
    ⟨by decide, by decide, by decide, by decide, .inl rfl, by decide⟩
  have hclosed : NoOpenFence [] := by
    unfold NoOpenFence
    decide +kernel
  refine ⟨⟨units "```", 0, 3⟩, 0, 0, hset, hclosed, fun ⟨text, htext, hsplits⟩ => ?_⟩
  rw [codeBlock_text hset] at htext
  rw [← Option.some.inj htext] at hsplits
  have hlines : lines ([] ++ fenced [] (units "```")) = [] ++ lines (fenced [] (units "```")) := rfl
  have hiff := splitsAround_iff (P := []) (Q := []) (A := []) (B := []) (fun _ => []) rfl rfl hlines
    rfl (by decide) hclosed
  exact absurd ((hiff.mp hsplits).2.1 (units "```") (by decide)) (by decide)

end

end Mdock.Editor.Blocks
