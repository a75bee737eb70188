import Mdock.Editor.Partition

/-! The lookups of the block at a position against each other. -/
namespace Mdock.Editor.Blocks
open Mdock.Js

/-- The fields of a focused block; `start` and `stop` are `from` and `to`. -/
structure FocusedBlock where
  start : Nat
  stop : Nat
  sourceTo : Nat
  blockIndex : Nat

def blockAtPosition (random : Nat → Text) (content : Text) (position : Nat) : Option SplitBlock :=
  let blocks := splitBlocks random content
  (blocks.find? fun b => decide (b.start ≤ position) && decide (position < b.stop)).or
    blocks.getLast?

def touches (position : Nat) (b : SplitBlock) : Bool :=
  decide (b.start ≤ position) && decide (position ≤ b.stop)

/-- `caret` is what `posAtDOM` gives for the caret under the pointer, if there is one. -/
def findBlockAtPosition (blocks : List SplitBlock) (caret : Option Nat) : Option SplitBlock :=
  caret.bind fun position => blocks.find? (touches position)

def findBlockAtTouch (blocks : List SplitBlock) (caret : Option Nat) : Option FocusedBlock := do
  let position ← caret
  let i ← blocks.findIdx? (touches position)
  let block ← blocks[i]?
  return ⟨block.start, block.stop, block.sourceTo, i⟩

def isCaretInsideFence (random : Nat → Text) (content : Text) (position : Nat) : Bool :=
  (splitBlocks random content).any fun b => decide (b.type = .code) && touches position b

/-- A focused block stands for one of the blocks. -/
def Names (blocks : List SplitBlock) (f : FocusedBlock) (b : SplitBlock) : Prop :=
  blocks[f.blockIndex]? = some b ∧ f.start = b.start ∧ f.stop = b.stop ∧ f.sourceTo = b.sourceTo

/-- The position is in the source of the block. -/
def InSource (b : SplitBlock) (position : Nat) : Prop :=
  b.start ≤ position ∧ position ≤ b.sourceTo

/-- Those lookups that find a block find the same one, the one with the position in its source if
there is one, and the caret is taken to be in a fence exactly where it is in the source of code. -/
def LookupsAgree (random : Nat → Text) (content : Text) (p : Nat) : Prop :=
  let blocks := splitBlocks random content
  (∀ a b, blockAtPosition random content p = some a → findBlockAtPosition blocks (some p) = some b →
    a = b) ∧
  (∀ a f, blockAtPosition random content p = some a → findBlockAtTouch blocks (some p) = some f →
    Names blocks f a) ∧
  (∀ b f, findBlockAtPosition blocks (some p) = some b → findBlockAtTouch blocks (some p) = some f →
    Names blocks f b) ∧
  (∀ c ∈ blocks, InSource c p → blockAtPosition random content p = some c ∧
    findBlockAtPosition blocks (some p) = some c ∧
    ∃ f, findBlockAtTouch blocks (some p) = some f ∧ Names blocks f c) ∧
  (isCaretInsideFence random content p = true ↔ ∃ b ∈ blocks, b.type = .code ∧ InSource b p)

variable {random : Nat → Text} {content : Text} {blocks : List SplitBlock} {k p q : Nat}
  {a b : SplitBlock}

theorem touches_iff : touches p b = true ↔ b.start ≤ p ∧ p ≤ b.stop := by
  simp [touches]

/-- The touch lookup finds what the other finds. -/
theorem touch_of_position (h : findBlockAtPosition blocks (some p) = some b) :
    ∃ f, findBlockAtTouch blocks (some p) = some f ∧ Names blocks f b := by
  obtain ⟨hb, i, hi, heq, hbefore⟩ := List.find?_eq_some_iff_getElem.mp h
  have hidx : blocks.findIdx? (touches p) = some i := by
    refine List.findIdx?_eq_some_iff_getElem.mpr ⟨hi, heq ▸ hb, fun j hj => ?_⟩
    simpa using hbefore j hj
  refine ⟨⟨b.start, b.stop, b.sourceTo, i⟩, ?_, ?_, rfl, rfl, rfl⟩
  · simp [findBlockAtTouch, hidx, hi, heq]
  · exact List.getElem?_eq_some_iff.mpr ⟨hi, heq⟩

theorem position_of_touch {f : FocusedBlock} (h : findBlockAtTouch blocks (some p) = some f) :
    ∃ b, findBlockAtPosition blocks (some p) = some b := by
  cases hfind : findBlockAtPosition blocks (some p) with
  | some b => exact ⟨b, rfl⟩
  | none =>
    have hnone : blocks.findIdx? (touches p) = none :=
      List.findIdx?_eq_none_iff.mpr (by simpa [findBlockAtPosition] using hfind)
    simp [findBlockAtTouch, hnone] at h

/-- The position is where a block begins that is not the first. -/
def Boundary (blocks : List SplitBlock) (p : Nat) : Prop :=
  ∃ k b, blocks[k + 1]? = some b ∧ b.start = p

namespace Tiles

/-- Two blocks are one, or the one stands before the other, which is not the first then. -/
theorem trichotomy (h : Tiles content q blocks) (ha : a ∈ blocks) (hb : b ∈ blocks) :
    a = b ∨ (a.stop ≤ b.start ∧ Boundary blocks b.start) ∨
      (b.stop ≤ a.start ∧ Boundary blocks a.start) := by
  obtain ⟨i, hi⟩ := List.mem_iff_getElem?.mp ha
  obtain ⟨j, hj⟩ := List.mem_iff_getElem?.mp hb
  obtain ⟨hilt, hieq⟩ := List.getElem?_eq_some_iff.mp hi
  obtain ⟨hjlt, hjeq⟩ := List.getElem?_eq_some_iff.mp hj
  have hpair := List.pairwise_iff_getElem.mp h.pairwise
  rcases Nat.lt_trichotomy i j with hij | rfl | hij
  · obtain ⟨j, rfl⟩ : ∃ k, j = k + 1 := ⟨j - 1, by omega⟩
    exact .inr (.inl ⟨hieq ▸ hjeq ▸ hpair i (j + 1) hilt hjlt hij, j, b, hj, rfl⟩)
  · exact .inl (Option.some.inj (hi.symm.trans hj))
  · obtain ⟨i, rfl⟩ : ∃ k, i = k + 1 := ⟨i - 1, by omega⟩
    exact .inr (.inr ⟨hieq ▸ hjeq ▸ hpair j (i + 1) hjlt hilt hij, i, a, hi, rfl⟩)

/-- What touches a position where no later block begins is the only block that does. -/
theorem eq_of_touches (h : Tiles content q blocks) (hp : ¬ Boundary blocks p) (ha : a ∈ blocks)
    (hb : b ∈ blocks) (hpa : touches p a = true) (hpb : touches p b = true) : a = b := by
  rw [touches_iff] at hpa hpb
  rcases h.trichotomy ha hb with heq | ⟨hle, hbound⟩ | ⟨hle, hbound⟩
  · exact heq
  · exact absurd ((by omega : p = b.start) ▸ hbound) hp
  · exact absurd ((by omega : p = a.start) ▸ hbound) hp

/-- A block that ends where no later block begins is the last. -/
theorem getLast?_of_stop (h : Tiles content q blocks) (hp : ¬ Boundary blocks b.stop)
    (hb : b ∈ blocks) : blocks.getLast? = some b := by
  obtain ⟨i, hi⟩ := List.mem_iff_getElem?.mp hb
  have hstop := h.stop_eq hi
  cases hnext : blocks[i + 1]? with
  | some c =>
    rw [hnext] at hstop
    exact absurd ⟨i, c, hnext, hstop.symm⟩ hp
  | none =>
    have hlt := (List.getElem?_eq_some_iff.mp hi).1
    have hlen := List.getElem?_eq_none_iff.mp hnext
    rw [List.getLast?_eq_getElem?, ← hi]
    congr 1
    omega

/-- Where a block begins behind another, the other is found. -/
theorem find_ne (h : Tiles content q blocks) (hb : blocks[k + 1]? = some b) :
    findBlockAtPosition blocks (some b.start) ≠ some b := by
  intro hfind
  obtain ⟨-, i, hi, heq, hbefore⟩ := List.find?_eq_some_iff_getElem.mp hfind
  obtain ⟨hk, hbk⟩ := List.getElem?_eq_some_iff.mp hb
  have hlt := (h.of_mem (List.mem_of_getElem? hb)).1
  have hto := (h.of_mem (List.mem_of_getElem? hb)).2.1
  by_cases hik : k < i
  · have hk' : k < blocks.length := Nat.lt_of_succ_lt hk
    have hstop := h.stop_eq (List.getElem?_eq_getElem hk')
    rw [hb, Option.map_some, Option.getD_some] at hstop
    obtain ⟨hstart, hsource, -⟩ := h.of_mem (List.getElem_mem hk')
    have htouch : touches b.start blocks[k] = true := touches_iff.mpr (by omega)
    simpa [htouch] using hbefore k hik
  · have hpair := List.pairwise_iff_getElem.mp h.pairwise i (k + 1) hi hk (by omega)
    rw [heq, hbk] at hpair
    omega

end Tiles

/-- Where no later block begins both lookups give the block that touches the position. -/
theorem lookups_of_touches (hp : ¬ Boundary (splitBlocks random content) p)
    (hb : b ∈ splitBlocks random content) (htouch : touches p b = true) :
    blockAtPosition random content p = some b ∧
      findBlockAtPosition (splitBlocks random content) (some p) = some b := by
  have htiles := tiles_splitBlocks random content
  refine ⟨?_, ?_⟩
  · rw [blockAtPosition]
    cases hfind : (splitBlocks random content).find? fun b =>
        decide (b.start ≤ p) && decide (p < b.stop) with
    | some a =>
      have ha := List.find?_some hfind
      simp only [Bool.and_eq_true, decide_eq_true_iff] at ha
      have htouch' := touches_iff.mpr ⟨ha.1, Nat.le_of_lt ha.2⟩
      rw [htiles.eq_of_touches hp (List.mem_of_find?_eq_some hfind) hb htouch' htouch]
      rfl
    | none =>
      have hnot := List.find?_eq_none.mp hfind b hb
      simp only [Bool.and_eq_true, decide_eq_true_iff] at hnot
      have hin := touches_iff.mp htouch
      obtain rfl : p = b.stop := by omega
      rw [htiles.getLast?_of_stop hp hb]
      rfl
  · cases hfind : findBlockAtPosition (splitBlocks random content) (some p) with
    | some a =>
      rw [htiles.eq_of_touches hp (List.mem_of_find?_eq_some hfind) hb (List.find?_some hfind) htouch]
    | none => exact absurd htouch (List.find?_eq_none.mp hfind b hb)

/-- The lookups agree except where a block other than the first begins and in the blank text
behind code. -/
theorem lookups_agree_iff (random : Nat → Text) (content : Text) (p : Nat) :
    LookupsAgree random content p ↔ ¬ Boundary (splitBlocks random content) p ∧
      ¬ ∃ b ∈ splitBlocks random content, b.type = .code ∧ b.sourceTo < p ∧ p ≤ b.stop := by
  have htiles := tiles_splitBlocks random content
  constructor
  · rintro ⟨-, -, -, hsource, hfence⟩
    have hbound : ¬ Boundary (splitBlocks random content) p := by
      rintro ⟨k, c, hc, rfl⟩
      have hin := htiles.of_mem (List.mem_of_getElem? hc)
      obtain ⟨-, hfind, -⟩ := hsource c (List.mem_of_getElem? hc) ⟨Nat.le_refl _, Nat.le_of_lt hin.1⟩
      exact htiles.find_ne hc hfind
    refine ⟨hbound, ?_⟩
    rintro ⟨b, hb, hcode, hlt, hle⟩
    have hin := htiles.of_mem hb
    have hinside : isCaretInsideFence random content p = true :=
      List.any_eq_true.mpr ⟨b, hb, by simp [hcode, touches_iff]; omega⟩
    obtain ⟨c, hc, -, hstart, hto⟩ := hfence.mp hinside
    have hc' := htiles.of_mem hc
    obtain rfl : b = c := htiles.eq_of_touches hbound hb hc (touches_iff.mpr (by omega))
      (touches_iff.mpr (by omega))
    omega
  · rintro ⟨hbound, hcode⟩
    have hboth : ∀ b, findBlockAtPosition (splitBlocks random content) (some p) = some b →
        blockAtPosition random content p = some b := fun b hb =>
      (lookups_of_touches hbound (List.mem_of_find?_eq_some hb) (List.find?_some hb)).1
    have hnames : ∀ b f, findBlockAtPosition (splitBlocks random content) (some p) = some b →
        findBlockAtTouch (splitBlocks random content) (some p) = some f →
        Names (splitBlocks random content) f b := fun b f hb hf => by
      obtain ⟨f', hf', hname⟩ := touch_of_position hb
      rwa [Option.some.inj (hf.symm.trans hf')]
    refine ⟨fun a b ha hb => Option.some.inj (ha.symm.trans (hboth b hb)), fun a f ha hf => ?_, hnames,
      fun c hc hin => ?_, ?_⟩
    · obtain ⟨b, hb⟩ := position_of_touch hf
      rw [Option.some.inj (ha.symm.trans (hboth b hb))]
      exact hnames b f hb hf
    · have hle := (htiles.of_mem hc).2.1
      obtain ⟨hat, hfind⟩ := lookups_of_touches hbound hc
        (touches_iff.mpr ⟨hin.1, Nat.le_trans hin.2 hle⟩)
      exact ⟨hat, hfind, touch_of_position hfind⟩
    · simp only [isCaretInsideFence, List.any_eq_true, Bool.and_eq_true, decide_eq_true_iff,
        touches_iff]
      constructor
      · rintro ⟨b, hb, htype, hstart, hstop⟩
        refine ⟨b, hb, htype, hstart, ?_⟩
        by_contra hlt
        exact hcode ⟨b, hb, htype, Nat.lt_of_not_le hlt, hstop⟩
      · rintro ⟨b, hb, htype, hstart, hto⟩
        exact ⟨b, hb, htype, hstart, Nat.le_trans hto (htiles.of_mem hb).2.1⟩

/-- At the beginning of the second block the splitter names it and live preview the first. -/
theorem lookups_disagree : ¬ LookupsAgree (fun _ => []) (units "a\n\nb") 3 := by
  rintro ⟨hsame, -⟩
  have hat : blockAtPosition (fun _ => []) (units "a\n\nb") 3 =
      some ⟨.paragraph, 3, 4, 4, units "b", units "block-"⟩ := by decide +kernel
  have hfind : findBlockAtPosition (splitBlocks (fun _ => []) (units "a\n\nb")) (some 3) =
      some ⟨.paragraph, 0, 3, 1, units "a", units "block-"⟩ := by decide +kernel
  exact absurd (hsame _ _ hat hfind) (by decide)

end Mdock.Editor.Blocks
