import Mdock.Editor.Blocks

/-! The blocks of a document do not meet and leave out nothing but blank text. -/
namespace Mdock.Editor.Blocks
open Mdock.Js Mdock.Lib

variable {random : Nat → Text} {content : Text} {ls : List Text} {bs : List Stretch}
  {blocks : List SplitBlock} {index i k p : Nat} {b : SplitBlock} {r : Stretch}

theorem getD_starts {o : Nat} (h : i < ls.length) : (starts o ls).getD i 0 = o + pieceStart ls i := by
  induction ls generalizing o i with
  | nil => simp at h
  | cons l ls ih =>
    cases i with
    | zero => simp [starts]
    | succ i =>
      rw [starts, List.getD_cons_succ, ih (by simpa using h), pieceStart_cons]
      omega

/-- The blocks of stretches that come one after the other. -/
def blocksOf (random : Nat → Text) (content : Text) : Nat → List Stretch → List SplitBlock
  | _, [] => []
  | k, r :: bs =>
    { type := r.type
      start := pieceStart (lines content) r.first
      stop := (bs.head?.map fun r' => pieceStart (lines content) r'.first).getD content.length
      sourceTo := lineEnd (lines content) r.last
      markdown := slice content (pieceStart (lines content) r.first)
        (lineEnd (lines content) r.last)
      blockId := generateBlockId (random k) } :: blocksOf random content (k + 1) bs

theorem absorbSeparators_cons (b : SplitBlock) (blocks : List SplitBlock) (n : Nat) :
    absorbSeparators (b :: blocks) n =
      { b with stop := (blocks.head?.map SplitBlock.start).getD n } :: absorbSeparators blocks n := by
  simp [absorbSeparators, List.mapIdx_cons, List.head?_eq_getElem?]


theorem createBlock_eq (hle : r.first ≤ r.last) (hlt : r.last < (lines content).length) (id : Text) :
    createBlock id r.type (lines content) (starts 0 (lines content)) r.first r.last none =
      { type := r.type
        start := pieceStart (lines content) r.first
        stop := lineEnd (lines content) r.last
        sourceTo := lineEnd (lines content) r.last
        markdown := slice content (pieceStart (lines content) r.first)
          (lineEnd (lines content) r.last)
        blockId := generateBlockId id } := by
  have hslice := slice_pieces newline hle hlt
  rw [join_lines, ← slice_nat] at hslice
  simp only [createBlock, getD_starts (Nat.lt_of_le_of_lt hle hlt), getD_starts hlt, Nat.zero_add,
    lineEnd, lineAt_eq hlt, hslice, join, Option.getD_none]

theorem absorb_create (h : Covers (lines content) index bs) (k : Nat) :
    absorbSeparators (bs.mapIdx fun j r => createBlock (random (k + j)) r.type (lines content)
      (starts 0 (lines content)) r.first r.last none) content.length =
      blocksOf random content k bs := by
  induction bs generalizing index k with
  | nil => rfl
  | cons r bs ih =>
    obtain ⟨-, hle, hlt, -, -, hrest⟩ := h
    rw [List.mapIdx_cons, absorbSeparators_cons, blocksOf, createBlock_eq hle hlt]
    have hstep : ∀ j, random (k + (j + 1)) = random (k + 1 + j) := fun j => by
      rw [Nat.add_right_comm, Nat.add_assoc]
    simp only [hstep, ih hrest (k + 1)]
    congr 2
    cases bs with
    | nil => rfl
    | cons r' bs =>
      obtain ⟨-, hle', hlt', -, -, -⟩ := hrest
      rw [List.mapIdx_cons, createBlock_eq hle' hlt']
      rfl

theorem splitBlocks_eq (random : Nat → Text) (content : Text) :
    splitBlocks random content = blocksOf random content 0 (splitLines (lines content)) := by
  rw [← absorb_create (covers_splitLines (lines content)) 0]
  simp [splitBlocks]

/-- A character that stands in no line but a blank one is blank. -/
theorem isSpace_of_blank {q : Nat} {c : UInt16} (hc : content[q]? = some c)
    (h : ∀ i, i < (lines content).length → pieceStart (lines content) i ≤ q →
      q < lineEnd (lines content) i → isBlank (lineAt (lines content) i) = true) :
    isSpace c = true := by
  have hq := (List.getElem?_eq_some_iff.mp hc).1
  obtain ⟨i, hi, hstart, hend⟩ := exists_line (Nat.le_of_lt hq)
  rcases Nat.lt_or_eq_of_le hend with hlt | heq
  · exact isBlank_iff.mp (h i hi hstart hlt) c (mem_lineAt hi hstart hlt hc)
  · by_cases hnext : i + 1 < (lines content).length
    · have hget := getElem?_lineEnd hnext
      rw [← heq, hc] at hget
      rw [Option.some.inj hget]
      decide
    · have hlast := lineEnd_last (s := content) (i := i) (by omega)
      omega

/-- The blocks come one after the other from a position on, each up to the beginning of the next,
and what is not in their source is blank. -/
def Tiles (content : Text) : Nat → List SplitBlock → Prop
  | p, [] => ∀ q c, p ≤ q → content[q]? = some c → isSpace c = true
  | p, b :: blocks => p ≤ b.start ∧ b.start < b.sourceTo ∧ b.sourceTo ≤ b.stop ∧
      b.stop ≤ content.length ∧ b.stop = (blocks.head?.map SplitBlock.start).getD content.length ∧
      (blocks ≠ [] → b.sourceTo < b.stop) ∧ b.markdown = slice content b.start b.sourceTo ∧
      (∀ q c, p ≤ q → q < b.start → content[q]? = some c → isSpace c = true) ∧
      Tiles content b.sourceTo blocks

theorem isSpace_between {j : Nat}
    (hbefore : ∀ i < index, i < (lines content).length → lineEnd (lines content) i ≤ p)
    (hblank : ∀ i, index ≤ i → i < j → isBlank (lineAt (lines content) i) = true) {q : Nat}
    {c : UInt16} (hpq : p ≤ q) (hqj : q < pieceStart (lines content) j)
    (hc : content[q]? = some c) : isSpace c = true := by
  refine isSpace_of_blank hc fun i hi hstart hend => hblank i ?_ ?_
  · by_contra hlt
    have := hbefore i (by omega) hi
    omega
  · by_contra hle
    have := pieceStart_mono (lines content) (Nat.le_of_not_lt hle)
    omega

theorem pieceStart_lt_lineEnd (h : isBlank (lineAt ls i) = false) :
    pieceStart ls i < lineEnd ls i := by
  refine Nat.lt_add_of_pos_right (List.length_pos_iff.mpr fun hnil => ?_)
  rw [hnil] at h
  exact absurd h (by decide)

theorem tiles_blocksOf (h : Covers (lines content) index bs)
    (hbefore : ∀ i < index, i < (lines content).length → lineEnd (lines content) i ≤ p)
    (hafter : ∀ j, index ≤ j → p ≤ pieceStart (lines content) j) (k : Nat) :
    Tiles content p (blocksOf random content k bs) := by
  induction bs generalizing index k p with
  | nil =>
    intro q c hpq hc
    have hlen := length_join newline (lines_ne_nil content)
    have hq := (List.getElem?_eq_some_iff.mp hc).1
    rw [join_lines] at hlen
    exact isSpace_between (j := (lines content).length) hbefore h hpq (by omega) hc
  | cons r bs ih =>
    obtain ⟨hge, hle, hlt, hblank, hbetween, hrest⟩ := h
    have hstop : lineEnd (lines content) r.last ≤
          ((bs.head?.map fun r' => pieceStart (lines content) r'.first).getD content.length) ∧
        ((bs.head?.map fun r' => pieceStart (lines content) r'.first).getD content.length) ≤
          content.length ∧
        (blocksOf random content (k + 1) bs ≠ [] → lineEnd (lines content) r.last <
          (bs.head?.map fun r' => pieceStart (lines content) r'.first).getD content.length) := by
      cases bs with
      | nil => exact ⟨lineEnd_le_length hlt, Nat.le_refl _, fun h => absurd rfl h⟩
      | cons r' bs =>
        obtain ⟨hge', hle', hlt', -, -, -⟩ := hrest
        have hnext := lineEnd_lt hge' hlt
        refine ⟨Nat.le_of_lt hnext, ?_, fun _ => hnext⟩
        exact Nat.le_trans (Nat.le_add_right _ _)
          (lineEnd_le_length (Nat.lt_of_le_of_lt hle' hlt'))
    refine ⟨hafter r.first hge, ?_, hstop.1, hstop.2.1, ?_, hstop.2.2, rfl,
      fun q c => isSpace_between hbefore hbetween, ih hrest ?_ ?_ (k + 1)⟩
    · exact Nat.lt_of_lt_of_le (pieceStart_lt_lineEnd hblank) (lineEnd_mono hle hlt)
    · cases bs with
      | nil => rfl
      | cons r' bs => rfl
    · exact fun i hi hlt' => lineEnd_mono (by omega) hlt
    · exact fun j hj => Nat.le_of_lt (lineEnd_lt hj hlt)

theorem tiles_splitBlocks (random : Nat → Text) (content : Text) :
    Tiles content 0 (splitBlocks random content) := by
  rw [splitBlocks_eq]
  exact tiles_blocksOf (covers_splitLines (lines content)) (by simp) (by simp) 0

namespace Tiles

theorem start_le (h : Tiles content p blocks) (hb : b ∈ blocks) : p ≤ b.start := by
  induction blocks generalizing p with
  | nil => simp at hb
  | cons b' blocks ih =>
    obtain ⟨hp, hlt, hto, -, -, -, -, -, hrest⟩ := h
    rcases List.mem_cons.mp hb with rfl | hb
    · exact hp
    · have := ih hrest hb
      omega

theorem pairwise (h : Tiles content p blocks) : blocks.Pairwise fun a b => a.stop ≤ b.start := by
  induction blocks generalizing p with
  | nil => exact List.Pairwise.nil
  | cons a blocks ih =>
    obtain ⟨-, -, -, -, hstop, -, -, -, hrest⟩ := h
    refine List.pairwise_cons.mpr ⟨fun b hb => ?_, ih hrest⟩
    cases blocks with
    | nil => simp at hb
    | cons c blocks =>
      have hstop' : a.stop = c.start := hstop
      rcases List.mem_cons.mp hb with rfl | hb
      · exact hstop'.le
      · obtain ⟨-, hlt, -, -, -, -, -, -, hrest'⟩ := hrest
        have := start_le hrest' hb
        omega

theorem of_mem (h : Tiles content p blocks) (hb : b ∈ blocks) :
    b.start < b.sourceTo ∧ b.sourceTo ≤ b.stop ∧ b.stop ≤ content.length ∧
      b.markdown = slice content b.start b.sourceTo := by
  induction blocks generalizing p with
  | nil => simp at hb
  | cons b' blocks ih =>
    obtain ⟨-, hlt, hto, hlen, -, -, hmark, -, hrest⟩ := h
    rcases List.mem_cons.mp hb with rfl | hb
    · exact ⟨hlt, hto, hlen, hmark⟩
    · exact ih hrest hb

theorem stop_eq (h : Tiles content p blocks) (hb : blocks[k]? = some b) :
    b.stop = (blocks[k + 1]?.map SplitBlock.start).getD content.length := by
  induction blocks generalizing p k with
  | nil => simp at hb
  | cons b' blocks ih =>
    obtain ⟨-, -, -, -, hstop, -, -, -, hrest⟩ := h
    cases k with
    | zero =>
      obtain rfl : b' = b := by simpa using hb
      rw [hstop, List.head?_eq_getElem?]
      rfl
    | succ k => exact ih hrest (by simpa using hb)

theorem isSpace_outside (h : Tiles content p blocks) {q : Nat} {c : UInt16} (hpq : p ≤ q)
    (hc : content[q]? = some c) (hout : ∀ b ∈ blocks, ¬ (b.start ≤ q ∧ q < b.sourceTo)) :
    isSpace c = true := by
  induction blocks generalizing p with
  | nil => exact h q c hpq hc
  | cons b blocks ih =>
    obtain ⟨-, -, -, -, -, -, -, hgap, hrest⟩ := h
    by_cases hq : q < b.start
    · exact hgap q c hpq hq hc
    · have hb := hout b (by simp)
      exact ih hrest (by omega) fun b' hb' => hout b' (by simp [hb'])

end Tiles

/-- The block of a stretch. -/
def Shows (content : Text) (r : Stretch) (b : SplitBlock) : Prop :=
  b.type = r.type ∧ b.start = pieceStart (lines content) r.first ∧
    b.sourceTo = lineEnd (lines content) r.last

theorem exists_mem_blocksOf (random : Nat → Text) (k : Nat) (hr : r ∈ bs) :
    ∃ b ∈ blocksOf random content k bs, Shows content r b := by
  induction bs generalizing k with
  | nil => simp at hr
  | cons r' bs ih =>
    rcases List.mem_cons.mp hr with rfl | hr
    · exact ⟨_, List.mem_cons_self, rfl, rfl, rfl⟩
    · obtain ⟨b, hb, hshows⟩ := ih (k + 1) hr
      exact ⟨b, List.mem_cons_of_mem _ hb, hshows⟩

theorem exists_stretch (k : Nat) (hb : b ∈ blocksOf random content k bs) :
    ∃ r ∈ bs, Shows content r b := by
  induction bs generalizing k with
  | nil => simp [blocksOf] at hb
  | cons r bs ih =>
    rcases List.mem_cons.mp hb with rfl | hb
    · exact ⟨r, List.mem_cons_self, rfl, rfl, rfl⟩
    · obtain ⟨r', hr', hshows⟩ := ih (k + 1) hb
      exact ⟨r', List.mem_cons_of_mem _ hr', hshows⟩

theorem Covers.of_mem (h : Covers ls index bs) (hr : r ∈ bs) :
    r.first ≤ r.last ∧ r.last < ls.length ∧ isBlank (lineAt ls r.first) = false := by
  induction bs generalizing index with
  | nil => simp at hr
  | cons r' bs ih =>
    obtain ⟨-, hle, hlt, hblank, -, hrest⟩ := h
    rcases List.mem_cons.mp hr with rfl | hr
    · exact ⟨hle, hlt, hblank⟩
    · exact ih hrest hr

theorem Covers.exists_mem (h : Covers ls index bs) (hi : index ≤ i) (hlt : i < ls.length)
    (hblank : isBlank (lineAt ls i) = false) : ∃ r ∈ bs, r.first ≤ i ∧ i ≤ r.last := by
  induction bs generalizing index with
  | nil => exact absurd (h i hi hlt) (by simp [hblank])
  | cons r bs ih =>
    obtain ⟨-, -, -, -, hbetween, hrest⟩ := h
    by_cases hfirst : i < r.first
    · exact absurd (hbetween i hi hfirst) (by simp [hblank])
    · by_cases hlast : i ≤ r.last
      · exact ⟨r, List.mem_cons_self, by omega, hlast⟩
      · obtain ⟨r', hr', hin⟩ := ih hrest (by omega)
        exact ⟨r', List.mem_cons_of_mem _ hr', hin⟩

/-- Two blocks that both hold a character are one. -/
theorem eq_of_overlap (h : blocks.Pairwise fun a b => a.stop ≤ b.start) {a : SplitBlock} {q : Nat}
    (ha : a ∈ blocks) (hb : b ∈ blocks) (hqa : a.start ≤ q ∧ q < a.stop)
    (hqb : b.start ≤ q ∧ q < b.stop) : a = b := by
  induction blocks with
  | nil => simp at ha
  | cons c blocks ih =>
    obtain ⟨hc, hrest⟩ := List.pairwise_cons.mp h
    rcases List.mem_cons.mp ha with rfl | ha' <;> rcases List.mem_cons.mp hb with rfl | hb'
    · rfl
    · have := hc b hb'
      omega
    · have := hc a ha'
      omega
    · exact ih hrest ha' hb'

/-- The blocks stand in the order of the document and do not meet, each holds the text of its
range and goes on to the next, every line that is not blank is in just one of them, and all
else is blank. -/
theorem splitBlocks_partitions (random : Nat → Text) (content : Text) :
    (splitBlocks random content).Pairwise (fun a b => a.stop ≤ b.start) ∧
    (∀ b ∈ splitBlocks random content, b.start < b.sourceTo ∧ b.sourceTo ≤ b.stop ∧
      b.stop ≤ content.length ∧ b.markdown = slice content b.start b.sourceTo) ∧
    (∀ k b, (splitBlocks random content)[k]? = some b →
      b.stop = ((splitBlocks random content)[k + 1]?.map SplitBlock.start).getD content.length) ∧
    (∀ i < (lines content).length, isBlank (lineAt (lines content) i) = false →
      ∃! b, b ∈ splitBlocks random content ∧ b.start ≤ pieceStart (lines content) i ∧
        lineEnd (lines content) i ≤ b.sourceTo) ∧
    (∀ q c, content[q]? = some c →
      (∀ b ∈ splitBlocks random content, ¬ (b.start ≤ q ∧ q < b.sourceTo)) →
      isSpace c = true) := by
  have htiles := tiles_splitBlocks random content
  refine ⟨htiles.pairwise, fun b hb => htiles.of_mem hb, fun k b hb => htiles.stop_eq hb,
    fun i hi hblank => ?_, fun q c => htiles.isSpace_outside (Nat.zero_le q)⟩
  have hcovers := covers_splitLines (lines content)
  obtain ⟨r, hr, hfirst, hlast⟩ := hcovers.exists_mem (Nat.zero_le i) hi hblank
  obtain ⟨b, hb, -, hstart, hto⟩ := exists_mem_blocksOf random 0 hr
  rw [← splitBlocks_eq] at hb
  have hle : b.start ≤ pieceStart (lines content) i := by
    rw [hstart]
    exact pieceStart_mono _ hfirst
  have hge : lineEnd (lines content) i ≤ b.sourceTo := by
    rw [hto]
    exact lineEnd_mono hlast (hcovers.of_mem hr).2.1
  refine ⟨b, ⟨hb, hle, hge⟩, fun b' ⟨hb', hle', hge'⟩ => ?_⟩
  have hline := pieceStart_lt_lineEnd hblank
  have hin := htiles.of_mem hb
  have hin' := htiles.of_mem hb'
  exact eq_of_overlap htiles.pairwise hb' hb ⟨hle', by omega⟩ ⟨hle, by omega⟩

end Mdock.Editor.Blocks
