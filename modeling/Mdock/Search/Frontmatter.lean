import Mdock.Go.Text
import Mdock.Store.Slug

/-! `extractFrontmatter`, with which the indexer reads title, aliases and tags, and which
part of a page it reads them from. -/
namespace Mdock.Search
open Mdock.Go

def comma : UInt8 := 0x2C
def colon : UInt8 := 0x3A
def fence : Bytes := utf8 "---"
def quotes : Bytes := utf8 "\"'"
def brackets : Bytes := utf8 "[]"

/-- What `extractFrontmatter` returns. -/
structure Fields where
  title : Bytes := []
  aliases : List Bytes := []
  tags : List Bytes := []
  deriving DecidableEq

/-- The variables of its loop. -/
structure Reading where
  fields : Fields := {}
  inAliases : Bool := false
  inTags : Bool := false
  deriving DecidableEq

/-- `strings.ToLower`, as far as a comparison with an ASCII word can tell. -/
def lower (s : Bytes) : List Char := (runes s).map Store.toLower

/-- The items of a value in brackets, or without them. -/
def inlineItems (val : Bytes) : List Bytes :=
  if val = [] ∨ val = utf8 "[" ∨ val = utf8 "]" then []
  else ((trim brackets val).splitOn comma).map fun a => trimSpace (trim quotes a)

/-- What a line with a key says. -/
inductive Entry
  | title (val : Bytes)
  | aliases (val : Bytes)
  | tags (val : Bytes)
  | other
  deriving DecidableEq

def entry (line : Bytes) : Entry :=
  match cut colon line with
  | (_, none) => .other
  | (key, some val) =>
    let key := lower (trimSpace key)
    let val := trim quotes (trimSpace val)
    if key = "title".toList then .title val
    else if key = "aliases".toList then .aliases val
    else if key = "tags".toList then .tags val
    else .other

def readEntry (f : Fields) : Entry → Reading
  | .title val => ⟨{ f with title := val }, false, false⟩
  | .aliases val => ⟨{ f with aliases := f.aliases ++ inlineItems val }, true, false⟩
  | .tags val => ⟨{ f with tags := f.tags ++ inlineItems val }, false, true⟩
  | .other => ⟨f, false, false⟩

/-- One round of the loop. -/
def readLine (r : Reading) (line : Bytes) : Reading :=
  let line := trimSpace line
  if line = [] then r
  else if utf8 "- " <+: line ∧ (r.inAliases ∨ r.inTags) then
    let val := trim quotes (trimSpace (line.drop 2))
    if r.inAliases then { r with fields := { r.fields with aliases := r.fields.aliases ++ [val] } }
    else { r with fields := { r.fields with tags := r.fields.tags ++ [val] } }
  else readEntry r.fields (entry line)

def readLines (lines : List Bytes) : Fields := (lines.foldl readLine {}).fields

/-- What is taken for the text between the fences. -/
def frontmatterText (content : Bytes) : Option Bytes :=
  let content := trimSpace content
  if fence <+: content then before? fence (content.drop 3) else none

def extractFrontmatter (content : Bytes) : Fields :=
  match frontmatterText content with
  | none => {}
  | some text => readLines (text.splitOn newline)

/-! ### Pages -/

/-- A page with a frontmatter block; `rest` begins with the end of the closing line. -/
def page (body : List Bytes) (rest : Bytes) : Bytes :=
  fence ++ newline :: (unlines body ++ (fence ++ rest))

/-- The lines of a block. -/
def IsBody (body : List Bytes) : Prop := ∀ l ∈ body, newline ∉ l ∧ l ≠ fence

/-- What stands behind the closing fence. -/
def IsRest (rest : Bytes) : Prop := rest = [] ∨ rest.head? = some newline

theorem before?_unlines {body : List Bytes} (h : ∀ l ∈ body, ¬ fence <:+: l) (t : Bytes) :
    before? fence (unlines body ++ t) = (before? fence t).map (unlines body ++ ·) := by
  induction body with
  | nil => simp [unlines]
  | cons l body ih =>
    rw [unlines_cons, List.append_assoc, List.cons_append,
      before?_append_cons (by decide) (by decide) (h l (by simp)),
      ih fun m hm => h m (List.mem_cons_of_mem l hm), Option.map_map]
    congr 1
    funext u
    simp

theorem trimSpace_page (body : List Bytes) (rest : Bytes) :
    ∃ rest', trimSpace (page body rest) = page body rest' := by
  have hdash : IsInk 0x2D := by decide
  have hp : page body rest =
      0x2D :: ((0x2D :: 0x2D :: newline :: (unlines body ++ [0x2D, 0x2D])) ++ 0x2D :: rest) := by
    simp [page, show fence = [0x2D, 0x2D, 0x2D] by decide]
  obtain ⟨rest', -, he⟩ := trimSpace_ink (t := rest) hdash hdash
  refine ⟨rest', ?_⟩
  rw [hp, he]
  simp [page, show fence = [0x2D, 0x2D, 0x2D] by decide]

/-- The text that is read from a page is found behind the first fence. -/
theorem frontmatterText_page (body : List Bytes) (rest : Bytes) : ∃ rest',
    frontmatterText (page body rest) =
      (before? fence (unlines body ++ (fence ++ rest'))).map (newline :: ·) := by
  obtain ⟨rest', he⟩ := trimSpace_page body rest
  refine ⟨rest', ?_⟩
  have hpre : fence <+: page body rest' := ⟨_, rfl⟩
  have hdrop : (page body rest').drop 3 = [] ++ newline :: (unlines body ++ (fence ++ rest')) := rfl
  rw [frontmatterText, he, if_pos hpre, hdrop,
    before?_append_cons (by decide) (by decide) (by decide)]
  rfl

theorem before?_fence (t : Bytes) : before? fence (fence ++ t) = some [] := by
  rw [show fence ++ t = 0x2D :: ([0x2D, 0x2D] ++ t) from rfl, before?, if_pos]
  rw [List.isPrefixOf_iff_prefix]
  exact ⟨t, rfl⟩

/-- The block is read whole exactly where no line of it has a `---` inside. -/
theorem frontmatterText_eq_iff (body : List Bytes) (rest : Bytes) :
    frontmatterText (page body rest) = some (newline :: unlines body) ↔
      ∀ l ∈ body, ¬ fence <:+: l := by
  obtain ⟨rest', he⟩ := frontmatterText_page body rest
  rw [he]
  constructor
  · intro h l hl hi
    have hinfix : fence <:+: unlines body := by
      obtain ⟨u, v, rfl⟩ := List.append_of_mem hl
      obtain ⟨x, y, rfl⟩ := hi
      exact ⟨unlines u ++ x, y ++ newline :: unlines v, by simp [unlines]⟩
    obtain ⟨p, hp⟩ := Option.isSome_iff_exists.mp (before?_isSome hinfix)
    rw [before?_append_left hp] at h
    obtain rfl : p = unlines body := by simpa using h
    obtain ⟨q, hq⟩ := before?_spec hp
    have hlen := congrArg List.length hq
    simp [show fence.length = 3 from rfl] at hlen
  · intro h
    rw [before?_unlines h, before?_fence]
    simp

theorem readLine_blank (r : Reading) : readLine r [] = r := rfl

/-- Where the block is read whole, its lines alone decide what is returned. -/
theorem extractFrontmatter_page {body : List Bytes} (hbody : ∀ l ∈ body, newline ∉ l)
    (h : ∀ l ∈ body, ¬ fence <:+: l) (rest : Bytes) :
    extractFrontmatter (page body rest) = readLines body := by
  have hsplit : (newline :: unlines body).splitOn newline = [] :: (body ++ [[]]) := by
    have hs := List.splitOn_append_cons_self (a := newline) [] (unlines body)
    rw [List.nil_append, ← List.append_nil (unlines body),
      splitOn_unlines hbody List.not_mem_nil] at hs
    simpa using hs
  rw [extractFrontmatter, (frontmatterText_eq_iff body rest).mpr h]
  simp only
  rw [hsplit, readLines, List.foldl_cons, readLine_blank, List.foldl_append, List.foldl_cons,
    readLine_blank, List.foldl_nil, readLines]

/-! ### Blocks that say nothing -/

def isTitle (line : Bytes) : Prop :=
  ∃ val, trimSpace line ≠ [] ∧ entry (trimSpace line) = .title val

/-- Lines with no item, no value of a list, and at most an empty title in the end; the flag
says whether a list is open. -/
def Silent : Bool → List Bytes → Prop
  | _, [] => True
  | inList, line :: lines =>
    if trimSpace line = [] then Silent inList lines
    else if utf8 "- " <+: trimSpace line ∧ inList = true then False
    else
      match entry (trimSpace line) with
      | .title val => (val = [] ∨ ∃ l ∈ lines, isTitle l) ∧ Silent false lines
      | .aliases val | .tags val => inlineItems val = [] ∧ Silent true lines
      | .other => Silent false lines

theorem readLine_grows (r : Reading) (line : Bytes) :
    r.fields.aliases <+: (readLine r line).fields.aliases ∧
      r.fields.tags <+: (readLine r line).fields.tags := by
  unfold readLine
  simp only
  split
  · exact ⟨List.prefix_rfl, List.prefix_rfl⟩
  · split
    · split
      · exact ⟨List.prefix_append _ _, List.prefix_rfl⟩
      · exact ⟨List.prefix_rfl, List.prefix_append _ _⟩
    · cases entry (trimSpace line) with
      | title => exact ⟨List.prefix_rfl, List.prefix_rfl⟩
      | aliases => exact ⟨List.prefix_append _ _, List.prefix_rfl⟩
      | tags => exact ⟨List.prefix_rfl, List.prefix_append _ _⟩
      | other => exact ⟨List.prefix_rfl, List.prefix_rfl⟩

theorem foldl_readLine_grows (lines : List Bytes) (r : Reading) :
    r.fields.aliases <+: (lines.foldl readLine r).fields.aliases ∧
      r.fields.tags <+: (lines.foldl readLine r).fields.tags := by
  induction lines generalizing r with
  | nil => exact ⟨List.prefix_rfl, List.prefix_rfl⟩
  | cons line lines ih =>
    obtain ⟨ha, ht⟩ := readLine_grows r line
    obtain ⟨ha', ht'⟩ := ih (readLine r line)
    exact ⟨ha.trans ha', ht.trans ht'⟩

theorem foldl_readLine_ne_empty {lines : List Bytes} {r : Reading}
    (h : r.fields.aliases ≠ [] ∨ r.fields.tags ≠ []) : (lines.foldl readLine r).fields ≠ {} := by
  obtain ⟨ha, ht⟩ := foldl_readLine_grows lines r
  intro he
  rw [he] at ha ht
  rcases h with h | h
  · exact h (List.prefix_nil.mp ha)
  · exact h (List.prefix_nil.mp ht)

/-- Nothing comes of lines exactly when they are silent and no earlier title stays. -/
theorem foldl_readLine_eq_empty (lines : List Bytes) (t : Bytes) (a g : Bool) :
    (lines.foldl readLine ⟨{ title := t }, a, g⟩).fields = {} ↔
      Silent (a || g) lines ∧ (t = [] ∨ ∃ l ∈ lines, isTitle l) := by
  induction lines generalizing t a g with
  | nil => simp [Silent]
  | cons line lines ih =>
    have htitle : (∃ l ∈ line :: lines, isTitle l) ↔ isTitle line ∨ ∃ l ∈ lines, isTitle l := by
      simp
    rw [List.foldl_cons, Silent, htitle]
    by_cases hblank : trimSpace line = []
    · have hno : ¬ isTitle line := fun ⟨_, h, _⟩ => h hblank
      rw [readLine, if_pos hblank, if_pos hblank, ih]
      simp only [hno, false_or]
    · by_cases hitem : utf8 "- " <+: trimSpace line ∧ (a || g) = true
      · rw [if_neg hblank, if_pos hitem, false_and, iff_false]
        refine foldl_readLine_ne_empty ?_
        have hflags : a = true ∨ g = true := by simpa using hitem.2
        rw [readLine, if_neg hblank, if_pos ⟨hitem.1, hflags⟩]
        cases a with
        | true => exact .inl (by simp)
        | false => exact .inr (by simp)
      · have hitem' : ¬ (utf8 "- " <+: trimSpace line ∧ (a = true ∨ g = true)) := by
          simpa using hitem
        rw [readLine, if_neg hblank, if_neg hitem', if_neg hblank, if_neg hitem]
        cases hentry : entry (trimSpace line) with
        | title val =>
          have hyes : isTitle line := ⟨val, hblank, hentry⟩
          simp only [readEntry, ih, Bool.or_self, hyes, true_or, or_true, and_true]
          exact and_comm
        | aliases val =>
          have hno : ¬ isTitle line := fun ⟨_, _, h⟩ => by rw [hentry] at h; cases h
          by_cases hitems : inlineItems val = []
          · simp only [readEntry, hitems, List.append_nil, ih, Bool.true_or, hno, false_or,
              true_and]
          · simp only [hitems, false_and, iff_false]
            exact foldl_readLine_ne_empty (.inl (by simpa [readEntry] using hitems))
        | tags val =>
          have hno : ¬ isTitle line := fun ⟨_, _, h⟩ => by rw [hentry] at h; cases h
          by_cases hitems : inlineItems val = []
          · simp only [readEntry, hitems, List.append_nil, ih, Bool.false_or, hno, false_or,
              true_and]
          · simp only [hitems, false_and, iff_false]
            exact foldl_readLine_ne_empty (.inr (by simpa [readEntry] using hitems))
        | other =>
          have hno : ¬ isTitle line := fun ⟨_, _, h⟩ => by rw [hentry] at h; cases h
          simp only [readEntry, ih, Bool.or_self, hno, false_or]

theorem readLines_eq_empty (lines : List Bytes) : readLines lines = {} ↔ Silent false lines := by
  have h := foldl_readLine_eq_empty lines [] false false
  rw [Bool.or_self] at h
  exact h.trans (and_iff_left (.inl rfl))

/-! ### Exactly the block -/

def firstLine (content : Bytes) : Bytes := content.takeWhile (· ≠ newline)

/-- A page's block is read whole, and alone, exactly where no line of it has a `---` inside;
a page that does not begin with the line `---` gives nothing exactly where its trimmed text
does not begin with `---`, has no second `---`, or has nothing to say in between. -/
theorem extractFrontmatter_exact_iff (body : List Bytes) (rest content : Bytes) :
    (IsBody body → IsRest rest →
      (frontmatterText (page body rest) = some (newline :: unlines body) ∧
        extractFrontmatter (page body rest) = readLines body ↔ ∀ l ∈ body, ¬ fence <:+: l)) ∧
    (firstLine content ≠ fence →
      (extractFrontmatter content = {} ↔ ∀ q text, trimSpace content = fence ++ q →
        before? fence q = some text → Silent false (text.splitOn newline))) := by
  constructor
  · intro hbody _
    rw [frontmatterText_eq_iff]
    exact and_iff_left_of_imp fun h =>
      extractFrontmatter_page (fun l hl => (hbody l hl).1) h rest
  · intro _
    have htext : ∀ text, frontmatterText content = some text ↔
        ∃ q, trimSpace content = fence ++ q ∧ before? fence q = some text := by
      intro text
      rw [frontmatterText]
      constructor
      · intro h
        split at h
        · rename_i hp
          obtain ⟨q, hq⟩ := hp
          rw [← hq] at h
          exact ⟨q, hq.symm, h⟩
        · cases h
      · rintro ⟨q, hq, h⟩
        rw [hq, if_pos (List.prefix_append fence q)]
        exact h
    rw [extractFrontmatter]
    cases hf : frontmatterText content with
    | none =>
      refine iff_of_true rfl fun q text hq hb => ?_
      have hsome := (htext text).mpr ⟨q, hq, hb⟩
      rw [hf] at hsome
      cases hsome
    | some text =>
      obtain ⟨q, hq, hb⟩ := (htext text).mp hf
      refine (readLines_eq_empty _).trans ⟨fun h q' text' hq' hb' => ?_, fun h => h q text hq hb⟩
      have hsome := (htext text').mpr ⟨q', hq', hb'⟩
      rw [hf] at hsome
      rwa [← Option.some.inj hsome]

/-- A dash too many in a title: the rest of it and the tags below it are lost, and a text
that begins with four dashes has tags. -/
theorem dashes_cut : ¬ (∀ body rest, IsBody body → IsRest rest →
    extractFrontmatter (page body rest) = readLines body) ∧
    ¬ ∀ content, firstLine content ≠ fence → extractFrontmatter content = {} := by
  refine ⟨fun h => ?_, fun h => ?_⟩
  · exact absurd (h [utf8 "title: a---b", utf8 "tags: x"] [] (by unfold IsBody; decide) (.inl rfl))
      (by decide +kernel)
  · exact absurd (h (utf8 "----\ntags: x\n---\n") (by decide)) (by decide +kernel)

end Mdock.Search
