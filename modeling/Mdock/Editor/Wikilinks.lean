import Mdock.Editor.Commands
import Mdock.Lib.Search

/-! Wikilinks in rendered text: the links found, and the text cut at them. -/
namespace Mdock.Editor.Wikilinks
open Mdock.Js Mdock.Lib Mdock.Editor.Commands

/-- `aliasText` is the field `alias`. -/
structure WikilinkMatch where
  pagePath : Text
  aliasText : Option Text
  fullMatch : Text
  headingRef : Option Text
  blockRef : Option Text
  deriving DecidableEq

/-- `\[\[([^\|\]]+?)(?:#([^\|\]]+))?(?:\|([^\]]+))?\]\]`. -/
def wikilink : Search UInt16 where
  parts := [lit "[[", .run (· ∉ units "|]") 1 none false,
    .optional (.seq (lit "#") (.plus (· ∉ units "|]"))),
    .optional (.seq (lit "|") (.plus (· ≠ unit ']'))), lit "]]"]
  proper := rfl

/-- A match with the groups of its parts. -/
def wikilinkOf (parts : List Text) : WikilinkMatch :=
  let ref := (parts.getD 2 []).drop 1
  let aliasText := (parts.getD 3 []).drop 1
  { pagePath := parts.getD 1 []
    aliasText := if aliasText = [] then none else some aliasText
    fullMatch := parts.flatten
    headingRef := if ref ≠ [] ∧ startsWith ref (units "^") = false then some ref else none
    blockRef := if ref ≠ [] ∧ startsWith ref (units "^") = true then some (ref.drop 1) else none }

/-- The matches of `regex.exec` with their positions. -/
def exec (text : Text) : List (Nat × List Text) := Search.indexed 0 (wikilink.cut 0 text)

def findWikilinks (text : Text) : List WikilinkMatch :=
  (exec text).map fun found => wikilinkOf found.2

/-! ### Pieces -/

/-- What is rendered: text, the whole document, or a link with what it shows. -/
inductive Piece
  | text (value : Text)
  | markdown (value : Text)
  | link (found : WikilinkMatch) (displayText : Text)
  deriving DecidableEq

/-- A piece as it was written. -/
def Piece.source : Piece → Text
  | .text value | .markdown value => value
  | .link found _ => found.fullMatch

/-- `s.indexOf(t, k)`. -/
def indexFrom (s t : Text) (k : Int) : Int :=
  match indexOfText s t k.toNat with
  | some i => i
  | none => -1

def displayText (found : WikilinkMatch) : Text :=
  match found.aliasText, found.headingRef, found.blockRef with
  | some aliasText, _, _ => aliasText
  | none, some headingRef, _ => found.pagePath ++ units " > " ++ headingRef
  | none, none, some (c :: ref) => found.pagePath ++ units " > ^" ++ c :: ref
  | none, none, _ => found.pagePath

/-- The loop of `processWikilinks`. -/
def elementsFrom (markdown : Text) : Int → List WikilinkMatch → List Piece
  | lastIndex, [] =>
    if lastIndex < markdown.length then [.text (slice markdown lastIndex markdown.length)] else []
  | lastIndex, found :: rest =>
    let matchIndex := indexFrom markdown found.fullMatch lastIndex
    let beforeText := slice markdown lastIndex matchIndex
    (if lastIndex < matchIndex ∧ beforeText ≠ [] then [.text beforeText] else []) ++
      .link found (displayText found) ::
        elementsFrom markdown (matchIndex + found.fullMatch.length) rest

/-- The values of `matchIndex` in that loop. -/
def matchIndexes (markdown : Text) : Int → List WikilinkMatch → List Int
  | _, [] => []
  | lastIndex, found :: rest =>
    let matchIndex := indexFrom markdown found.fullMatch lastIndex
    matchIndex :: matchIndexes markdown (matchIndex + found.fullMatch.length) rest

def processWikilinks (markdown : Text) : List Piece :=
  match findWikilinks markdown with
  | [] => [.markdown markdown]
  | found => elementsFrom markdown 0 found

/-! ### Matches found again -/

variable {before gap rest w t : Text} {gs : List Text}

/-- The first place a match stands at is its own: at an earlier one the search had found one. -/
theorem indexFrom_match (h : Pattern.groups wikilink.parts (w ++ t) = some gs) (hw : gs.flatten = w)
    (hgap : ∀ i < gap.length, Pattern.groups wikilink.parts (gap.drop i ++ (w ++ t)) = none) :
    indexFrom (before ++ gap ++ (w ++ t)) w before.length = (before.length + gap.length : Nat) := by
  have hdrop : ∀ i, (before ++ gap ++ (w ++ t)).drop (before.length + i) =
      (gap ++ (w ++ t)).drop i := fun i => by
    rw [List.append_assoc, ← List.drop_drop, List.drop_left]
  have hfind : indexOfText (before ++ gap ++ (w ++ t)) w before.length =
      some (before.length + gap.length) := by
    refine List.find?_range'_eq_some.mpr ⟨?_, ?_, fun j hj hlt => ?_⟩
    · rw [hdrop, List.drop_left, startsWith, List.isPrefixOf_iff_prefix]
      exact List.prefix_append w t
    · simp
      omega
    · obtain ⟨i, rfl⟩ := Nat.exists_eq_add_of_le hj
      have hi : i < gap.length := Nat.lt_of_add_lt_add_left hlt
      rw [hdrop, List.drop_append_of_le_length (Nat.le_of_lt hi), Bool.not_eq_true', startsWith]
      refine Bool.eq_false_of_not_eq_true fun hprefix => ?_
      obtain ⟨r, hr⟩ := List.isPrefixOf_iff_prefix.mp hprefix
      have hsome := Pattern.groups_isSome (Pattern.groups_sound h).1 r
      rw [hw, hr, hgap i hi] at hsome
      simp at hsome
  rw [indexFrom, Int.toNat_natCast, hfind]

/-- The loop from the end of a match on, where nothing matches in the gap in front of the rest. -/
theorem elementsFrom_spec (before gap rest : Text)
    (hgap : ∀ i < gap.length, Pattern.groups wikilink.parts (gap.drop i ++ rest) = none) :
    let found := Search.indexed (before.length + gap.length) (wikilink.cut 0 rest)
    (elementsFrom (before ++ gap ++ rest) before.length
        (found.map fun f => wikilinkOf f.2)).flatMap Piece.source = gap ++ rest ∧
      matchIndexes (before ++ gap ++ rest) before.length (found.map fun f => wikilinkOf f.2) =
        found.map fun f => (f.1 : Int) := by
  induction rest using wikilink.induction_on generalizing before gap with
  | nil =>
    refine ⟨?_, rfl⟩
    have hslice : slice (before ++ gap ++ []) before.length (before ++ gap ++ []).length = gap := by
      rw [slice_nat, List.take_length, List.append_nil, List.drop_left]
    simp only [Search.cut, Search.indexed, List.map_nil, elementsFrom, hslice]
    split_ifs with hlt
    · simp [Piece.source]
    · have hnil : gap = [] := by
        by_contra hne
        have hpos := List.length_pos_iff.mpr hne
        exact hlt (by simp; omega)
      simp [hnil]
  | hit w t gs h hw hne ih =>
    have hindex : indexFrom (before ++ gap ++ (w ++ t)) w before.length =
        (before.length + gap.length : Nat) := indexFrom_match h hw hgap
    have hslice : slice (before ++ gap ++ (w ++ t)) before.length
        (before.length + gap.length : Nat) = gap := by
      rw [slice_nat, ← List.length_append, List.take_left, List.drop_left]
    obtain ⟨helements, hindexes⟩ := ih (before ++ gap ++ w) [] (by simp)
    have hfull : (wikilinkOf gs).fullMatch = w := hw
    have htext : before ++ gap ++ w ++ [] ++ t = before ++ gap ++ (w ++ t) := by simp
    have hplace : (before ++ gap ++ w).length + ([] : Text).length =
        before.length + gap.length + gs.flatten.length := by simp [hw, Nat.add_assoc]
    have hlength : ((before ++ gap ++ w).length : Int) =
        (before.length + gap.length : Nat) + w.length := by simp [Int.add_assoc]
    rw [htext, hplace, hlength] at helements hindexes
    rw [Search.cut_match h hw, Search.indexed]
    simp only [List.map_cons, elementsFrom, matchIndexes, hfull, hindex, hslice, hindexes]
    refine ⟨?_, trivial⟩
    rw [List.flatMap_append, List.flatMap_cons, helements, List.nil_append]
    have hlink : (Piece.link (wikilinkOf gs) (displayText (wikilinkOf gs))).source = w := hw
    rw [hlink]
    by_cases hnil : gap = []
    · simp [hnil]
    · have hlt : (before.length : Int) < (before.length + gap.length : Nat) := by
        have := List.length_pos_iff.mpr hnil
        omega
      rw [if_pos ⟨hlt, hnil⟩]
      simp [Piece.source]
  | miss c s h ih =>
    have hgap' : ∀ i < (gap ++ [c]).length,
        Pattern.groups wikilink.parts ((gap ++ [c]).drop i ++ s) = none := fun i hi => by
      rw [List.length_append, List.length_singleton] at hi
      rcases Nat.lt_succ_iff_lt_or_eq.mp hi with hlt | rfl
      · rw [List.drop_append_of_le_length (Nat.le_of_lt hlt), List.append_assoc]
        exact hgap i hlt
      · rw [List.drop_left]
        exact h
    have hrest := ih before (gap ++ [c]) hgap'
    rw [Search.cut_none h, Search.indexed]
    simpa [Nat.add_assoc] using hrest

/-- No text is lost, and every match is found again where it was. -/
theorem processWikilinks_spec (markdown : Text) :
    (processWikilinks markdown).flatMap Piece.source = markdown ∧
      matchIndexes markdown 0 (findWikilinks markdown) =
        (exec markdown).map fun found => (found.1 : Int) := by
  obtain ⟨helements, hindexes⟩ := elementsFrom_spec [] [] markdown (by simp)
  refine ⟨?_, hindexes⟩
  rw [processWikilinks]
  split
  · simp [Piece.source]
  · exact helements

/-- A third bracket is taken into the path. -/
example : processWikilinks (units "[[[a|b]]") = [.link ⟨units "[a", some (units "b"),
    units "[[[a|b]]", none, none⟩ (units "b")] := by decide

end Mdock.Editor.Wikilinks
