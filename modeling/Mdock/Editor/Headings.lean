import Mdock.Editor.Callouts
import Mdock.Editor.Partition
import Mdock.Lib.Numbering

/-! The headings of a document and their slugs. -/
namespace Mdock.Editor.Headings
open Mdock.Js Mdock.Lib Mdock.Lib.Numbering Mdock.Editor.Commands Mdock.Editor.Blocks

/-! ### Slugs -/

def isAsciiWord (n : Nat) : Bool :=
  (48 ≤ n && n ≤ 57) || (65 ≤ n && n ≤ 90) || (97 ≤ n && n ≤ 122)

/-- The code points of `\p{L}` and `\p{N}`, and `toLowerCase`. -/
structure Unicode where
  isWord : Nat → Bool
  isWord_ascii : ∀ n < 128, isWord n = isAsciiWord n
  toLowerCase : Text → Text

/-- What they are for ASCII texts. -/
def ascii : Unicode := ⟨isAsciiWord, fun _ _ => rfl, Callouts.toLowerCase⟩

def isHigh (c : UInt16) : Bool := 0xD800 ≤ c && c ≤ 0xDBFF

def isLow (c : UInt16) : Bool := 0xDC00 ≤ c && c ≤ 0xDFFF

/-- The code point of a surrogate pair. -/
def codePoint (c d : UInt16) : Nat := 0x10000 + (c.toNat - 0xD800) * 0x400 + (d.toNat - 0xDC00)

/-- The code points that `p` holds of. -/
def filterPoints (p : Nat → Bool) : Text → Text
  | [] => []
  | [c] => if p c.toNat then [c] else []
  | c :: d :: s =>
    if isHigh c && isLow d then (if p (codePoint c d) then [c, d] else []) ++ filterPoints p s
    else (if p c.toNat then [c] else []) ++ filterPoints p (d :: s)

/-- `[\s\-_]`. -/
def isGap (c : UInt16) : Bool := isSpace c || c = unit '-' || c = unit '_'

/-- `[\p{L}\p{N}\s\-_]`. -/
def isSlugPoint (u : Unicode) (n : Nat) : Bool :=
  u.isWord n || (n < 0x10000 && isGap (UInt16.ofNat n))

/-- `s.replace(/[\s\-_]+/g, '-')`; the flag tells that a gap has begun. -/
def hyphenate : Bool → Text → Text
  | _, [] => []
  | begun, c :: s =>
    if isGap c then (if begun then [] else [unit '-']) ++ hyphenate true s
    else c :: hyphenate false s

/-- `s.replace(/^-+|-+$/g, '')`. -/
def trimHyphens (s : Text) : Text :=
  ((s.dropWhile (· = unit '-')).reverse.dropWhile (· = unit '-')).reverse

def slugifyHeading (u : Unicode) (text : Text) : Text :=
  let kept := filterPoints (isSlugPoint u) (u.toLowerCase (trim text))
  (trimHyphens (hyphenate false kept)).take 100

/-! ### Headings -/

/-- `start` and `stop` are the fields `from` and `to`. -/
structure HeadingInfo where
  text : Text
  slug : Text
  level : Nat
  start : Nat
  stop : Nat
  deriving DecidableEq

/-- `^\s{0,3}(#{1,6})\s+(.+)$`. -/
def headingParts : List (Pattern UInt16) :=
  [lead, .run (· = unit '#') 1 (some 6) true, .plus isSpace, .plus dot]

/-- The level and the text of a block. -/
def headingOf (block : SplitBlock) : Option (Nat × Text) :=
  if block.type ≠ .heading then none
  else match Pattern.parts headingParts block.markdown with
    | some [_, hashes, _, text] => some (hashes.length, trim text)
    | _ => none

def numberedSlug (baseSlug : Text) (count : Nat) : Text :=
  if count = 0 then baseSlug else baseSlug ++ units "-" ++ decimal count

/-- The loop of `extractHeadings`. -/
def headingsFrom (u : Unicode) : (Text → Nat) → List SplitBlock → List HeadingInfo
  | _, [] => []
  | slugCounts, block :: blocks =>
    match headingOf block with
    | none => headingsFrom u slugCounts blocks
    | some (level, text) =>
      let baseSlug := slugifyHeading u text
      let count := slugCounts baseSlug
      ⟨text, numberedSlug baseSlug count, level, block.start, block.stop⟩ ::
        headingsFrom u (Function.update slugCounts baseSlug (count + 1)) blocks

/-- `random` gives what `Math.random` gives for each block. -/
def extractHeadings (u : Unicode) (random : Nat → Text) (content : Text) : List HeadingInfo :=
  headingsFrom u (fun _ => 0) (splitBlocks random content)

/-! ### Slugs that meet -/

variable {u : Unicode} {random : Nat → Text} {content : Text} {slugCounts : Text → Nat}
  {blocks : List SplitBlock}

/-- The slugs of the titles, before they are numbered. -/
def baseSlugs (u : Unicode) (random : Nat → Text) (content : Text) : List Text :=
  ((splitBlocks random content).filterMap headingOf).map fun t => slugifyHeading u t.2

theorem map_slug_headingsFrom : (headingsFrom u slugCounts blocks).map HeadingInfo.slug =
    number numberedSlug slugCounts
      ((blocks.filterMap headingOf).map fun t => slugifyHeading u t.2) := by
  induction blocks generalizing slugCounts with
  | nil => rfl
  | cons block blocks ih =>
    rw [headingsFrom]
    cases h : headingOf block with
    | none => rw [List.filterMap_cons_none h, ih]
    | some t => rw [List.filterMap_cons_some h, List.map_cons, List.map_cons, number, ih]

theorem numberedSlug_inj (a b : Text) (i j : Nat)
    (h : numberedSlug a (i + 1) = numberedSlug b (j + 1)) : a = b ∧ i = j := by
  have hdigits : ∀ s n, (s ++ units "-" ++ decimal n).reverse.takeWhile isDigit =
      (decimal n).reverse := fun s n => by
    have hhyphen : isDigit (unit '-') = false := by decide
    rw [List.reverse_append, List.reverse_append,
      List.takeWhile_append_of_pos fun c hc => isDigit_of_mem_decimal (List.mem_reverse.mp hc),
      show units "-" = [unit '-'] from rfl, List.reverse_singleton, List.singleton_append,
      List.takeWhile_cons_of_neg (by simp [hhyphen]), List.append_nil]
  simp only [numberedSlug, Nat.add_one_ne_zero, if_false] at h
  have hcount := congrArg (fun s => s.reverse.takeWhile isDigit) h
  simp only [hdigits, List.reverse_inj] at hcount
  have hij := Nat.succ.inj (decimal_inj hcount)
  refine ⟨?_, hij⟩
  rw [hij, List.append_cancel_right_eq, List.append_cancel_right_eq] at h
  exact h

/-- The slugs are distinct if no base slug reads like the number of a repeated one. -/
theorem slugs_nodup_iff (u : Unicode) (random : Nat → Text) (content : Text) :
    ((extractHeadings u random content).map HeadingInfo.slug).Nodup ↔
      ∀ slug k, 0 < k → k < (baseSlugs u random content).count slug →
        numberedSlug slug k ∉ baseSlugs u random content := by
  rw [extractHeadings, map_slug_headingsFrom]
  exact nodup_number_iff (fun _ => rfl) numberedSlug_inj

/-- The second of two equal titles reads like the third one. -/
theorem repeated_slug : ¬ ((extractHeadings ascii (fun _ => [])
    (units "# a\n# a\n# a-1")).map HeadingInfo.slug).Nodup := by
  decide +kernel

end Mdock.Editor.Headings
