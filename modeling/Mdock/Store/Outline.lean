import Mdock.Go.Json
import Mdock.Search.Headings
import Mdock.Store.PageIndex
import Mdock.Store.Vaults

/-! The outline of a page: the column `headings` as it is marshalled for the page index, and as
`GetPageHeadings` reads it. -/
namespace Mdock.Search
open Mdock.Go Mdock.Go.Json

def levelKey : Bytes := utf8 "level"
def textKey : Bytes := utf8 "text"
def anchorKey : Bytes := utf8 "anchor"
def lineKey : Bytes := utf8 "line"

def Heading.value (h : Heading) : Value :=
  .obj [(levelKey, .num (Store.sprintInt h.level)), (textKey, .str h.text),
    (anchorKey, .str h.anchor), (lineKey, .num (Store.sprintInt h.line))]

def marshalHeadings (headings : List Heading) : Bytes :=
  if headings = [] then utf8 "[]" else marshal (.arr (headings.map Heading.value))

/-- `MarshalAliases` and `MarshalTags`. -/
def marshalStrings (items : List Bytes) : Bytes :=
  if items = [] then utf8 "[]" else marshal (.arr (items.map .str))

end Mdock.Search

namespace Mdock.Store
open Mdock.Go Mdock.Go.Json

structure Heading where
  level : Int
  text : Bytes
  anchor : Bytes
  line : Int
  deriving DecidableEq

/-- `Heading{}`. -/
def Heading.zero : Heading := ⟨0, [], [], 0⟩

/-- `strconv.ParseInt(l, 10, 64)`, of a number in JSON. -/
def parseInt (l : Bytes) : Option Int :=
  let negative := l.head? = some dash
  let digits := if negative then l.tail else l
  let n : Int := if negative then -(value digits : Int) else value digits
  if digits ≠ [] ∧ digits.all isDigit ∧ -2 ^ 63 ≤ n ∧ n < 2 ^ 63 then some n else none

/-- A value stored into an `int`; `none` is an `UnmarshalTypeError`. -/
def storeInt (old : Int) : Value → Option Int
  | .null => some old
  | .num l => parseInt l
  | _ => none

def storeString (old : Bytes) : Value → Option Bytes
  | .null => some old
  | .str s => some s
  | _ => none

/-- A member of an object stored into the field of its name, whatever the case of its letters. -/
def storeField (h : Heading) (key : Bytes) (v : Value) : Option Heading :=
  if equalFold key Search.levelKey then (storeInt h.level v).map fun n => { h with level := n }
  else if equalFold key Search.textKey then
    (storeString h.text v).map fun s => { h with text := s }
  else if equalFold key Search.anchorKey then
    (storeString h.anchor v).map fun s => { h with anchor := s }
  else if equalFold key Search.lineKey then (storeInt h.line v).map fun n => { h with line := n }
  else some h

def storeHeading : Value → Option Heading
  | .null => some .zero
  | .obj fields => fields.foldlM (fun h f => storeField h f.1 f.2) .zero
  | _ => none

/-- A value stored into a slice; `some none` is the nil slice. -/
def storeHeadings : Value → Option (Option (List Heading))
  | .null => some none
  | .arr items => (items.mapM storeHeading).map some
  | _ => none

/-- `json.Unmarshal(data, &headings)`. -/
def unmarshalHeadings (data : Bytes) : Option (Option (List Heading)) :=
  (unmarshal data).bind storeHeadings

inductive HeadingsErr
  | argsRequired | unmarshal
  deriving DecidableEq

namespace PageIndex

/-- `ok none` is the nil slice: no row, or a column without a text. -/
def getPageHeadings (d : PageIndex) (vaultSlug path : Bytes) :
    Except HeadingsErr (Option (List Heading)) :=
  if vaultSlug = [] ∨ path = [] then .error .argsRequired
  else
    match (d.pages.table.get? (vaultSlug, path)).bind fun p => p.text.headings with
    | none | some [] => .ok none
    | some headings =>
      match unmarshalHeadings headings with
      | none => .error .unmarshal
      | some headings => .ok headings

end PageIndex

/-! ### Numbers -/

theorem decimal_head {fuel n : Nat} (hn : n ≠ 0) (h : n ≤ fuel) :
    ∃ b s, decimal fuel n = b :: s ∧ b ≠ 0x30 := by
  induction fuel generalizing n with
  | zero => omega
  | succ fuel ih =>
    rw [decimal, if_neg hn]
    by_cases hd : n / 10 = 0
    · have hnil : decimal fuel (n / 10) = [] := by
        rw [hd]
        cases fuel <;> rfl
      refine ⟨digit n, [], by rw [hnil]; rfl, ?_⟩
      have hlt := digit_lt (show 0 < n by omega) (show n < 10 by omega)
      exact fun he => absurd (he ▸ hlt) (by decide)
    · obtain ⟨b, s, hs, hb⟩ := ih hd (by omega)
      exact ⟨b, s ++ [digit n], by rw [hs]; rfl, hb⟩

/-- A number without sign is a literal of JSON. -/
theorem readNumber_sprintInt (n : Nat) : readNumber (sprintInt n) = some [] := by
  by_cases hn : n = 0
  · subst hn
    decide
  · have hs : sprintInt n = decimal n n := by
      rw [sprintInt, if_neg (by omega), if_neg (by omega)]
      rfl
    obtain ⟨b, s, hb, hzero⟩ := decimal_head hn le_rfl
    have hdigits : ∀ c ∈ b :: s, isDigit c := fun c hc =>
      decide_eq_true (decimal_digits n n c (hb ▸ hc))
    have hminus : b ≠ 0x2D := by
      rintro rfl
      exact absurd (hdigits 0x2D (by simp)) (by decide)
    have hread : readDigits (b :: s) = some [] := by
      have hd := hdigits b (by simp)
      rw [readDigits, List.takeWhile_cons_of_pos hd, if_neg (List.cons_ne_nil _ _),
        List.dropWhile_eq_nil_iff.mpr hdigits]
    rw [hs, hb, readNumber, readSign, if_neg (by simpa using hminus), Option.bind_some, readWhole,
      if_neg (by simpa using hzero), hread]
    rfl

theorem parseInt_sprintInt {n : Nat} (h : n < 2 ^ 63) : parseInt (sprintInt n) = some (n : Int) := by
  obtain ⟨hdash, hvalue⟩ := sprintInt_of_nonneg (Int.natCast_nonneg n)
  have hhead : (sprintInt n).head? ≠ some dash := by
    intro he
    exact hdash dash (List.mem_of_mem_head? he) rfl
  have hne : sprintInt n ≠ [] := by
    intro he
    have hread := readNumber_sprintInt n
    rw [he] at hread
    cases hread
  have hdigits : (sprintInt n).all isDigit = true := by
    rw [sprintInt, if_neg (by omega), List.nil_append]
    split
    · decide
    · exact List.all_eq_true.mpr fun c hc => decide_eq_true (decimal_digits _ _ c hc)
  rw [Int.natAbs_natCast] at hvalue
  simp only [parseInt, hhead, if_false, hvalue]
  exact if_pos ⟨hne, hdigits, by omega, by omega⟩

/-! ### What is marshalled is read -/

/-- A heading that JSON holds: its texts are UTF-8, and its numbers fit into an `int`. -/
structure Held (h : Search.Heading) : Prop where
  level : h.level < 2 ^ 63
  text : utf8Valid h.text
  anchor : utf8Valid h.anchor
  line : h.line < 2 ^ 63

/-- The heading as the store reads it. -/
def ofSearch (h : Search.Heading) : Heading := ⟨h.level, h.text, h.anchor, h.line⟩

theorem value_valid {h : Search.Heading} (hh : Held h) : h.value.Valid :=
  ⟨by decide, readNumber_sprintInt _, by decide, hh.text, by decide, hh.anchor, by decide,
    readNumber_sprintInt _, trivial⟩

theorem storeHeading_value {h : Search.Heading} (hh : Held h) :
    storeHeading h.value = some (ofSearch h) := by
  have hlevel : ∀ x : Heading, ∀ n : Nat, n < 2 ^ 63 →
      storeField x Search.levelKey (.num (sprintInt n)) = some { x with level := n } := by
    intro x n hn
    rw [storeField, if_pos (by decide), storeInt, parseInt_sprintInt hn]
    rfl
  have htext : ∀ (x : Heading) (s : Bytes),
      storeField x Search.textKey (.str s) = some { x with text := s } := by
    intro x s
    rw [storeField, if_neg (by decide), if_pos (by decide)]
    rfl
  have hanchor : ∀ (x : Heading) (s : Bytes),
      storeField x Search.anchorKey (.str s) = some { x with anchor := s } := by
    intro x s
    rw [storeField, if_neg (by decide), if_neg (by decide), if_pos (by decide)]
    rfl
  have hline : ∀ x : Heading, ∀ n : Nat, n < 2 ^ 63 →
      storeField x Search.lineKey (.num (sprintInt n)) = some { x with line := n } := by
    intro x n hn
    rw [storeField, if_neg (by decide), if_neg (by decide), if_neg (by decide),
      if_pos (by decide), storeInt, parseInt_sprintInt hn]
    rfl
  simp only [Search.Heading.value, storeHeading, List.foldlM_cons, List.foldlM_nil,
    hlevel _ _ hh.level, htext, hanchor, hline _ _ hh.line, Option.bind_eq_bind, Option.bind_some]
  rfl

theorem mapM_storeHeading {hs : List Search.Heading} (h : ∀ x ∈ hs, Held x) :
    (hs.map Search.Heading.value).mapM storeHeading = some (hs.map ofSearch) := by
  induction hs with
  | nil => rfl
  | cons x hs ih =>
    rw [List.map_cons, List.mapM_cons, storeHeading_value (h x List.mem_cons_self),
      ih fun y hy => h y (List.mem_cons_of_mem x hy)]
    rfl

/-- The headings of a page survive the column. -/
theorem unmarshalHeadings_marshalHeadings {hs : List Search.Heading} (h : ∀ x ∈ hs, Held x) :
    unmarshalHeadings (Search.marshalHeadings hs) = some (some (hs.map ofSearch)) := by
  have hitems : ∀ hs : List Search.Heading, (∀ x ∈ hs, Held x) →
      ValidItems (hs.map Search.Heading.value) := by
    intro hs
    induction hs with
    | nil => exact fun _ => trivial
    | cons x hs ih =>
      exact fun h => ⟨value_valid (h x List.mem_cons_self),
        ih fun y hy => h y (List.mem_cons_of_mem x hy)⟩
  unfold Search.marshalHeadings
  split
  · rename_i hnil
    subst hnil
    decide
  · rw [unmarshalHeadings, unmarshal_marshal (v := .arr _) (hitems hs h), Option.bind_some, storeHeadings,
      mapM_storeHeading h]
    rfl

theorem marshalHeadings_ne_nil (hs : List Search.Heading) : Search.marshalHeadings hs ≠ [] := by
  unfold Search.marshalHeadings
  split
  · decide
  · rw [marshal]
    exact List.cons_ne_nil _ _

end Mdock.Store
