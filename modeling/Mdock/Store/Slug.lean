import Mdock.Go.Strings

/-! Vaults as the store keeps them, and `store.Slug`, the name they are addressed by. -/
namespace Mdock.Store
open Mdock.Go

/-- The columns of a vault that file operations use. -/
structure VaultRow where
  id : Int
  slug : Bytes
  path : Bytes
  deriving DecidableEq

/-- `unicode.ToLower`, as far as `Slug` can tell: besides A-Z two runes, U+0130 and U+212A,
have a lower case in a-z, and no rune has one in 0-9. -/
def toLower (r : Char) : Char :=
  if 'A' ≤ r ∧ r ≤ 'Z' then Char.ofNat (r.toNat + 32)
  else if r = Char.ofNat 0x130 then 'i'
  else if r = Char.ofNat 0x212A then 'k'
  else r

def isSlugRune (r : Char) : Prop := 'a' ≤ r ∧ r ≤ 'z' ∨ '0' ≤ r ∧ r ≤ '9'

instance (r : Char) : Decidable (isSlugRune r) := inferInstanceAs (Decidable (_ ∨ _))

def dash : UInt8 := 0x2D

/-- One round of the loop: the bytes so far and `lastDash`. -/
def slugStep (b : Bytes × Bool) (r : Char) : Bytes × Bool :=
  if isSlugRune r then (b.1 ++ [UInt8.ofNat r.toNat], false)
  else if ¬ b.2 ∧ b.1 ≠ [] then (b.1 ++ [dash], true)
  else b

def trimDashes (b : Bytes) : Bytes := (b.reverse.dropWhile (· = dash)).reverse

def slug (input : List Char) : Bytes :=
  let b := trimDashes ((input.map toLower).foldl slugStep ([], false)).1
  if b = [] then utf8 "vault" else b

def isSlugByte (c : UInt8) : Prop := 0x61 ≤ c ∧ c ≤ 0x7A ∨ 0x30 ≤ c ∧ c ≤ 0x39 ∨ c = dash

instance (c : UInt8) : Decidable (isSlugByte c) := inferInstanceAs (Decidable (_ ∨ _ ∨ _))

theorem isSlugByte_of_rune {r : Char} (h : isSlugRune r) : isSlugByte (UInt8.ofNat r.toNat) := by
  have hn : (97 ≤ r.toNat ∧ r.toNat ≤ 122) ∨ (48 ≤ r.toNat ∧ r.toNat ≤ 57) := h
  simp only [isSlugByte, UInt8.le_iff_toNat_le, UInt8.toNat_ofNat']
  rcases hn with h | h
  · left
    change 97 ≤ _ ∧ _ ≤ 122
    omega
  · right
    left
    change 48 ≤ _ ∧ _ ≤ 57
    omega

theorem slugStep_bytes {b : Bytes × Bool} (h : ∀ c ∈ b.1, isSlugByte c) (r : Char) :
    ∀ c ∈ (slugStep b r).1, isSlugByte c := by
  unfold slugStep
  split
  · rename_i hr
    simp only [List.mem_append, List.mem_singleton]
    rintro c (hc | rfl)
    · exact h c hc
    · exact isSlugByte_of_rune hr
  · split
    · simp only [List.mem_append, List.mem_singleton]
      rintro c (hc | rfl)
      · exact h c hc
      · exact .inr (.inr rfl)
    · exact h

theorem foldl_slugStep_bytes (runes : List Char) {b : Bytes × Bool}
    (h : ∀ c ∈ b.1, isSlugByte c) : ∀ c ∈ (runes.foldl slugStep b).1, isSlugByte c := by
  induction runes generalizing b with
  | nil => exact h
  | cons r runes ih => exact ih (slugStep_bytes h r)

/-- A slug consists of a-z, 0-9 and dashes. -/
theorem slug_bytes (input : List Char) : ∀ c ∈ slug input, isSlugByte c := by
  unfold slug
  simp only
  split
  · decide +kernel
  · intro c hc
    have hsub : c ∈ ((input.map toLower).foldl slugStep ([], false)).1 := by
      have := (List.dropWhile_sublist _).mem (List.mem_reverse.mp hc)
      exact List.mem_reverse.mp this
    exact foldl_slugStep_bytes _ (by simp) c hsub

theorem slug_ne_nil (input : List Char) : slug input ≠ [] := by
  unfold slug
  simp only
  split
  · decide
  · assumption

theorem slug_no_slash (input : List Char) : slash ∉ slug input := fun h =>
  absurd (slug_bytes input _ h) (by decide)

theorem slug_no_percent (input : List Char) : percent ∉ slug input := fun h =>
  absurd (slug_bytes input _ h) (by decide)

end Mdock.Store
