import Mathlib.Data.List.Basic
import Mathlib.Data.UInt

/-! JavaScript strings: lists of UTF-16 code units. -/
namespace Mdock.Js

abbrev Text := List UInt16

instance textMem (s : Text) (l : List Text) : Decidable (s ∈ l) := inferInstance

/-- The code units of an ASCII literal. -/
def units (s : String) : Text := s.toList.map fun c => UInt16.ofNat c.toNat

def unit (c : Char) : UInt16 := UInt16.ofNat c.toNat

def newline : UInt16 := unit '\n'

/-- A position of `slice`; a negative one counts from the end. -/
def clamp (length : Nat) (k : Int) : Nat :=
  if k < 0 then (length + k).toNat else min k.toNat length

def slice (s : Text) (a b : Int) : Text :=
  (s.take (clamp s.length b)).drop (clamp s.length a)

/-- `s.lastIndexOf(c, k)`. -/
def lastIndexOf (s : Text) (c : UInt16) (k : Nat) : Option Nat :=
  (List.range (k + 1)).reverse.find? fun i => s[i]? = some c

/-- `s.indexOf(c, k)`. -/
def indexOf (s : Text) (c : UInt16) (k : Nat) : Option Nat :=
  ((s.drop k).findIdx? (· = c)).map (k + ·)

/-- `s.startsWith(t)`. -/
def startsWith (s t : Text) : Bool := t.isPrefixOf s

/-- `s.indexOf(t, k)` for a text that is not empty. -/
def indexOfText (s t : Text) (k : Nat) : Option Nat :=
  (List.range' k (s.length + 1 - k)).find? fun i => startsWith (s.drop i) t

/-- `\s`, which is also what `trim` removes. -/
def isSpace (c : UInt16) : Bool :=
  c ∈ ([0x09, 0x0A, 0x0B, 0x0C, 0x0D, 0x20, 0xA0, 0x1680, 0x2028, 0x2029, 0x202F, 0x205F, 0x3000,
    0xFEFF] : Text) || (0x2000 ≤ c && c ≤ 0x200A)

def isDigit (c : UInt16) : Bool := unit '0' ≤ c && c ≤ unit '9'

def trimStart (s : Text) : Text := s.dropWhile isSpace

def trim (s : Text) : Text := (trimStart (trimStart s).reverse).reverse

/-- `s.split('\n')`. -/
def lines (s : Text) : List Text := s.splitOn newline

/-- `parts.join(sep)`. -/
def join (sep : Text) (parts : List Text) : Text := sep.intercalate parts

def repeated (s : Text) (n : Nat) : Text := (List.replicate n s).flatten

def decimal (n : Nat) : Text := units (toString n)

def hexDigit (n : Nat) : UInt16 := unit ((Nat.toDigits 16 n).headD '0')

/-- `\uXXXX`. -/
def escape (c : UInt16) : Text :=
  units "\\u" ++ [3, 2, 1, 0].map fun i => hexDigit (c.toNat / 16 ^ i % 16)

def isHigh (c : UInt16) : Bool := 0xD800 ≤ c && c ≤ 0xDBFF
def isLow (c : UInt16) : Bool := 0xDC00 ≤ c && c ≤ 0xDFFF

def quoteUnit (c : UInt16) : Text :=
  if c = unit '"' then units "\\\""
  else if c = unit '\\' then units "\\\\"
  else if c = 0x08 then units "\\b"
  else if c = 0x0C then units "\\f"
  else if c = 0x0A then units "\\n"
  else if c = 0x0D then units "\\r"
  else if c = 0x09 then units "\\t"
  else if c < 0x20 || isHigh c || isLow c then escape c
  else [c]

/-- The inside of a JSON string; surrogates are escaped where they stand alone. -/
def quoteUnits : Text → Text
  | c :: d :: s =>
    if isHigh c && isLow d then c :: d :: quoteUnits s else quoteUnit c ++ quoteUnits (d :: s)
  | [c] => quoteUnit c
  | [] => []

/-- `JSON.stringify` of a string. -/
def stringify (s : Text) : Text := units "\"" ++ quoteUnits s ++ units "\""

/-! ### Positions -/

@[simp] theorem clamp_nat (length k : Nat) : clamp length k = min k length := by
  simp [clamp]

theorem slice_nat (s : Text) (a b : Nat) : slice s a b = (s.take b).drop a := by
  rw [slice, clamp_nat, clamp_nat, List.take_eq_take_min.symm]
  rcases Nat.le_total a s.length with ha | ha
  · rw [Nat.min_eq_left ha]
  · rw [Nat.min_eq_right ha, List.drop_eq_nil_of_le (by simp), List.drop_eq_nil_of_le (by simp; omega)]

theorem indexOf_le {s : Text} {c : UInt16} {k i : Nat} (h : indexOf s c k = some i) :
    k ≤ i ∧ i ≤ s.length := by
  obtain ⟨j, hj, rfl⟩ := Option.map_eq_some_iff.mp h
  have hlt := (List.findIdx?_eq_some_iff_findIdx_eq.mp hj).1
  rw [List.length_drop] at hlt
  omega

theorem decimal_eq (n : Nat) :
    decimal n = (Nat.toDigits 10 n).map fun c => UInt16.ofNat c.toNat := by
  rw [decimal, units, Nat.toString_eq_repr, Nat.toList_repr]

/-- The digits are code units. -/
theorem toNat_of_mem_toDigits {n : Nat} {d : Char} (h : d ∈ Nat.toDigits 10 n) :
    48 ≤ d.toNat ∧ d.toNat ≤ 57 ∧ (UInt16.ofNat d.toNat).toNat = d.toNat := by
  have hdigit := Nat.isDigit_of_mem_toDigits (by decide) (by decide) h
  simp only [Char.isDigit, Bool.and_eq_true, decide_eq_true_iff, UInt32.le_iff_toNat_le] at hdigit
  have hhigh : d.toNat ≤ 57 := hdigit.2
  exact ⟨hdigit.1, hhigh, UInt16.toNat_ofNat_of_lt (Nat.lt_of_le_of_lt hhigh (by decide))⟩

theorem isDigit_of_mem_decimal {n : Nat} {c : UInt16} (h : c ∈ decimal n) : isDigit c = true := by
  rw [decimal_eq] at h
  obtain ⟨d, hd, rfl⟩ := List.mem_map.mp h
  obtain ⟨hlow, hhigh, hval⟩ := toNat_of_mem_toDigits hd
  have hzero : (unit '0').toNat = 48 := by decide
  have hnine : (unit '9').toNat = 57 := by decide
  simp only [isDigit, Bool.and_eq_true, decide_eq_true_iff, UInt16.le_iff_toNat_le, hval, hzero,
    hnine]
  exact ⟨hlow, hhigh⟩

theorem decimal_inj {n m : Nat} (h : decimal n = decimal m) : n = m := by
  have hread : ∀ k, (decimal k).map (fun c => Char.ofNat c.toNat) = Nat.toDigits 10 k := fun k => by
    rw [decimal_eq, List.map_map]
    conv_rhs => rw [← List.map_id (Nat.toDigits 10 k)]
    refine List.map_congr_left fun d hd => ?_
    rw [Function.comp_apply, (toNat_of_mem_toDigits hd).2.2, Char.ofNat_toNat, id]
  rw [← Nat.ofDigitChars_ten_toDigits (n := n), ← hread, h, hread, Nat.ofDigitChars_ten_toDigits]

theorem decimal_ne_nil (n : Nat) : decimal n ≠ [] := by
  intro h
  rw [decimal_eq, List.map_eq_nil_iff] at h
  exact Nat.toDigits_ne_nil h

section
variable {s : Text} {c : UInt16} {k q : Nat}

theorem indexOf_eq_some : indexOf s c k = some q ↔
    k ≤ q ∧ s[q]? = some c ∧ ∀ r, k ≤ r → r < q → s[r]? ≠ some c := by
  simp only [indexOf, Option.map_eq_some_iff, List.findIdx?_eq_some_iff_getElem]
  constructor
  · rintro ⟨j, ⟨hj, hc, hmin⟩, rfl⟩
    rw [List.getElem_drop] at hc
    refine ⟨Nat.le_add_right k j, ?_, fun r hkr hr hget => ?_⟩
    · rw [List.length_drop] at hj
      rw [List.getElem?_eq_getElem (by omega), of_decide_eq_true hc]
    · have hr' := hmin (r - k) (by omega)
      obtain ⟨hlt, hget⟩ := List.getElem?_eq_some_iff.mp hget
      simp [List.getElem_drop, Nat.add_sub_cancel' hkr, hget] at hr'
  · rintro ⟨hkq, hc, hmin⟩
    obtain ⟨hlt, hget⟩ := List.getElem?_eq_some_iff.mp hc
    refine ⟨q - k, ⟨by simp; omega, ?_, fun j hj => ?_⟩, by omega⟩
    · simp [List.getElem_drop, Nat.add_sub_cancel' hkq, hget]
    · have hj' := hmin (k + j) (by omega) (by omega)
      rw [List.getElem?_eq_getElem (by omega)] at hj'
      simpa [List.getElem_drop] using hj'

theorem indexOf_eq_none : indexOf s c k = none ↔ ∀ r, k ≤ r → s[r]? ≠ some c := by
  rw [indexOf, Option.map_eq_none_iff, List.findIdx?_eq_none_iff]
  constructor
  · intro h r hkr hget
    have hmem : c ∈ s.drop k :=
      List.mem_of_getElem? (i := r - k) (by rwa [List.getElem?_drop, Nat.add_sub_cancel' hkr])
    simpa using h c hmem
  · intro h d hd
    obtain ⟨j, hj⟩ := List.mem_iff_getElem?.mp hd
    rw [List.getElem?_drop] at hj
    have hne := h (k + j) (Nat.le_add_right k j)
    rw [hj] at hne
    simpa using hne

theorem lastIndexOf_succ (s : Text) (c : UInt16) (k : Nat) : lastIndexOf s c (k + 1) =
    if s[k + 1]? = some c then some (k + 1) else lastIndexOf s c k := by
  rw [lastIndexOf, List.range_succ, List.reverse_append, List.reverse_singleton,
    List.singleton_append, List.find?_cons]
  split
  next h => rw [if_pos (of_decide_eq_true h)]
  next h => rw [if_neg (of_decide_eq_false h), lastIndexOf]

theorem lastIndexOf_eq_none : lastIndexOf s c k = none ↔ ∀ r, r ≤ k → s[r]? ≠ some c := by
  simp only [lastIndexOf, List.find?_eq_none, List.mem_reverse, List.mem_range, Nat.lt_succ_iff,
    decide_eq_true_eq]

theorem lastIndexOf_eq_some : lastIndexOf s c k = some q ↔
    q ≤ k ∧ s[q]? = some c ∧ ∀ r, q < r → r ≤ k → s[r]? ≠ some c := by
  induction k with
  | zero =>
    rcases Decidable.em (s[0]? = some c) with h | h
    · simp only [lastIndexOf, List.range_succ, List.range_zero, List.nil_append,
        List.reverse_singleton, List.find?_cons, h, decide_true, Option.some.injEq]
      exact ⟨by rintro rfl; exact ⟨Nat.le_refl 0, h, fun r h₁ h₂ => absurd h₁ (by omega)⟩,
        fun ⟨h₁, _⟩ => (Nat.le_zero.mp h₁).symm⟩
    · simp only [lastIndexOf, List.range_succ, List.range_zero, List.nil_append,
        List.reverse_singleton, List.find?_cons, h, decide_false, List.find?_nil]
      exact ⟨fun h' => by simp at h', fun ⟨h₁, h₂, _⟩ => absurd (Nat.le_zero.mp h₁ ▸ h₂) h⟩
  | succ k ih =>
    rw [lastIndexOf_succ]
    split
    next h =>
      rw [Option.some.injEq]
      constructor
      · rintro rfl
        exact ⟨Nat.le_refl _, h, fun r h₁ h₂ => absurd h₁ (by omega)⟩
      · rintro ⟨hle, -, hmax⟩
        by_contra hne
        exact hmax (k + 1) (by omega) (Nat.le_refl _) h
    next h =>
      rw [ih]
      constructor
      · rintro ⟨hle, hq, hmax⟩
        refine ⟨by omega, hq, fun r h₁ h₂ => ?_⟩
        rcases Nat.lt_or_eq_of_le h₂ with hlt | rfl
        · exact hmax r h₁ (by omega)
        · exact h
      · rintro ⟨hle, hq, hmax⟩
        refine ⟨?_, hq, fun r h₁ h₂ => hmax r h₁ (by omega)⟩
        rcases Nat.lt_or_eq_of_le hle with hlt | rfl
        · omega
        · exact absurd hq h

end

/-- Putting `v` for a range changes nothing exactly where the range is `v`. -/
theorem splice_eq_self {s v : Text} {a b : Nat} (hab : a ≤ b) :
    s.take a ++ v ++ s.drop b = s ↔ v = (s.take b).drop a := by
  have htake : (s.take b).take a = s.take a := by rw [List.take_take, Nat.min_eq_left hab]
  have hs : s.take a ++ (s.take b).drop a ++ s.drop b = s := by
    rw [← htake, List.take_append_drop, List.take_append_drop]
  constructor
  · intro h
    exact List.append_cancel_left (List.append_cancel_right (h.trans hs.symm))
  · rintro rfl
    exact hs

end Mdock.Js
