import Mathlib.Data.Nat.Digits.Defs
import Mathlib.Data.Rat.Defs
import Mathlib.Algebra.Order.Ring.Rat
import Mathlib.Algebra.BigOperators.Group.List.Basic
import Mdock.Go.Text

/-! The lines of the metrics page, and the text format they are meant to be in. -/
namespace Mdock.App.Metrics
open Mdock.Go

/-! ### The exporter -/

/-- `string(r)` of a rune. -/
def runeText (r : Int) : Bytes :=
  if 0 ≤ r ∧ r.toNat.isValidChar then String.utf8EncodeChar (Char.ofNat r.toNat)
  else [0xEF, 0xBF, 0xBD]

/-- `formatFloat` of a whole number. `overflow` is the rune it ends up with where no `int64` is the
number, which depends on the machine. -/
def formatFloat (overflow : Int → Int) (f : Int) : Bytes :=
  if -2 ^ 63 ≤ f ∧ f < 2 ^ 63 then runeText (f.bmod (2 ^ 32)) else runeText (overflow f)

/-- `k + "=\"" + v + "\""`, with commas between. -/
def labelTexts : List (Bytes × Bytes) → Bytes
  | [] => []
  | [(k, v)] => k ++ utf8 "=\"" ++ v ++ utf8 "\""
  | (k, v) :: labels => k ++ utf8 "=\"" ++ v ++ utf8 "\"" ++ utf8 "," ++ labelTexts labels

/-- What `writeMetric` writes; `labels` are in the order in which the map is gone through. -/
def writeMetric (overflow : Int → Int) (name : Bytes) (labels : List (Bytes × Bytes))
    (value : Int) : Bytes :=
  name ++ (if labels = [] then [] else utf8 "\x7b" ++ labelTexts labels ++ utf8 "\x7d") ++
    (utf8 " " ++ formatFloat overflow value ++ [newline])

/-! ### The text format -/

def IsBlank (s : Bytes) : Prop := ∀ c ∈ s, c = space ∨ c = tab

/-- Backslashes, quotes and line feeds are escaped in a label value. -/
def escape (value : Bytes) : Bytes :=
  value.flatMap fun c =>
    if c = 0x5C then utf8 "\\\\" else if c = 0x22 then utf8 "\\\"" else
      if c = newline then utf8 "\\n" else [c]

def LabelText (label : Bytes × Bytes) (t : Bytes) : Prop :=
  ∃ a b c d, IsBlank a ∧ IsBlank b ∧ IsBlank c ∧ IsBlank d ∧
    t = a ++ label.1 ++ b ++ utf8 "=" ++ c ++ utf8 "\"" ++ escape label.2 ++ utf8 "\"" ++ d

/-- What stands between the braces; a comma may end it. -/
inductive Inside : List (Bytes × Bytes) → Bytes → Prop
  | blank {s} : IsBlank s → Inside [] s
  | last {label t} : LabelText label t → Inside [label] t
  | cons {label t labels s} : LabelText label t → Inside labels s →
      Inside (label :: labels) (t ++ utf8 "," ++ s)

def LabelPart (labels : List (Bytes × Bytes)) (part : Bytes) : Prop :=
  (labels = [] ∧ part = []) ∨ ∃ s, Inside labels s ∧ part = utf8 "\x7b" ++ s ++ utf8 "\x7d"

/-- The value of a digit. -/
def digitOf (base : Nat) (c : UInt8) : Option Nat :=
  let n := c.toNat
  let d := if 0x30 ≤ n ∧ n ≤ 0x39 then n - 0x30 else if 0x61 ≤ n ∧ n ≤ 0x66 then n - 0x57
    else if 0x41 ≤ n ∧ n ≤ 0x46 then n - 0x37 else base
  if d < base then some d else none

def signs : List Bytes := [[], utf8 "+", utf8 "-"]

/-- The number that digits are. -/
def number (base : Nat) (ds : Bytes) : Nat :=
  Nat.ofDigits base (ds.reverse.map fun c => (digitOf base c).getD 0)

def negate (sign : Bytes) (n : ℚ) : ℚ := if sign = utf8 "-" then -n else n

/-- A finite number as `strconv.ParseFloat` reads it, but for underscores. -/
structure FloatText where
  sign : Bytes
  radix : Bytes
  whole : Bytes
  fraction : Option Bytes
  exponent : Option (UInt8 × Bytes × Bytes)
  sign_mem : sign ∈ signs
  radix_mem : radix ∈ [[], utf8 "0x", utf8 "0X"]
  ne : whole ++ fraction.getD [] ≠ []
  digits : ∀ c ∈ whole ++ fraction.getD [], (digitOf (if radix = [] then 10 else 16) c).isSome
  mark : ∀ e ∈ exponent, e.1 ∈ if radix = [] then utf8 "eE" else utf8 "pP"
  marked : radix ≠ [] → exponent.isSome
  exponent_sign : ∀ e ∈ exponent, e.2.1 ∈ signs
  exponent_ne : ∀ e ∈ exponent, e.2.2 ≠ []
  exponent_digits : ∀ e ∈ exponent, ∀ c ∈ e.2.2, (digitOf 10 c).isSome

def FloatText.text (t : FloatText) : Bytes :=
  t.sign ++ t.radix ++ t.whole ++ (t.fraction.map (utf8 "." ++ ·)).getD [] ++
    (t.exponent.map fun e => e.1 :: e.2.1 ++ e.2.2).getD []

def FloatText.value (t : FloatText) : ℚ :=
  let base := if t.radix = [] then 10 else 16
  let mantissa : ℚ := number base (t.whole ++ t.fraction.getD []) /
    (base : ℚ) ^ (t.fraction.getD []).length
  let scale : ℚ := if t.radix = [] then 10 else 2
  negate t.sign mantissa * match t.exponent with
    | none => 1
    | some (_, sign, ds) =>
      if sign = utf8 "-" then (scale ^ number 10 ds)⁻¹ else scale ^ number 10 ds

/-- What may stand behind the value: a time stamp. -/
def Tail (t : Bytes) : Prop :=
  ∃ a stamp b, IsBlank a ∧ IsBlank b ∧ t = a ++ stamp ++ b ++ [newline] ∧
    (stamp = [] ∨ a ≠ [] ∧ ∃ sign ds, sign ∈ signs ∧ ds ≠ [] ∧
      (∀ c ∈ ds, (digitOf 10 c).isSome) ∧ stamp = sign ++ ds)

/-- A line is read as a name, a set of labels and a number. -/
def Reads (line name : Bytes) (labels : List (Bytes × Bytes)) (value : ℚ) : Prop :=
  ∃ a b part c tail found, ∃ t : FloatText, IsBlank a ∧ IsBlank b ∧ IsBlank c ∧
    LabelPart found part ∧ found.Perm labels ∧ (part = [] → b ++ c ≠ []) ∧
    t.value = value ∧ Tail tail ∧ line = a ++ name ++ b ++ part ++ c ++ t.text ++ tail

variable {c : UInt8} {base : Nat} {labels : List (Bytes × Bytes)} {s t : Bytes}

/-- Decimal digits are what would be read. -/
theorem reads_digits {part ds : Bytes} (name : Bytes) (hpart : LabelPart labels part)
    (hne : ds ≠ []) (hds : ∀ c ∈ ds, (digitOf 10 c).isSome) :
    Reads (name ++ part ++ [space] ++ ds ++ [newline]) name labels (number 10 ds) := by
  have hblank : IsBlank [] := fun c hc => absurd hc List.not_mem_nil
  have hspace : IsBlank [space] := fun c hc => .inl (List.mem_singleton.1 hc)
  let f : FloatText :=
    { sign := [], radix := [], whole := ds, fraction := none, exponent := none
      sign_mem := by decide
      radix_mem := by decide
      ne := by simpa using hne
      digits := by simpa using hds
      mark := by simp
      marked := by simp
      exponent_sign := by simp
      exponent_ne := by simp
      exponent_digits := by simp }
  have htext : f.text = ds := by simp [f, FloatText.text]
  have hvalue : f.value = number 10 ds := by simp [f, FloatText.value, negate, utf8]
  refine ⟨[], [], part, [space], [newline], labels, f, hblank, hblank, hspace, hpart, .refl _,
    by simp, hvalue, ⟨[], [], [], hblank, hblank, rfl, .inl rfl⟩, ?_⟩
  rw [htext]
  simp

/-! ### What no number is written with -/

theorem runeText_spec (r : Int) :
    (∃ c : UInt8, runeText r = [c] ∧ r = c.toNat) ∨ ∀ c ∈ runeText r, 128 ≤ c.toNat := by
  have hnat : ∀ n : Nat, n < 256 → (UInt8.ofNat n).toNat = n := fun n hlt => by
    rw [UInt8.toNat_ofNat']
    exact Nat.mod_eq_of_lt hlt
  have hlarge : ∀ n : Nat, 128 ≤ n → n < 256 → 128 ≤ (UInt8.ofNat n).toNat := fun n hn hlt => by
    rwa [hnat n hlt]
  rw [runeText]
  split_ifs with h
  · obtain ⟨hr, hvalid⟩ := h
    have hval : (Char.ofNat r.toNat).val.toNat = r.toNat := by
      rw [Char.ofNat, dif_pos hvalid]
      rfl
    simp only [String.utf8EncodeChar, hval]
    split_ifs with hone
    · exact .inl ⟨UInt8.ofNat r.toNat, rfl, by rw [hnat _ (by omega), Int.toNat_of_nonneg hr]⟩
    all_goals
      refine .inr fun c hc => ?_
      simp only [List.mem_cons, List.not_mem_nil, or_false] at hc
      rcases hc with rfl | rfl | rfl | rfl <;> exact hlarge _ (by omega) (by omega)
  · refine .inr fun c hc => ?_
    simp only [List.mem_cons, List.not_mem_nil, or_false] at hc
    rcases hc with rfl | rfl | rfl <;> decide

theorem digitOf_isSome (hbase : base ≤ 16) (h : (digitOf base c).isSome) :
    0x20 < c.toNat ∧ c.toNat < 128 := by
  have := hbase
  simp only [digitOf] at h
  split_ifs at h with h₁ h₂ h₃ h₄ h₅
  all_goals first
    | omega
    | simp at h

theorem digitOf_ten (h : (digitOf 10 c).isSome) :
    ∃ d < 10, digitOf 10 c = some d ∧ c.toNat = 48 + d := by
  refine ⟨c.toNat - 48, ?_⟩
  simp only [digitOf] at h ⊢
  split_ifs at h ⊢ with h₁ h₂ h₃ h₄ h₅
  all_goals first
    | (refine ⟨?_, rfl, ?_⟩ <;> omega)
    | (exfalso; omega)
    | simp at h

theorem mem_signs (hs : s ∈ signs) (hc : c ∈ s) : c = 0x2B ∨ c = 0x2D := by
  simp only [signs, List.mem_cons, List.not_mem_nil, or_false] at hs
  rcases hs with rfl | rfl | rfl
  · simp at hc
  · exact .inl (List.mem_singleton.1 hc)
  · exact .inr (List.mem_singleton.1 hc)

/-- Numbers are written in ASCII, without blanks. -/
theorem mem_text (f : FloatText) (hc : c ∈ f.text) : 0x20 < c.toNat ∧ c.toNat < 128 := by
  have hsigns : ∀ {s}, s ∈ signs → c ∈ s → 0x20 < c.toNat ∧ c.toNat < 128 := fun hs hc => by
    rcases mem_signs hs hc with rfl | rfl <;> decide
  have hletter : ∀ {s : Bytes}, (s.all fun c => 0x20 < c.toNat && c.toNat < 128) → c ∈ s →
      0x20 < c.toNat ∧ c.toNat < 128 := fun hs hc => by
    simpa using List.all_eq_true.1 hs c hc
  have hdigit : c ∈ f.whole ++ f.fraction.getD [] → 0x20 < c.toNat ∧ c.toNat < 128 := fun h =>
    digitOf_isSome (by split_ifs <;> omega) (f.digits c h)
  simp only [FloatText.text, List.mem_append, or_assoc] at hc
  rcases hc with hc | hc | hc | hc | hc
  · exact hsigns f.sign_mem hc
  · have := f.radix_mem
    simp only [List.mem_cons, List.not_mem_nil, or_false] at this
    rcases this with h | h | h <;> rw [h] at hc
    · simp at hc
    · exact hletter (by decide) hc
    · exact hletter (by decide) hc
  · exact hdigit (List.mem_append_left _ hc)
  · cases hf : f.fraction with
    | none => simp [hf] at hc
    | some fraction =>
      rw [hf, Option.map_some, Option.getD_some, List.mem_append] at hc
      rcases hc with hc | hc
      · rw [List.mem_singleton.1 hc]
        decide
      · exact hdigit (List.mem_append_right _ (by rwa [hf]))
  · cases he : f.exponent with
    | none => simp [he] at hc
    | some e =>
      rw [he, Option.map_some, Option.getD_some, List.cons_append, List.mem_cons,
        List.mem_append] at hc
      rcases hc with rfl | hc | hc
      · have := f.mark e he
        split_ifs at this
        · exact hletter (by decide) this
        · exact hletter (by decide) this
      · exact hsigns (f.exponent_sign e he) hc
      · exact digitOf_isSome (by omega) (f.exponent_digits e he c hc)

theorem FloatText.text_ne_nil (f : FloatText) : f.text ≠ [] := fun h => f.ne (by
  simp only [FloatText.text, List.append_eq_nil_iff] at h
  obtain ⟨⟨⟨-, hwhole⟩, hfraction⟩, -⟩ := h
  cases hf : f.fraction with
  | none => simp [hwhole]
  | some fraction => simp [hf, utf8] at hfraction)

/-- A number of one character is a digit. -/
theorem text_singleton (f : FloatText) (h : f.text = [c]) :
    ∃ d : Nat, c.toNat = 48 + d ∧ d < 10 ∧ f.value = d := by
  have hlen : f.text.length = 1 := by rw [h, List.length_singleton]
  have hwhole : 1 ≤ (f.whole ++ f.fraction.getD []).length := List.length_pos_iff.2 f.ne
  simp only [FloatText.text, List.length_append] at hlen hwhole
  have hfraction : f.fraction = none := by
    cases hf : f.fraction with
    | none => rfl
    | some fraction =>
      simp only [hf, Option.map_some, Option.getD_some, List.length_append] at hlen hwhole
      have : (utf8 ".").length = 1 := by decide
      omega
  have hexponent : f.exponent = none := by
    cases he : f.exponent with
    | none => rfl
    | some e =>
      simp only [hfraction, he, Option.map_some, Option.map_none, Option.getD_some,
        Option.getD_none, List.length_append, List.length_cons, List.length_nil] at hlen hwhole
      omega
  simp only [hfraction, hexponent, Option.map_none, Option.getD_none, List.length_nil] at hlen
  simp only [hfraction, Option.getD_none, List.length_nil] at hwhole
  have hsign : f.sign = [] := List.length_eq_zero_iff.1 (by omega)
  have hradix : f.radix = [] := List.length_eq_zero_iff.1 (by omega)
  have hc : f.whole = [c] := by
    simpa [FloatText.text, hfraction, hexponent, hsign, hradix] using h
  have hdigit := f.digits c (by simp [hc])
  rw [if_pos hradix] at hdigit
  obtain ⟨d, hlt, hd, hcd⟩ := digitOf_ten hdigit
  refine ⟨d, hcd, hlt, ?_⟩
  simp [FloatText.value, hradix, hfraction, hexponent, hsign, hc, number, hd, negate, utf8]

/-! ### Where the number stands -/

/-- The characters of a set of labels, with a comma behind each. -/
def labelsLength (labels : List (Bytes × Bytes)) : Nat :=
  (labels.map fun label => label.1.length + label.2.length + 4).sum

theorem labelTexts_length (h : labels ≠ []) :
    (labelTexts labels).length + 1 = labelsLength labels := by
  induction labels with
  | nil => exact absurd rfl h
  | cons label labels ih =>
    obtain ⟨k, v⟩ := label
    have hlen : (utf8 "=\"").length = 2 ∧ (utf8 "\"").length = 1 ∧ (utf8 ",").length = 1 := by
      decide
    cases labels with
    | nil =>
      simp only [labelTexts, labelsLength, List.length_append, List.map_cons, List.map_nil,
        List.sum_cons, List.sum_nil]
      omega
    | cons l labels =>
      have := ih (List.cons_ne_nil _ _)
      simp only [labelsLength, List.map_cons, List.sum_cons] at this
      simp only [labelTexts, labelsLength, List.length_append, List.map_cons, List.sum_cons]
      omega

theorem length_le_escape (s : Bytes) : s.length ≤ (escape s).length := by
  induction s with
  | nil => exact Nat.zero_le _
  | cons c s ih =>
    have hlen : (utf8 "\\\\").length = 2 ∧ (utf8 "\\\"").length = 2 ∧ (utf8 "\\n").length = 2 := by
      decide
    rw [escape, List.flatMap_cons, List.length_append, List.length_cons, ← escape]
    split_ifs
    all_goals first
      | omega
      | (rw [List.length_singleton]; omega)

theorem LabelText.length {label : Bytes × Bytes} (h : LabelText label t) :
    label.1.length + label.2.length + 4 ≤ t.length + 1 := by
  obtain ⟨a, b, c, d, -, -, -, -, rfl⟩ := h
  have hlen : (utf8 "=").length = 1 ∧ (utf8 "\"").length = 1 := by decide
  have := length_le_escape label.2
  simp only [List.length_append]
  omega

theorem Inside.length (h : Inside labels t) : labelsLength labels ≤ t.length + 1 := by
  induction h with
  | blank => exact Nat.zero_le _
  | last h =>
    simpa [labelsLength] using h.length
  | cons h _ ih =>
    have hlen : (utf8 ",").length = 1 := by decide
    have := h.length
    simp only [labelsLength, List.map_cons, List.sum_cons] at ih ⊢
    simp only [List.length_append]
    omega

/-- The braces that are read are not shorter than those that are written. -/
theorem LabelPart.length {found : List (Bytes × Bytes)} (h : LabelPart found t)
    (hperm : found.Perm labels) :
    (if labels = [] then [] else utf8 "\x7b" ++ labelTexts labels ++ utf8 "\x7d").length ≤
      t.length := by
  split_ifs with hlabels
  · exact Nat.zero_le _
  · obtain ⟨rfl, -⟩ | ⟨s, hs, rfl⟩ := h
    · exact absurd hperm.symm.eq_nil hlabels
    · have hle := hs.length
      have heq : labelsLength found = labelsLength labels := (hperm.map _).sum_eq
      have := labelTexts_length hlabels
      simp only [List.length_append]
      omega

theorem formatFloat_spec (overflow : Int → Int) (f : Int) :
    (∃ c : UInt8, formatFloat overflow f = [c] ∧ (0 ≤ f → f < 10 → f = c.toNat)) ∨
      ∀ c ∈ formatFloat overflow f, 128 ≤ c.toNat := by
  rw [formatFloat]
  split_ifs with h
  · refine (runeText_spec (f.bmod (2 ^ 32))).imp_left ?_
    rintro ⟨c, hc, hr⟩
    refine ⟨c, hc, fun hge hlt => ?_⟩
    rwa [Int.bmod_eq_of_le (by omega) (by omega)] at hr
  · refine (runeText_spec (overflow f)).imp_left ?_
    rintro ⟨c, hc, -⟩
    exact ⟨c, hc, fun hge hlt => absurd ⟨by omega, by omega⟩ h⟩

/-- The number that is read stands where the value was written. -/
theorem text_suffix {r tail : Bytes} {f : FloatText} (htail : Tail tail)
    (h : f.text ++ tail <:+ space :: r ++ [newline]) : ∃ s, f.text ++ s <:+ r := by
  obtain ⟨a, stamp, b, -, -, rfl, -⟩ := htail
  refine ⟨a ++ stamp ++ b, ?_⟩
  obtain ⟨u, hu⟩ := h
  have hu : u ++ (f.text ++ (a ++ stamp ++ b)) = space :: r := by
    simpa only [← List.append_assoc, List.append_cancel_right_eq] using hu
  cases u with
  | cons c u => exact ⟨u, (List.cons.inj hu).2⟩
  | nil =>
    obtain ⟨c, s, hs⟩ := List.exists_cons_of_ne_nil f.text_ne_nil
    have hc := mem_text f (hs ▸ List.mem_cons_self)
    rw [hs, List.nil_append, List.cons_append] at hu
    rw [(List.cons.inj hu).1] at hc
    exact absurd hc.1 (by decide)

/-- No line is read as what it was written for. -/
theorem not_reads (overflow : Int → Int) (name : Bytes) (labels : List (Bytes × Bytes))
    (value : Int) : ¬ Reads (writeMetric overflow name labels value) name labels value := by
  rintro ⟨a, b, part, c, tail, found, f, -, -, -, hpart, hperm, -, hvalue, htail, hline⟩
  have hsuffix : f.text ++ tail <:+ space :: formatFloat overflow value ++ [newline] := by
    have hread : f.text ++ tail <:+ writeMetric overflow name labels value :=
      ⟨a ++ name ++ b ++ part ++ c, by rw [hline, List.append_assoc _ f.text]⟩
    refine List.suffix_of_suffix_length_le hread ⟨_, rfl⟩ ?_
    have hlen := congrArg List.length hline
    have hle := hpart.length hperm
    rw [writeMetric] at hlen
    simp only [List.length_append] at hlen hle ⊢
    have : (utf8 " ").length = 1 := by decide
    simp only [List.length_cons] at hlen ⊢
    omega
  obtain ⟨s, hs⟩ := text_suffix htail hsuffix
  obtain ⟨c, hc, hvalue'⟩ | hbytes := formatFloat_spec overflow value
  · -- one character: a digit, which is 48 more than the number it stands for
    have htext : f.text = [c] := by
      have hlen := hs.length_le
      rw [hc, List.length_append, List.length_singleton] at hlen
      have hpos := List.length_pos_iff.2 f.text_ne_nil
      have hs' : s = [] := List.length_eq_zero_iff.1 (by omega)
      rw [hs', List.append_nil, hc] at hs
      exact hs.eq_of_length (by rw [List.length_singleton]; omega)
    obtain ⟨d, hd, hlt, hf⟩ := text_singleton f htext
    have : value = d := by
      rw [hvalue] at hf
      exact_mod_cast hf
    have := hvalue' (by omega) (by omega)
    omega
  · obtain ⟨c, u, hu⟩ := List.exists_cons_of_ne_nil f.text_ne_nil
    have hmem : c ∈ f.text := hu ▸ List.mem_cons_self
    have := hbytes c (hs.subset (List.mem_append_left _ hmem))
    have := mem_text f hmem
    omega

theorem writeMetric_never (overflow : Int → Int) (name : Bytes) (labels : List (Bytes × Bytes))
    (value : Int) : ¬ Reads (writeMetric overflow name labels value) name labels value :=
  not_reads overflow name labels value

/-- `mdock_git_dirty` of a vault with changes ends in the character of code 1. -/
theorem control_character :
    let name := utf8 "mdock_git_dirty"
    let labels := [(utf8 "vault", utf8 "notes")]
    writeMetric id name labels 1 = name ++ utf8 "\x7bvault=\"notes\"\x7d " ++ [0x01, newline] ∧
      ¬ Reads (writeMetric id name labels 1) name labels 1 :=
  ⟨by decide, not_reads _ _ _ 1⟩

end Mdock.App.Metrics
