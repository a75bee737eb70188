import Mdock.Go.Strings
import Mdock.Lib.TextOrder

/-! UTC instants of `time.Time` and their `time.RFC3339Nano` text. The layout drops the
trailing zeros of the fraction; `format_le_iff` says when texts still sort like instants. -/
namespace Mdock.Go
open Mdock.Lib

/-- Nanoseconds since the Unix epoch, in UTC. -/
abbrev Instant := Int

structure Date where
  year : Int
  month : Int
  day : Int

/-- Year and day of the year in a cycle of 400 years that starts on 1 March, so that
leap days end their cycles. -/
def yearOfEra (doe : Int) : Int × Int :=
  let century := if doe / 36524 = 4 then 3 else doe / 36524
  let doc := doe - 36524 * century
  let four := doc / 1461
  let dof := doc - 1461 * four
  let one := if dof / 365 = 4 then 3 else dof / 365
  (100 * century + 4 * four + one, dof - 365 * one)

/-- Month and day of the month of a day of such a year; month 0 is March. -/
def monthOfYear (doy : Int) : Int × Int :=
  let mp := (5 * doy + 2) / 153
  (mp, doy - (153 * mp + 2) / 5 + 1)

def eraDate (era doe : Int) : Date :=
  let y := yearOfEra doe
  let m := monthOfYear y.2
  { year := 400 * era + y.1 + (if m.1 < 10 then 0 else 1)
    month := if m.1 < 10 then m.1 + 3 else m.1 - 9
    day := m.2 }

/-- The proleptic Gregorian date of a day counted from 1970-01-01. -/
def civil (day : Int) : Date :=
  eraDate ((day + 719468) / 146097) ((day + 719468) % 146097)

def second (t : Instant) : Int := t / 1000000000
def nanosecond (t : Instant) : Nat := (t % 1000000000).toNat
def date (s : Int) : Date := civil (s / 86400)
def year (t : Instant) : Int := (date (second t)).year

def digit (n : Nat) : UInt8 := UInt8.ofNat (48 + n % 10)

/-- `appendInt(n, w)` for an `n` of at most `w` digits. -/
def pad : Nat → Nat → Bytes
  | 0, _ => []
  | w + 1, n => pad w (n / 10) ++ [digit n]

/-- Decimal digits of `n` without leading zeros; `n` itself is fuel enough. -/
def decimal : Nat → Nat → Bytes
  | 0, _ => []
  | fuel + 1, n => if n = 0 then [] else decimal fuel (n / 10) ++ [digit n]

def yearDigits (y : Int) : Bytes :=
  if y.natAbs < 10000 then pad 4 y.natAbs else decimal y.natAbs y.natAbs

/-- `appendInt(year, 4)`. -/
def yearText (y : Int) : Bytes := if y < 0 then 0x2D :: yearDigits y else yearDigits y

/-- `MM-DDThh:mm:ss`, the part of the layout between year and fraction. -/
def withinYear (s : Int) : Bytes :=
  let d := date s
  let r := s % 86400
  pad 2 d.month.toNat ++ 0x2D :: (pad 2 d.day.toNat ++ 0x54 :: (pad 2 (r / 3600).toNat ++
    0x3A :: (pad 2 (r % 3600 / 60).toNat ++ 0x3A :: pad 2 (r % 60).toNat)))

/-- `appendNano` for `.999999999`: nine digits less trailing zeros, nothing for 0. -/
def fraction (ns : Nat) : Bytes :=
  if trimEnd 0x30 (pad 9 ns) = [] then [] else 0x2E :: trimEnd 0x30 (pad 9 ns)

/-- `t.Format(time.RFC3339Nano)`. -/
def format (t : Instant) : Bytes :=
  yearText (year t) ++ 0x2D :: (withinYear (second t) ++ (fraction (nanosecond t) ++ [0x5A]))

/-- `time.Parse(time.RFC3339Nano, format(t))`: the layout reads back a year of four
digits only. -/
def reparse (t : Instant) : Option Instant := if 0 ≤ year t ∧ year t ≤ 9999 then some t else none

/-! ### The order of dates -/

theorem yearOfEra_bounds {doe : Int} (h0 : 0 ≤ doe) (h1 : doe < 146097) :
    0 ≤ (yearOfEra doe).1 ∧ (yearOfEra doe).1 < 400 ∧
      0 ≤ (yearOfEra doe).2 ∧ (yearOfEra doe).2 ≤ 365 := by
  simp only [yearOfEra]
  split_ifs <;> omega

theorem yearOfEra_lt {a b : Int} (h0 : 0 ≤ a) (hab : a < b) (h1 : b < 146097) :
    (yearOfEra a).1 < (yearOfEra b).1 ∨
      (yearOfEra a).1 = (yearOfEra b).1 ∧ (yearOfEra a).2 < (yearOfEra b).2 := by
  simp only [yearOfEra]
  split_ifs <;> omega

theorem monthOfYear_bounds {doy : Int} (h0 : 0 ≤ doy) (h1 : doy ≤ 365) :
    0 ≤ (monthOfYear doy).1 ∧ (monthOfYear doy).1 ≤ 11 ∧
      1 ≤ (monthOfYear doy).2 ∧ (monthOfYear doy).2 ≤ 31 := by
  simp only [monthOfYear]
  omega

theorem monthOfYear_lt {a b : Int} (hab : a < b) :
    (monthOfYear a).1 < (monthOfYear b).1 ∨
      (monthOfYear a).1 = (monthOfYear b).1 ∧ (monthOfYear a).2 < (monthOfYear b).2 := by
  simp only [monthOfYear]
  omega

def Date.Lt (d e : Date) : Prop :=
  d.year < e.year ∨ d.year = e.year ∧ (d.month < e.month ∨ d.month = e.month ∧ d.day < e.day)

theorem civil_bounds (day : Int) : 1 ≤ (civil day).month ∧ (civil day).month ≤ 12 ∧
    1 ≤ (civil day).day ∧ (civil day).day ≤ 31 := by
  have hy := @yearOfEra_bounds ((day + 719468) % 146097) (by omega) (by omega)
  have hm := monthOfYear_bounds hy.2.2.1 hy.2.2.2
  simp only [civil, eraDate]
  split_ifs <;> omega

/-- Later days have later dates. -/
theorem civil_lt {a b : Int} (hab : a < b) : (civil a).Lt (civil b) := by
  have hya := @yearOfEra_bounds ((a + 719468) % 146097) (by omega) (by omega)
  have hyb := @yearOfEra_bounds ((b + 719468) % 146097) (by omega) (by omega)
  have hma := monthOfYear_bounds hya.2.2.1 hya.2.2.2
  have hmb := monthOfYear_bounds hyb.2.2.1 hyb.2.2.2
  have hera : (a + 719468) / 146097 < (b + 719468) / 146097 ∨
      (a + 719468) / 146097 = (b + 719468) / 146097 ∧
        (a + 719468) % 146097 < (b + 719468) % 146097 := by omega
  simp only [Date.Lt, civil, eraDate]
  rcases hera with hera | ⟨hera, hdoe⟩
  · split_ifs <;> omega
  · rcases yearOfEra_lt (by omega) hdoe (by omega) with hy | ⟨hy, hdoy⟩
    · split_ifs <;> omega
    · have hm := monthOfYear_lt hdoy
      split_ifs <;> omega

/-! ### Numerals of fixed width -/

@[simp] theorem pad_length (w n : Nat) : (pad w n).length = w := by
  induction w generalizing n with
  | zero => rfl
  | succ w ih => simp [pad, ih]

theorem digit_lt {a b : Nat} (hab : a < b) (hb : b < 10) : digit a < digit b := by
  rw [digit, digit, UInt8.lt_iff_toNat_lt, UInt8.toNat_ofNat', UInt8.toNat_ofNat']
  omega

theorem digit_bounds (n : Nat) : 0x30 ≤ digit n ∧ digit n ≤ 0x39 := by
  rw [digit, UInt8.le_iff_toNat_le, UInt8.le_iff_toNat_le, UInt8.toNat_ofNat']
  have h : n % 10 < 10 := Nat.mod_lt n (by omega)
  constructor
  · change 48 ≤ _
    omega
  · change _ ≤ 57
    omega

theorem pad_digits (w n : Nat) : ∀ b ∈ pad w n, 0x30 ≤ b ∧ b ≤ 0x39 := by
  induction w generalizing n with
  | zero => simp [pad]
  | succ w ih =>
    intro b hb
    rcases List.mem_append.mp hb with hb | hb
    · exact ih _ b hb
    · rw [List.mem_singleton.mp hb]
      exact digit_bounds n

theorem pad_lt {w a b : Nat} (hab : a < b) (hb : b < 10 ^ w) : pad w a < pad w b := by
  induction w generalizing a b with
  | zero => omega
  | succ w ih =>
    have hb' : b / 10 < 10 ^ w := by
      rw [Nat.div_lt_iff_lt_mul (by omega)]
      simpa [pow_succ] using hb
    rcases Nat.lt_or_ge (a / 10) (b / 10) with h | h
    · exact append_lt_append_of_lt (by simp) (ih h hb') _ _
    · have he : a / 10 = b / 10 := by omega
      rw [pad, pad, he, append_lt_append_left, List.cons_lt_cons_iff]
      left
      have hd := digit_lt (a := a % 10) (b := b % 10) (by omega) (by omega)
      simpa [digit] using hd

theorem pad_append_lt {w a b : Nat} (hab : a < b) (hb : b < 10 ^ w) (s t : Bytes) :
    pad w a ++ s < pad w b ++ t :=
  append_lt_append_of_lt (by simp) (pad_lt hab hb) s t

/-! ### The order of texts -/

theorem cons_lt_cons (b : UInt8) (s t : Bytes) : b :: s < b :: t ↔ s < t :=
  append_lt_append_left [b] s t

theorem withinYear_lt {a b : Int} (hab : a < b) (hy : (date a).year = (date b).year) :
    withinYear a < withinYear b := by
  have hba := civil_bounds (a / 86400)
  have hbb := civil_bounds (b / 86400)
  have hpad {x y : Int} (h0 : 0 ≤ x) (hxy : x < y) (h1 : y < 100) (s t : Bytes) :
      pad 2 x.toNat ++ s < pad 2 y.toNat ++ t :=
    pad_append_lt (by omega) (by omega) s t
  simp only [withinYear, date] at hy ⊢
  rcases (show a / 86400 < b / 86400 ∨ a / 86400 = b / 86400 ∧ a % 86400 < b % 86400 by omega)
    with hd | ⟨hd, hr⟩
  · rcases civil_lt hd with h | ⟨-, hm | ⟨hm, hday⟩⟩
    · omega
    · exact hpad (by omega) hm (by omega) _ _
    · rw [hm, append_lt_append_left, cons_lt_cons]
      exact hpad (by omega) hday (by omega) _ _
  · rw [hd, append_lt_append_left, cons_lt_cons, append_lt_append_left, cons_lt_cons]
    rcases (show a % 86400 / 3600 < b % 86400 / 3600 ∨ a % 86400 / 3600 = b % 86400 / 3600 ∧
        a % 86400 % 3600 < b % 86400 % 3600 by omega) with hh | ⟨hh, hr⟩
    · exact hpad (by omega) hh (by omega) _ _
    · rw [hh, append_lt_append_left, cons_lt_cons]
      rcases (show a % 86400 % 3600 / 60 < b % 86400 % 3600 / 60 ∨
          a % 86400 % 3600 / 60 = b % 86400 % 3600 / 60 ∧ a % 86400 % 60 < b % 86400 % 60 by omega)
        with hm | ⟨hm, hs⟩
      · exact hpad (by omega) hm (by omega) _ _
      · rw [hm, append_lt_append_left, cons_lt_cons]
        exact pad_lt (by omega) (by omega)

@[simp] theorem withinYear_length (s : Int) : (withinYear s).length = 14 := by
  simp [withinYear]

theorem decimal_ne_nil {n : Nat} (h : n ≠ 0) : decimal n n ≠ [] := by
  cases n with
  | zero => exact absurd rfl h
  | succ n =>
    rw [decimal, if_neg h]
    simp

theorem decimal_digits (fuel n : Nat) : ∀ b ∈ decimal fuel n, 0x30 ≤ b ∧ b ≤ 0x39 := by
  induction fuel generalizing n with
  | zero => simp [decimal]
  | succ fuel ih =>
    intro b hb
    rw [decimal] at hb
    split at hb
    · simp at hb
    · rcases List.mem_append.mp hb with hb | hb
      · exact ih _ b hb
      · rw [List.mem_singleton.mp hb]
        exact digit_bounds n

/-- The number a list of digits stands for. -/
def value (s : Bytes) : Nat := s.foldl (fun v b => 10 * v + (b.toNat - 48)) 0

theorem digit_toNat (n : Nat) : (digit n).toNat - 48 = n % 10 := by
  rw [digit, UInt8.toNat_ofNat']
  omega

theorem value_concat (s : Bytes) (n : Nat) : value (s ++ [digit n]) = 10 * value s + n % 10 := by
  simp [value, List.foldl_append, digit_toNat]

theorem value_pad {w n : Nat} (h : n < 10 ^ w) : value (pad w n) = n := by
  induction w generalizing n with
  | zero =>
    simp only [pow_zero, Nat.lt_one_iff] at h
    subst h
    rfl
  | succ w ih =>
    have hd : n / 10 < 10 ^ w := by
      rw [Nat.div_lt_iff_lt_mul (by omega)]
      simpa [pow_succ] using h
    rw [pad, value_concat, ih hd]
    omega

theorem value_decimal {fuel n : Nat} (h : n ≤ fuel) : value (decimal fuel n) = n := by
  induction fuel generalizing n with
  | zero =>
    obtain rfl : n = 0 := by omega
    rfl
  | succ fuel ih =>
    rw [decimal]
    split
    · rename_i h0
      exact h0.symm
    · rw [value_concat, ih (by omega)]
      omega

theorem value_yearDigits (y : Int) : value (yearDigits y) = y.natAbs := by
  unfold yearDigits
  split
  · rename_i hy
    exact value_pad (by simpa using hy)
  · exact value_decimal le_rfl

theorem yearDigits_digits (y : Int) : ∀ b ∈ yearDigits y, 0x2D < b := by
  intro b hb
  have h : 0x30 ≤ b := by
    unfold yearDigits at hb
    split at hb
    · exact (pad_digits _ _ b hb).1
    · exact (decimal_digits _ _ b hb).1
  exact lt_of_lt_of_le (by decide) h

theorem yearText_ne_nil (y : Int) : yearText y ≠ [] := by
  unfold yearText
  split
  · simp
  · intro h
    have hv := value_yearDigits y
    rw [h] at hv
    have h0 : y = 0 := by
      simp only [value, List.foldl_nil] at hv
      omega
    subst h0
    exact absurd h (by decide)

theorem yearText_tail (y : Int) : ∀ b ∈ (yearText y).tail, 0x2D < b := by
  intro b hb
  unfold yearText at hb
  split at hb
  · exact yearDigits_digits y b hb
  · exact yearDigits_digits y b (List.mem_of_mem_tail hb)

/-- Years have different numerals. -/
theorem yearText_injective {a b : Int} (h : yearText a = yearText b) : a = b := by
  have hva := value_yearDigits a
  have hvb := value_yearDigits b
  have hne (y : Int) (u : Bytes) : yearDigits y ≠ 0x2D :: u := fun he =>
    absurd (yearDigits_digits y 0x2D (he ▸ List.mem_cons_self)) (by decide)
  by_cases ha : a < 0 <;> by_cases hb : b < 0 <;>
    simp only [yearText, ha, hb, if_true, if_false, List.cons.injEq, true_and] at h
  · rw [h] at hva
    omega
  · exact absurd h.symm (hne b _)
  · exact absurd h (hne a _)
  · rw [h] at hva
    omega

/-- The numerals of two years sort as the years do. -/
def YearsSort (a b : Int) : Prop := a = b ∨ (yearText a < yearText b ↔ a < b)

/-- In the range of RFC 3339 they always do. -/
theorem yearsSort_of_four_digits {a b : Int} (ha : 0 ≤ a ∧ a ≤ 9999) (hb : 0 ≤ b ∧ b ≤ 9999) :
    YearsSort a b := by
  have htext {y : Int} (hy : 0 ≤ y ∧ y ≤ 9999) : yearText y = pad 4 y.natAbs := by
    have h0 : ¬ y < 0 := by omega
    have h1 : y.natAbs < 10000 := by omega
    simp [yearText, yearDigits, h0, h1]
  have hlt {x y : Int} (hx : 0 ≤ x ∧ x ≤ 9999) (hy : 0 ≤ y ∧ y ≤ 9999) (hxy : x < y) :
      yearText x < yearText y := by
    rw [htext hx, htext hy]
    exact pad_lt (by omega) (by omega)
  rcases lt_trichotomy a b with h | h | h
  · exact .inr (iff_of_true (hlt ha hb h) h)
  · exact .inl h
  · exact .inr (iff_of_false (not_lt_of_gt (hlt hb ha h)) (not_lt_of_gt h))

/-- Two instants of one second of which one has a fraction that continues the other's. -/
def FractionClash (e n : Instant) : Prop :=
  second e = second n ∧ fraction (nanosecond e) ≠ fraction (nanosecond n) ∧
    (fraction (nanosecond e) <+: fraction (nanosecond n) ∨
      fraction (nanosecond n) <+: fraction (nanosecond e))

instance (e n : Instant) : Decidable (FractionClash e n) := inferInstanceAs (Decidable (_ ∧ _ ∧ _))

theorem nanosecond_lt (t : Instant) : nanosecond t < 10 ^ 9 := by
  unfold nanosecond
  omega

theorem fraction_below_Z (ns : Nat) : ∀ b ∈ fraction ns, b < 0x5A := by
  intro b hb
  unfold fraction at hb
  split at hb
  · simp at hb
  · rcases List.mem_cons.mp hb with rfl | hb
    · decide
    · have hm : b ∈ pad 9 ns := by
        obtain ⟨k, hk⟩ := trimEnd_append 0x30 (pad 9 ns)
        rw [hk]
        exact List.mem_append_left _ hb
      exact lt_of_le_of_lt (pad_digits _ _ b hm).2 (by decide)

theorem fraction_begins {a b : Nat} (h : fraction a <+: fraction b) :
    trimEnd 0x30 (pad 9 a) <+: trimEnd 0x30 (pad 9 b) := by
  unfold fraction at h
  by_cases ha : trimEnd 0x30 (pad 9 a) = []
  · rw [ha]
    exact List.nil_prefix
  · by_cases hb : trimEnd 0x30 (pad 9 b) = []
    · simp [ha, hb] at h
    · simpa [ha, hb, List.prefix_cons_inj] using h

theorem fraction_begins_of_trimEnd {a b : Nat}
    (h : trimEnd 0x30 (pad 9 a) <+: trimEnd 0x30 (pad 9 b)) : fraction a <+: fraction b := by
  unfold fraction
  by_cases ha : trimEnd 0x30 (pad 9 a) = []
  · simp [ha]
  · by_cases hb : trimEnd 0x30 (pad 9 b) = []
    · rw [hb, List.prefix_nil] at h
      exact absurd h ha
    · simpa [ha, hb, List.prefix_cons_inj] using h

theorem pad_injOn {w a b : Nat} (ha : a < 10 ^ w) (hb : b < 10 ^ w) (h : pad w a = pad w b) :
    a = b := by
  rw [← value_pad ha, ← value_pad hb, h]

theorem pad_lt_iff {w a b : Nat} (ha : a < 10 ^ w) (hb : b < 10 ^ w) :
    pad w a < pad w b ↔ a < b := by
  rcases lt_trichotomy a b with h | rfl | h
  · exact iff_of_true (pad_lt h hb) h
  · exact iff_of_false (lt_irrefl _) (lt_irrefl _)
  · exact iff_of_false (not_lt_of_gt (pad_lt h ha)) (not_lt_of_gt h)

/-- A fraction that another one continues is the smaller number but sorts last. -/
theorem fraction_clash {a b : Nat} (ha : a < 10 ^ 9) (hb : b < 10 ^ 9)
    (hne : fraction a ≠ fraction b) (h : fraction a <+: fraction b) :
    a < b ∧ fraction b ++ [0x5A] < fraction a ++ [0x5A] := by
  have hab : pad 9 a ≠ pad 9 b := by
    intro he
    exact hne (by rw [fraction, fraction, he])
  refine ⟨?_, lt_of_prefix_closed h hne (fraction_below_Z b)⟩
  exact (pad_lt_iff ha hb).mp (lt_of_trimEnd_begins (by simp)
    (fun x hx => (pad_digits _ _ x hx).1) (fraction_begins h) hab)

theorem fraction_no_clash {a b : Nat} (ha : a < 10 ^ 9) (hb : b < 10 ^ 9)
    (hab : ¬ fraction a <+: fraction b) (hba : ¬ fraction b <+: fraction a) :
    fraction a ++ [0x5A] < fraction b ++ [0x5A] ↔ a < b := by
  have htab := fun h => hab (fraction_begins_of_trimEnd h)
  have htba := fun h => hba (fraction_begins_of_trimEnd h)
  rw [lt_closed_above hab hba, ← pad_lt_iff ha hb, ← lt_iff_trimEnd htab htba]
  have hta : trimEnd 0x30 (pad 9 a) ≠ [] := by
    intro h
    rw [h] at htab
    exact htab List.nil_prefix
  have htb : trimEnd 0x30 (pad 9 b) ≠ [] := by
    intro h
    rw [h] at htba
    exact htba List.nil_prefix
  simp only [fraction, hta, htb, if_false, cons_lt_cons]

theorem fraction_injOn {a b : Nat} (ha : a < 10 ^ 9) (hb : b < 10 ^ 9)
    (h : fraction a = fraction b) : a = b := by
  apply pad_injOn ha hb
  apply trimEnd_injOn (o := 0x30) (by simp)
  unfold fraction at h
  by_cases hta : trimEnd 0x30 (pad 9 a) = [] <;> by_cases htb : trimEnd 0x30 (pad 9 b) = [] <;>
    simp_all

/-! ### Texts against instants -/

theorem format_lt_of_year_ne {e n : Instant} (h : year e ≠ year n) :
    format e < format n ↔ yearText (year e) < yearText (year n) :=
  lt_closed_below (fun he => h (yearText_injective he)) (yearText_ne_nil _) (yearText_ne_nil _)
    (yearText_tail _) (yearText_tail _) _ _

theorem format_lt_of_second_lt {e n : Instant} (hy : year e = year n)
    (hs : second e < second n) : format e < format n := by
  rw [format, format, hy, append_lt_append_left, cons_lt_cons]
  exact append_lt_append_of_lt (by simp) (withinYear_lt hs hy) _ _

theorem format_lt_of_second_eq {e n : Instant} (hs : second e = second n) :
    format e < format n ↔
      fraction (nanosecond e) ++ [0x5A] < fraction (nanosecond n) ++ [0x5A] := by
  rw [format, format, year, year, hs, append_lt_append_left, cons_lt_cons, append_lt_append_left]

theorem instant_lt_iff (e n : Instant) :
    e < n ↔ second e < second n ∨ second e = second n ∧ nanosecond e < nanosecond n := by
  have h (a b : Int) : a < b ↔ a / 1000000000 < b / 1000000000 ∨
      a / 1000000000 = b / 1000000000 ∧
        (a % 1000000000).toNat < (b % 1000000000).toNat := by omega
  exact h e n

theorem year_mono {e n : Instant} (h : second e ≤ second n) : year e ≤ year n := by
  rcases (show second e / 86400 < second n / 86400 ∨ second e / 86400 = second n / 86400 by omega)
    with hd | hd
  · rcases civil_lt hd with hy | ⟨hy, -⟩
    · exact hy.le
    · exact hy.le
  · simp only [year, date, hd, le_refl]

/-- Stored timestamps sort like the instants they stand for exactly when their years do
and, within one second, no fraction continues the other. -/
theorem format_lt_iff (e n : Instant) :
    (format e < format n ↔ e < n) ↔ YearsSort (year e) (year n) ∧ ¬ FractionClash e n := by
  by_cases hy : year e = year n
  · have hsort : YearsSort (year e) (year n) := .inl hy
    rcases lt_trichotomy (second e) (second n) with hs | hs | hs
    · have hlt : e < n := (instant_lt_iff e n).mpr (.inl hs)
      simp [hsort, FractionClash, hs.ne, format_lt_of_second_lt hy hs, hlt]
    · have ha := nanosecond_lt e
      have hb := nanosecond_lt n
      have hen : e < n ↔ nanosecond e < nanosecond n := by
        rw [instant_lt_iff]
        simp [hs]
      rw [format_lt_of_second_eq hs, hen]
      by_cases hf : fraction (nanosecond e) = fraction (nanosecond n)
      · simp [hsort, FractionClash, fraction_injOn ha hb hf]
      · by_cases hab : fraction (nanosecond e) <+: fraction (nanosecond n)
        · obtain ⟨hlt, htext⟩ := fraction_clash ha hb hf hab
          simp [FractionClash, hs, hf, hab, hlt, not_lt_of_gt htext]
        · by_cases hba : fraction (nanosecond n) <+: fraction (nanosecond e)
          · obtain ⟨hlt, htext⟩ := fraction_clash hb ha (Ne.symm hf) hba
            simp [FractionClash, hs, hf, hba, not_lt_of_gt hlt, htext]
          · simp [hsort, FractionClash, hab, hba, fraction_no_clash ha hb hab hba]
    · have hlt : n < e := (instant_lt_iff n e).mpr (.inl hs)
      simp [hsort, FractionClash, hs.ne', not_lt_of_gt (format_lt_of_second_lt hy.symm hs),
        not_lt_of_gt hlt]
  · have hs : second e ≠ second n := fun h => hy (by rw [year, year, h])
    have hen : e < n ↔ year e < year n := by
      rw [instant_lt_iff]
      constructor
      · rintro (h | ⟨h, -⟩)
        · exact lt_of_le_of_ne (year_mono h.le) hy
        · exact absurd h hs
      · intro h
        refine .inl (lt_of_not_ge fun hge => ?_)
        exact absurd (year_mono hge) (not_le_of_gt h)
    rw [format_lt_of_year_ne hy, hen]
    simp [YearsSort, hy, FractionClash, hs]

/-- The two ways in which a text comparison can go wrong, ruled out. -/
def SortAlike (e n : Instant) : Prop := YearsSort (year e) (year n) ∧ ¬ FractionClash e n

instance (a b : Int) : Decidable (YearsSort a b) := inferInstanceAs (Decidable (_ ∨ _))
instance (e n : Instant) : Decidable (SortAlike e n) := inferInstanceAs (Decidable (_ ∧ _))

theorem YearsSort.symm {a b : Int} (h : YearsSort a b) : YearsSort b a := by
  rcases h with rfl | h
  · exact .inl rfl
  · rcases eq_or_ne b a with hab | hab
    · exact .inl hab
    · refine .inr ?_
      have htext : yearText a ≠ yearText b := fun he => hab (yearText_injective he).symm
      rw [← not_iff_not, not_lt, not_lt, le_iff_lt_or_eq, le_iff_lt_or_eq]
      simp [htext, hab.symm, h]

theorem FractionClash.symm {e n : Instant} (h : FractionClash e n) : FractionClash n e :=
  ⟨h.1.symm, h.2.1.symm, h.2.2.symm⟩

theorem SortAlike.symm {e n : Instant} (h : SortAlike e n) : SortAlike n e :=
  ⟨h.1.symm, fun hc => h.2 hc.symm⟩

/-- The same law for `<=`, the comparison the SQL statements make. -/
theorem format_le_iff (e n : Instant) : (format e ≤ format n ↔ e ≤ n) ↔ SortAlike e n := by
  rw [← not_lt, ← not_lt (a := n), not_iff_not, format_lt_iff]
  exact ⟨SortAlike.symm, SortAlike.symm⟩

end Mdock.Go
