import Mdock.Go.Utf8

/-! `encoding/json`: what `Marshal` writes, and a reader of its own for what `Unmarshal` scans.
The limit on the depth of nesting is left out. -/
namespace Mdock.Go.Json

def quote : UInt8 := 0x22
def backslash : UInt8 := 0x5C
def comma : UInt8 := 0x2C
def colon : UInt8 := 0x3A

inductive Value
  | null
  | bool (b : Bool)
  | num (literal : Bytes)
  | str (s : Bytes)
  | arr (items : List Value)
  | obj (fields : List (Bytes × Value))

/-! ### Runes -/

/-- The bytes after the first one of a rune, where there is one. -/
def runeRest (b : UInt8) (s : Bytes) : Option Bytes :=
  (runeTail b).bind fun ranges =>
    let tail := s.take ranges.length
    if tail.foldl utf8Step (some ranges) = some [] then some tail else none

/-- U+FFFD. -/
def replacement : Bytes := [0xEF, 0xBF, 0xBD]

/-! ### `Marshal` -/

/-- A digit of `hex`. -/
def hexDigit (n : Nat) : UInt8 := if n < 10 then UInt8.ofNat (0x30 + n) else UInt8.ofNat (0x57 + n)

/-- What stands for a byte below 0x80; `<`, `>` and `&` are written as escapes too. -/
def escapeByte (b : UInt8) : Bytes :=
  if b = backslash ∨ b = quote then [backslash, b]
  else if b = 0x08 then [backslash, 0x62]
  else if b = 0x0C then [backslash, 0x66]
  else if b = 0x0A then [backslash, 0x6E]
  else if b = 0x0D then [backslash, 0x72]
  else if b = 0x09 then [backslash, 0x74]
  else if b < 0x20 ∨ b = 0x3C ∨ b = 0x3E ∨ b = 0x26 then
    [backslash, 0x75, 0x30, 0x30, hexDigit (b.toNat / 16), hexDigit (b.toNat % 16)]
  else [b]

/-- What stands for a rune of more than one byte: U+2028 and U+2029 are escaped. -/
def escapeRune (rune : Bytes) : Bytes :=
  if rune = [0xE2, 0x80, 0xA8] then utf8 "\\u2028"
  else if rune = [0xE2, 0x80, 0xA9] then utf8 "\\u2029"
  else rune

def quoteBody : Nat → Bytes → Bytes
  | 0, _ | _, [] => []
  | fuel + 1, b :: s =>
    if b < 0x80 then escapeByte b ++ quoteBody fuel s
    else
      match runeRest b s with
      | none => utf8 "\\ufffd" ++ quoteBody fuel s
      | some tail => escapeRune (b :: tail) ++ quoteBody fuel (s.drop tail.length)

/-- `appendString`. -/
def appendString (s : Bytes) : Bytes := quote :: (quoteBody s.length s ++ [quote])

mutual

def marshal : Value → Bytes
  | .null => utf8 "null"
  | .bool b => utf8 (if b then "true" else "false")
  | .num literal => literal
  | .str s => appendString s
  | .arr items => 0x5B :: (marshalItems items ++ [0x5D])
  | .obj fields => 0x7B :: (marshalFields fields ++ [0x7D])

def marshalItems : List Value → Bytes
  | [] => []
  | [v] => marshal v
  | v :: vs => marshal v ++ comma :: marshalItems vs

def marshalFields : List (Bytes × Value) → Bytes
  | [] => []
  | [(k, v)] => appendString k ++ colon :: marshal v
  | (k, v) :: fields => appendString k ++ colon :: (marshal v ++ comma :: marshalFields fields)

end

/-! ### `Unmarshal` -/

def hexValue (c : UInt8) : Option Nat :=
  if 0x30 ≤ c ∧ c ≤ 0x39 then some (c.toNat - 0x30)
  else if 0x61 ≤ c ∧ c ≤ 0x66 then some (c.toNat - 0x57)
  else if 0x41 ≤ c ∧ c ≤ 0x46 then some (c.toNat - 0x37)
  else none

/-- `getu4`, after the `\u`. -/
def getu4 : Bytes → Option (Nat × Bytes)
  | a :: b :: c :: d :: s =>
    match hexValue a, hexValue b, hexValue c, hexValue d with
    | some a, some b, some c, some d => some (((a * 16 + b) * 16 + c) * 16 + d, s)
    | _, _, _, _ => none
  | _ => none

/-- The bytes of a rune. -/
def encodeRune (n : Nat) : Bytes :=
  if n.isValidChar then String.utf8EncodeChar (Char.ofNat n) else replacement

/-- The second half of a surrogate pair. -/
def lowHalf : Bytes → Option (Nat × Bytes)
  | 0x5C :: 0x75 :: s => (getu4 s).filter fun r => 0xDC00 ≤ r.1 ∧ r.1 < 0xE000
  | _ => none

/-- What an escape stands for, after its backslash. -/
def unescape : Bytes → Option (Bytes × Bytes)
  | 0x22 :: s => some ([quote], s)
  | 0x5C :: s => some ([backslash], s)
  | 0x2F :: s => some ([0x2F], s)
  | 0x62 :: s => some ([0x08], s)
  | 0x66 :: s => some ([0x0C], s)
  | 0x6E :: s => some ([0x0A], s)
  | 0x72 :: s => some ([0x0D], s)
  | 0x74 :: s => some ([0x09], s)
  | 0x75 :: s =>
    (getu4 s).map fun r =>
      if 0xD800 ≤ r.1 ∧ r.1 < 0xDC00 then
        match lowHalf r.2 with
        | some low => (encodeRune (0x10000 + (r.1 - 0xD800) * 0x400 + (low.1 - 0xDC00)), low.2)
        | none => (replacement, r.2)
      else (encodeRune r.1, r.2)
  | _ => none

/-- A string after its quotation mark, and what follows it. -/
def unquote : Nat → Bytes → Option (Bytes × Bytes)
  | 0, _ | _, [] => none
  | fuel + 1, b :: s =>
    if b = quote then some ([], s)
    else if b < 0x20 then none
    else if b = backslash then
      (unescape s).bind fun t => (unquote fuel t.2).map fun r => (t.1 ++ r.1, r.2)
    else if b < 0x80 then (unquote fuel s).map fun r => (b :: r.1, r.2)
    else
      match runeRest b s with
      | none => (unquote fuel s).map fun r => (replacement ++ r.1, r.2)
      | some tail => (unquote fuel (s.drop tail.length)).map fun r => (b :: tail ++ r.1, r.2)

def readString (s : Bytes) : Option (Bytes × Bytes) := unquote (s.length + 1) s

def isBlank (c : UInt8) : Bool := c = 0x20 ∨ c = 0x09 ∨ c = 0x0A ∨ c = 0x0D

def skip (s : Bytes) : Bytes := s.dropWhile isBlank

def isDigit (c : UInt8) : Bool := 0x30 ≤ c ∧ c ≤ 0x39

/-- Digits, at least one. -/
def readDigits (s : Bytes) : Option Bytes :=
  if s.takeWhile isDigit = [] then none else some (s.dropWhile isDigit)

def readSign (s : Bytes) : Option Bytes := some (if s.head? = some 0x2D then s.tail else s)

def readWhole (s : Bytes) : Option Bytes :=
  if s.head? = some 0x30 then some s.tail else readDigits s

def readFraction (s : Bytes) : Option Bytes :=
  if s.head? = some 0x2E then readDigits s.tail else some s

def readExponentSign (s : Bytes) : Bytes :=
  if s.head? = some 0x2B ∨ s.head? = some 0x2D then s.tail else s

def readExponent (s : Bytes) : Option Bytes :=
  if s.head? = some 0x65 ∨ s.head? = some 0x45 then readDigits (readExponentSign s.tail) else some s

/-- The rest after a number. -/
def readNumber (s : Bytes) : Option Bytes :=
  (((readSign s).bind readWhole).bind readFraction).bind readExponent

/-- A value that is one token. -/
def readToken (s : Bytes) : Option (Value × Bytes) :=
  if (utf8 "null").isPrefixOf s then some (.null, s.drop 4)
  else if (utf8 "true").isPrefixOf s then some (.bool true, s.drop 4)
  else if (utf8 "false").isPrefixOf s then some (.bool false, s.drop 5)
  else (readNumber s).map fun rest => (.num (s.take (s.length - rest.length)), rest)

/-- What follows an item: more of them after a comma, or the end of the list. -/
def moreItems {α : Type} (read : Bytes → Option (List α × Bytes)) (close : UInt8) (v : α)
    (s : Bytes) : Option (List α × Bytes) :=
  match skip s with
  | [] => none
  | c :: s =>
    if c = comma then (read s).map fun r => (v :: r.1, r.2)
    else if c = close then some ([v], s)
    else none

mutual

def readValue : Nat → Bytes → Option (Value × Bytes)
  | 0, _ => none
  | fuel + 1, s =>
    match skip s with
    | 0x22 :: s => (readString s).map fun r => (.str r.1, r.2)
    | 0x5B :: s =>
      match skip s with
      | 0x5D :: s => some (.arr [], s)
      | s => (readItems fuel s).map fun r => (.arr r.1, r.2)
    | 0x7B :: s =>
      match skip s with
      | 0x7D :: s => some (.obj [], s)
      | s => (readFields fuel s).map fun r => (.obj r.1, r.2)
    | s => readToken s

def readItems : Nat → Bytes → Option (List Value × Bytes)
  | 0, _ => none
  | fuel + 1, s =>
    (readValue fuel s).bind fun r => moreItems (readItems fuel) 0x5D r.1 r.2

def readFields : Nat → Bytes → Option (List (Bytes × Value) × Bytes)
  | 0, _ => none
  | fuel + 1, s =>
    match skip s with
    | 0x22 :: s =>
      (readString s).bind fun k =>
        match skip k.2 with
        | 0x3A :: s =>
          (readValue fuel s).bind fun r => moreItems (readFields fuel) 0x7D (k.1, r.1) r.2
        | _ => none
    | _ => none

end

/-- The value of a whole text. -/
def unmarshal (s : Bytes) : Option Value :=
  (readValue (s.length + 1) s).bind fun (v, rest) => if skip rest = [] then some v else none

/-! ### Strings -/

/-- The rune at the head of a valid text. -/
theorem runeRest_of_valid {b : UInt8} {s : Bytes} (h : utf8Valid (b :: s)) :
    ∃ tail t, s = tail ++ t ∧ utf8Valid t ∧ ∀ t, runeRest b (tail ++ t) = some tail := by
  have hfold : s.foldl utf8Step (runeTail b) = some [] := of_decide_eq_true h
  cases hr : runeTail b with
  | none =>
    rw [hr, foldl_utf8Step_none] at hfold
    cases hfold
  | some ranges =>
    rw [hr] at hfold
    obtain ⟨htake, hlen, hdrop⟩ := foldl_utf8Step_split hfold
    refine ⟨s.take ranges.length, s.drop ranges.length, (List.take_append_drop ..).symm, hdrop,
      fun t => ?_⟩
    have hleft : (s.take ranges.length ++ t).take ranges.length = s.take ranges.length :=
      List.take_left' hlen
    simp [runeRest, hr, hleft, htake]

theorem hexValue_hexDigit {n : Nat} (h : n < 16) : hexValue (hexDigit n) = some n := by
  have hall : ∀ n : Fin 16, hexValue (hexDigit n.val) = some n.val := by decide
  exact hall ⟨n, h⟩

theorem encodeRune_byte {b : UInt8} (h : b < 0x80) : encodeRune b.toNat = [b] := by
  have hall : ∀ n : Fin 128, encodeRune n.val = [UInt8.ofNat n.val] := by decide
  have := hall ⟨b.toNat, h⟩
  simpa using this

/-- An escape that is no half of a surrogate pair. -/
theorem unquote_hex {s rest : Bytes} {n : Nat} (h : getu4 s = some (n, rest))
    (hn : ¬ (0xD800 ≤ n ∧ n < 0xDC00)) (fuel : Nat) :
    unquote (fuel + 1) (backslash :: 0x75 :: s) =
      (unquote fuel rest).map fun r => (encodeRune n ++ r.1, r.2) := by
  have hread : unescape (0x75 :: s) = some (encodeRune n, rest) := by
    rw [unescape, h, Option.map_some]
    simp only [if_neg hn]
  have hstep : unquote (fuel + 1) (backslash :: 0x75 :: s) =
      (unescape (0x75 :: s)).bind fun t =>
        (unquote fuel t.2).map fun r => (t.1 ++ r.1, r.2) := rfl
  rw [hstep, hread, Option.bind_some]

/-- What is written for a byte is read as the byte. -/
theorem unquote_escapeByte {b : UInt8} (h : b < 0x80) (fuel : Nat) (s : Bytes) :
    unquote (fuel + 1) (escapeByte b ++ s) = (unquote fuel s).map fun r => (b :: r.1, r.2) := by
  unfold escapeByte
  split_ifs with h₁ h₂ h₃ h₄ h₅ h₆ h₇
  · rcases h₁ with rfl | rfl <;> rfl
  · subst h₂; rfl
  · subst h₃; rfl
  · subst h₄; rfl
  · subst h₅; rfl
  · subst h₆; rfl
  · have hb : b.toNat < 128 := h
    have hget : getu4 (0x30 :: 0x30 :: hexDigit (b.toNat / 16) :: hexDigit (b.toNat % 16) :: s) =
        some (b.toNat, s) := by
      have h0 : hexValue 0x30 = some 0 := by decide
      rw [getu4, h0, hexValue_hexDigit (by omega), hexValue_hexDigit (by omega)]
      simp only [Option.some.injEq, Prod.mk.injEq, and_true]
      omega
    have hread := unquote_hex hget (by omega) fuel
    rw [encodeRune_byte h] at hread
    exact hread
  · rw [not_or] at h₁
    rw [not_or] at h₇
    rw [List.singleton_append, unquote, if_neg h₁.2, if_neg h₇.1, if_neg h₁.1, if_pos h]

theorem unquote_escapeRune {b : UInt8} {tail : Bytes} (h : ¬ b < 0x80)
    (hrest : ∀ t, runeRest b (tail ++ t) = some tail) (fuel : Nat) (s : Bytes) :
    unquote (fuel + 1) (escapeRune (b :: tail) ++ s) =
      (unquote fuel s).map fun r => (b :: tail ++ r.1, r.2) := by
  unfold escapeRune
  split_ifs with h₁ h₂
  · rw [h₁]
    exact unquote_hex (n := 0x2028) rfl (by decide) fuel
  · rw [h₂]
    exact unquote_hex (n := 0x2029) rfl (by decide) fuel
  · have hquote : b ≠ quote := by
      rintro rfl
      exact h (by decide)
    have hback : b ≠ backslash := by
      rintro rfl
      exact h (by decide)
    have hlow : ¬ b < 0x20 := fun hlt => h (hlt.trans (by decide))
    rw [List.cons_append, unquote, if_neg hquote, if_neg hlow, if_neg hback, if_neg h]
    simp only [hrest, List.drop_left]

/-- A text of bytes below 0x80 and longer runes. -/
inductive Runes : Bytes → Prop
  | nil : Runes []
  | byte {b : UInt8} {s : Bytes} (hb : b < 0x80) : Runes s → Runes (b :: s)
  | rune {b : UInt8} {tail s : Bytes} (hb : ¬ b < 0x80)
      (hrest : ∀ t, runeRest b (tail ++ t) = some tail) : Runes s → Runes (b :: tail ++ s)

theorem Runes.of_valid {s : Bytes} (h : utf8Valid s) : Runes s := by
  induction hn : s.length using Nat.strong_induction_on generalizing s with
  | _ n ih =>
    cases s with
    | nil => exact .nil
    | cons b s =>
      subst hn
      by_cases hb : b < 0x80
      · exact .byte hb (ih s.length (by simp) (utf8Valid_tail hb h) rfl)
      · obtain ⟨tail, t, rfl, ht, hrest⟩ := runeRest_of_valid h
        refine .rune hb hrest (ih t.length ?_ ht rfl)
        rw [List.length_cons, List.length_append]
        omega

theorem quoteBody_rune {b : UInt8} {tail : Bytes} (hb : ¬ b < 0x80)
    (hrest : ∀ t, runeRest b (tail ++ t) = some tail) (fuel : Nat) (s : Bytes) :
    quoteBody (fuel + 1) (b :: tail ++ s) = escapeRune (b :: tail) ++ quoteBody fuel s := by
  rw [List.cons_append, quoteBody, if_neg hb, hrest]
  simp only [List.drop_left]

theorem unquote_quoteBody {fuel k : Nat} {s : Bytes} (h : Runes s) (hf : s.length ≤ fuel)
    (hk : s.length < k) (rest : Bytes) :
    unquote k (quoteBody fuel s ++ quote :: rest) = some (s, rest) := by
  induction h generalizing fuel k with
  | nil =>
    obtain ⟨k, rfl⟩ := Nat.exists_eq_add_one_of_ne_zero (Nat.ne_of_gt hk)
    cases fuel <;> rfl
  | @byte b s hb _ ih =>
    rw [List.length_cons] at hf hk
    obtain ⟨fuel, rfl⟩ := Nat.exists_eq_add_one_of_ne_zero (show fuel ≠ 0 by omega)
    obtain ⟨k, rfl⟩ := Nat.exists_eq_add_one_of_ne_zero (show k ≠ 0 by omega)
    rw [quoteBody, if_pos hb, List.append_assoc, unquote_escapeByte hb, ih (by omega) (by omega)]
    rfl
  | @rune b tail s hb hrest _ ih =>
    rw [List.length_append, List.length_cons] at hf hk
    obtain ⟨fuel, rfl⟩ := Nat.exists_eq_add_one_of_ne_zero (show fuel ≠ 0 by omega)
    obtain ⟨k, rfl⟩ := Nat.exists_eq_add_one_of_ne_zero (show k ≠ 0 by omega)
    rw [quoteBody_rune hb hrest, List.append_assoc, unquote_escapeRune hb hrest,
      ih (by omega) (by omega)]
    rfl

theorem length_escapeByte (b : UInt8) : 1 ≤ (escapeByte b).length := by
  unfold escapeByte
  split_ifs <;> simp

theorem length_escapeRune (rune : Bytes) : rune.length ≤ (escapeRune rune).length := by
  unfold escapeRune
  split_ifs with h₁ h₂
  · rw [h₁]
    decide
  · rw [h₂]
    decide
  · exact le_rfl

theorem length_quoteBody {fuel : Nat} {s : Bytes} (h : Runes s) (hf : s.length ≤ fuel) :
    s.length ≤ (quoteBody fuel s).length := by
  induction h generalizing fuel with
  | nil => exact Nat.zero_le _
  | @byte b s hb _ ih =>
    rw [List.length_cons] at hf
    obtain ⟨fuel, rfl⟩ := Nat.exists_eq_add_one_of_ne_zero (show fuel ≠ 0 by omega)
    have := ih (show _ ≤ fuel by omega)
    have := length_escapeByte b
    rw [quoteBody, if_pos hb, List.length_append, List.length_cons]
    omega
  | @rune b tail s hb hrest _ ih =>
    rw [List.length_append, List.length_cons] at hf
    obtain ⟨fuel, rfl⟩ := Nat.exists_eq_add_one_of_ne_zero (show fuel ≠ 0 by omega)
    have := ih (show _ ≤ fuel by omega)
    have := length_escapeRune (b :: tail)
    rw [quoteBody_rune hb hrest, List.length_append, List.length_append]
    omega

/-- A string is read back whole. -/
theorem readString_appendString {s : Bytes} (h : utf8Valid s) (rest : Bytes) :
    readString (quoteBody s.length s ++ quote :: rest) = some (s, rest) := by
  refine unquote_quoteBody (.of_valid h) le_rfl ?_ rest
  have := length_quoteBody (.of_valid h) le_rfl
  rw [List.length_append]
  omega

/-! ### Numbers -/

/-- A byte that may stand in a number. -/
def isNumberByte (c : UInt8) : Bool :=
  isDigit c || c = 0x2D || c = 0x2B || c = 0x2E || c = 0x65 || c = 0x45

/-- A rest that goes on with no number. -/
def Ends (rest : Bytes) : Prop := ∀ c, rest.head? = some c → ¬ isNumberByte c

/-- What is read does not depend on what follows it. -/
def Local (read : Bytes → Option Bytes) : Prop :=
  ∀ s t rest, Ends rest → read s = some t → read (s ++ rest) = some (t ++ rest)

theorem Local.bind {f g : Bytes → Option Bytes} (hf : Local f) (hg : Local g) :
    Local fun s => (f s).bind g := by
  intro s t rest hr h
  obtain ⟨u, hu, ht⟩ := Option.bind_eq_some_iff.mp h
  simp only [hf s u rest hr hu, Option.bind_some]
  exact hg u t rest hr ht

theorem head?_append_iff {s rest : Bytes} (hr : Ends rest) {c : UInt8} (hc : isNumberByte c) :
    (s ++ rest).head? = some c ↔ s.head? = some c := by
  cases s with
  | nil =>
    constructor
    · exact fun h => absurd hc (hr c h)
    · intro h
      cases h
  | cons b s => rfl

theorem tail_append {s rest : Bytes} {c : UInt8} (h : s.head? = some c) :
    (s ++ rest).tail = s.tail ++ rest := by
  cases s with
  | nil => cases h
  | cons b s => rfl

theorem local_readDigits : Local readDigits := by
  intro s t rest hr h
  have hrest : rest.takeWhile isDigit = [] ∧ rest.dropWhile isDigit = rest := by
    cases rest with
    | nil => exact ⟨rfl, rfl⟩
    | cons c rest =>
      have hc : ¬ isDigit c := fun hd => hr c rfl (by simp [isNumberByte, hd])
      exact ⟨List.takeWhile_cons_of_neg hc, List.dropWhile_cons_of_neg hc⟩
  unfold readDigits at h ⊢
  split at h
  · cases h
  · rename_i hne
    cases h
    rw [List.takeWhile_append, List.dropWhile_append, hrest.1, hrest.2]
    split_ifs with h₁ h₂ h₃
    all_goals simp_all

theorem local_readNumber : Local readNumber := by
  have hsign : Local readSign := by
    intro s t rest hr h
    cases h
    rw [readSign]
    simp only [head?_append_iff hr (show isNumberByte 0x2D by decide)]
    split_ifs with h
    · rw [tail_append h]
    · rfl
  have hwhole : Local readWhole := by
    intro s t rest hr h
    unfold readWhole at h ⊢
    simp only [head?_append_iff hr (show isNumberByte 0x30 by decide)]
    split_ifs at h ⊢ with h0
    · cases h
      rw [tail_append h0]
    · exact local_readDigits s t rest hr h
  have hfraction : Local readFraction := by
    intro s t rest hr h
    unfold readFraction at h ⊢
    simp only [head?_append_iff hr (show isNumberByte 0x2E by decide)]
    split_ifs at h ⊢ with h0
    · rw [tail_append h0]
      exact local_readDigits _ t rest hr h
    · cases h
      rfl
  have hexponent : Local readExponent := by
    intro s t rest hr h
    unfold readExponent at h ⊢
    simp only [head?_append_iff hr (show isNumberByte 0x65 by decide),
      head?_append_iff hr (show isNumberByte 0x45 by decide)]
    split_ifs at h ⊢ with h0
    · have htail : (s ++ rest).tail = s.tail ++ rest := h0.elim tail_append tail_append
      have hsgn : readExponentSign (s.tail ++ rest) = readExponentSign s.tail ++ rest := by
        unfold readExponentSign
        simp only [head?_append_iff hr (show isNumberByte 0x2B by decide),
          head?_append_iff hr (show isNumberByte 0x2D by decide)]
        split_ifs with h1
        · exact h1.elim tail_append tail_append
        · rfl
      rw [htail, hsgn]
      exact local_readDigits _ t rest hr h
    · cases h
      rfl
  exact ((hsign.bind hwhole).bind hfraction).bind hexponent

theorem number_head {s t : Bytes} (h : readNumber s = some t) :
    ∃ c u, s = c :: u ∧ (c = 0x2D ∨ isDigit c) := by
  cases s with
  | nil => cases h
  | cons c s =>
    refine ⟨c, s, rfl, ?_⟩
    by_contra hc
    rw [not_or] at hc
    have hzero : c ≠ 0x30 := by
      rintro rfl
      exact hc.2 (by decide)
    have hwhole : readWhole (c :: s) = none := by
      simp [readWhole, readDigits, hzero, hc.2]
    simp [readNumber, readSign, hc.1, hwhole] at h

theorem readToken_number {l : Bytes} (h : readNumber l = some []) {rest : Bytes}
    (hr : Ends rest) : readToken (l ++ rest) = some (.num l, rest) := by
  obtain ⟨c, u, rfl, hc⟩ := number_head h
  have hp : ∀ w : Bytes, w.head? = some 0x6E ∨ w.head? = some 0x74 ∨ w.head? = some 0x66 →
      ¬ w.isPrefixOf (c :: u ++ rest) := by
    intro w hw hp
    obtain ⟨v, hv⟩ := List.isPrefixOf_iff_prefix.mp hp
    cases w with
    | nil => simp at hw
    | cons b w =>
      obtain ⟨rfl, -⟩ := List.cons.inj hv
      rcases hc with rfl | hc
      · rcases hw with hw | hw | hw <;> cases hw
      · rcases hw with hw | hw | hw <;> · cases hw; revert hc; decide
  rw [readToken, if_neg (hp _ (.inl rfl)), if_neg (hp _ (.inr (.inl rfl))),
    if_neg (hp _ (.inr (.inr rfl))), local_readNumber _ _ _ hr h]
  have hlen : (c :: u ++ rest).length - rest.length = (c :: u).length := by
    rw [List.length_append, Nat.add_sub_cancel]
  simp only [Option.map_some, List.nil_append, hlen, List.take_left]

/-! ### Values -/

mutual

/-- Numbers are literals, and texts are UTF-8. -/
def Value.Valid : Value → Prop
  | .null | .bool _ => True
  | .num literal => readNumber literal = some []
  | .str s => utf8Valid s
  | .arr items => ValidItems items
  | .obj fields => ValidFields fields

def ValidItems : List Value → Prop
  | [] => True
  | v :: vs => v.Valid ∧ ValidItems vs

def ValidFields : List (Bytes × Value) → Prop
  | [] => True
  | (k, v) :: fields => utf8Valid k ∧ v.Valid ∧ ValidFields fields

end

theorem ends_cons {c : UInt8} (h : ¬ isNumberByte c) (s : Bytes) : Ends (c :: s) := by
  rintro b ⟨rfl⟩
  exact h

theorem skip_cons {c : UInt8} (h : ¬ isBlank c) (s : Bytes) : skip (c :: s) = c :: s :=
  List.dropWhile_cons_of_neg h

/-- A value starts with a byte that is neither blank nor a bracket that closes. -/
theorem marshal_head {v : Value} (h : v.Valid) : ∃ c s, marshal v = c :: s ∧ ¬ isBlank c ∧
    c ≠ 0x5D := by
  cases v with
  | null => exact ⟨_, _, rfl, by decide, by decide⟩
  | bool b => cases b <;> exact ⟨_, _, rfl, by decide, by decide⟩
  | num literal =>
    obtain ⟨c, s, rfl, hc⟩ := number_head h
    refine ⟨c, s, by rw [marshal], ?_, ?_⟩
    · rcases hc with rfl | hc
      · decide
      · revert hc
        simp only [isDigit, isBlank, decide_eq_true_eq]
        rintro hd (rfl | rfl | rfl | rfl) <;> revert hd <;> decide
    · rintro rfl
      rcases hc with hc | hc <;> revert hc <;> decide
  | str s => exact ⟨_, _, by rw [marshal, appendString], by decide, by decide⟩
  | arr items => exact ⟨_, _, by rw [marshal], by decide, by decide⟩
  | obj fields => exact ⟨_, _, by rw [marshal], by decide, by decide⟩

theorem readValue_token {fuel : Nat} {s : Bytes} (hskip : skip s = s)
    (h : ∀ t, s ≠ quote :: t ∧ s ≠ 0x5B :: t ∧ s ≠ 0x7B :: t) :
    readValue (fuel + 1) s = readToken s := by
  rw [readValue, hskip]
  split
  · exact absurd rfl (h _).1
  · exact absurd rfl (h _).2.1
  · exact absurd rfl (h _).2.2
  · rfl

theorem readValue_arr {fuel : Nat} {s rest : Bytes} {vs : List Value} {c : UInt8} {t : Bytes}
    (hs : s = c :: t) (hblank : ¬ isBlank c) (hc : c ≠ 0x5D)
    (h : readItems fuel s = some (vs, rest)) :
    readValue (fuel + 1) (0x5B :: s) = some (.arr vs, rest) := by
  subst hs
  rw [readValue, skip_cons (by decide)]
  simp only [skip_cons hblank]
  split
  · rename_i he
    exact absurd (List.cons.inj he).1 hc
  · rw [h]
    rfl

theorem readValue_obj {fuel : Nat} {s rest : Bytes} {fs : List (Bytes × Value)}
    (h : readFields fuel (quote :: s) = some (fs, rest)) :
    readValue (fuel + 1) (0x7B :: quote :: s) = some (.obj fs, rest) := by
  have hread : readValue (fuel + 1) (0x7B :: quote :: s) =
      (readFields fuel (quote :: s)).map fun r => (.obj r.1, r.2) := rfl
  rw [hread, h]
  rfl

theorem moreItems_comma {α : Type} {read : Bytes → Option (List α × Bytes)} {close : UInt8}
    {v : α} {s : Bytes} :
    moreItems read close v (comma :: s) = (read s).map fun r => (v :: r.1, r.2) := rfl

theorem readFields_cons {fuel : Nat} {k s : Bytes} (hk : utf8Valid k) :
    readFields (fuel + 1) (appendString k ++ colon :: s) =
      (readValue fuel s).bind fun r => moreItems (readFields fuel) 0x7D (k, r.1) r.2 := by
  have hstring := readString_appendString hk (colon :: s)
  rw [appendString, List.cons_append, List.append_assoc, List.singleton_append, readFields,
    skip_cons (by decide)]
  simp only [quote] at hstring ⊢
  rw [hstring]
  rfl

mutual

/-- Values are read back, in whatever they stand. -/
theorem readValue_marshal (v : Value) (h : v.Valid) {fuel : Nat}
    (hf : (marshal v).length < fuel) {rest : Bytes} (hr : Ends rest) :
    readValue fuel (marshal v ++ rest) = some (v, rest) := by
  obtain ⟨fuel, rfl⟩ := Nat.exists_eq_add_one_of_ne_zero (show fuel ≠ 0 by omega)
  cases v with
  | null => rfl
  | bool b => cases b <;> rfl
  | num literal =>
    obtain ⟨c, s, he, hblank, -⟩ := marshal_head h
    rw [marshal] at he ⊢
    have hfirst : c = 0x2D ∨ isDigit c := by
      obtain ⟨c', s', he', hc⟩ := number_head h
      rw [he] at he'
      rwa [(List.cons.inj he').1]
    rw [readValue_token, readToken_number h hr]
    · rw [he]
      exact skip_cons hblank _
    · intro t
      rw [he]
      refine ⟨?_, ?_, ?_⟩ <;>
      · rintro ht
        cases (List.cons.inj ht).1
        revert hfirst
        decide
  | str s =>
    rw [marshal, appendString, List.cons_append, List.append_assoc, List.singleton_append]
    have hread : readValue (fuel + 1) (quote :: (quoteBody s.length s ++ quote :: rest)) =
        (readString (quoteBody s.length s ++ quote :: rest)).map fun r => (.str r.1, r.2) := rfl
    rw [hread, readString_appendString h]
    rfl
  | arr items =>
    rw [marshal, List.length_cons, List.length_append, List.length_singleton] at hf
    rw [marshal, List.cons_append, List.append_assoc, List.singleton_append]
    by_cases hnil : items = []
    · subst hnil
      rfl
    · have hread := readItems_marshal items h hnil (show _ < fuel by omega) rest
      obtain ⟨v, vs, rfl⟩ := List.exists_cons_of_ne_nil hnil
      obtain ⟨c, s, he, hblank, hc⟩ := marshal_head h.1
      obtain ⟨t, ht⟩ : ∃ t, marshalItems (v :: vs) = c :: t := by
        cases vs with
        | nil => exact ⟨s, by rw [marshalItems, he]⟩
        | cons w ws => exact ⟨_, by rw [marshalItems, he]; rfl; simp⟩
      exact readValue_arr (by rw [ht]; rfl) hblank hc hread
  | obj fields =>
    rw [marshal, List.length_cons, List.length_append, List.length_singleton] at hf
    rw [marshal, List.cons_append, List.append_assoc, List.singleton_append]
    by_cases hnil : fields = []
    · subst hnil
      rfl
    · have hread := readFields_marshal fields h hnil (show _ < fuel by omega) rest
      obtain ⟨⟨k, v⟩, fs, rfl⟩ := List.exists_cons_of_ne_nil hnil
      obtain ⟨t, ht⟩ : ∃ t, marshalFields ((k, v) :: fs) = quote :: t := by
        cases fs with
        | nil => exact ⟨_, by rw [marshalFields]; rfl⟩
        | cons e es => exact ⟨_, by rw [marshalFields]; rfl; simp⟩
      rw [ht] at hread ⊢
      exact readValue_obj hread

theorem readItems_marshal (vs : List Value) (h : ValidItems vs) (hne : vs ≠ []) {fuel : Nat}
    (hf : (marshalItems vs).length + 1 < fuel) (rest : Bytes) :
    readItems fuel (marshalItems vs ++ 0x5D :: rest) = some (vs, rest) := by
  obtain ⟨fuel, rfl⟩ := Nat.exists_eq_add_one_of_ne_zero (show fuel ≠ 0 by omega)
  cases vs with
  | nil => exact absurd rfl hne
  | cons v vs =>
    obtain ⟨hv, hvs⟩ := h
    cases vs with
    | nil =>
      rw [marshalItems] at hf ⊢
      rw [readItems, readValue_marshal v hv (by omega) (ends_cons (by decide) _)]
      rfl
    | cons w ws =>
      have hcomma : marshalItems (v :: w :: ws) = marshal v ++ comma :: marshalItems (w :: ws) := by
        rw [marshalItems]
        simp
      rw [hcomma, List.length_append, List.length_cons] at hf
      have hrest := readItems_marshal (w :: ws) hvs (by simp) (show _ < fuel by omega) rest
      rw [hcomma, List.append_assoc, List.cons_append, readItems,
        readValue_marshal v hv (by omega) (ends_cons (by decide) _)]
      rw [Option.bind_some, moreItems_comma, hrest]
      rfl

theorem readFields_marshal (fs : List (Bytes × Value)) (h : ValidFields fs) (hne : fs ≠ [])
    {fuel : Nat} (hf : (marshalFields fs).length + 1 < fuel) (rest : Bytes) :
    readFields fuel (marshalFields fs ++ 0x7D :: rest) = some (fs, rest) := by
  obtain ⟨fuel, rfl⟩ := Nat.exists_eq_add_one_of_ne_zero (show fuel ≠ 0 by omega)
  cases fs with
  | nil => exact absurd rfl hne
  | cons e fs =>
    obtain ⟨k, v⟩ := e
    obtain ⟨hk, hv, hfs⟩ := h
    cases fs with
    | nil =>
      rw [marshalFields] at hf ⊢
      rw [List.length_append, List.length_cons] at hf
      rw [List.append_assoc, List.cons_append, readFields_cons hk,
        readValue_marshal v hv (by omega) (ends_cons (by decide) _)]
      rfl
    | cons e es =>
      have hcomma : marshalFields ((k, v) :: e :: es) =
          appendString k ++ colon :: (marshal v ++ comma :: marshalFields (e :: es)) := by
        rw [marshalFields]
        simp
      rw [hcomma, List.length_append, List.length_cons, List.length_append, List.length_cons] at hf
      have hrest := readFields_marshal (e :: es) hfs (by simp) (show _ < fuel by omega) rest
      rw [hcomma, List.append_assoc, List.cons_append, List.append_assoc, List.cons_append,
        readFields_cons hk, readValue_marshal v hv (by omega) (ends_cons (by decide) _)]
      rw [Option.bind_some, moreItems_comma, hrest]
      rfl

end

/-- What `Marshal` writes, `Unmarshal` reads. -/
theorem unmarshal_marshal {v : Value} (h : v.Valid) : unmarshal (marshal v) = some v := by
  have hend : Ends [] := by rintro c ⟨⟩
  have hread := readValue_marshal v h (Nat.lt_succ_self _) hend
  rw [List.append_nil] at hread
  rw [unmarshal, hread]
  rfl

end Mdock.Go.Json
