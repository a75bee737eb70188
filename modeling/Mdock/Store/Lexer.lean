import Mdock.Go.Time

/-! How SQLite reads the values and names of a statement. -/
namespace Mdock.Store.Lexer
open Mdock.Go

/-! ### Tokens -/

def isSpace (c : UInt8) : Bool := c = 0x20 || 0x09 ≤ c && c ≤ 0x0D

def isDigit (c : UInt8) : Bool := 0x30 ≤ c && c ≤ 0x39

def isXDigit (c : UInt8) : Bool :=
  isDigit c || 0x41 ≤ c && c ≤ 0x46 || 0x61 ≤ c && c ≤ 0x66

def underscore : UInt8 := 0x5F

/-- `IdChar`. -/
def isIdChar (c : UInt8) : Bool :=
  isDigit c || 0x41 ≤ c && c ≤ 0x5A || 0x61 ≤ c && c ≤ 0x7A || c = underscore || c = 0x24 ||
    0x80 ≤ c

/-- A number in its parts; the exponent is its sign and digits. -/
structure Numeral where
  whole : Bytes
  fraction : Option Bytes
  exponent : Option (Bool × Bytes)
  deriving DecidableEq

/-- `other` are the tokens that no value and no name begins with. -/
inductive Token
  | space | comma | lp | rp | semi | plus | minus | null | illegal | other
  | string (b : Bytes)
  | blob (b : Bytes)
  | integer (digits : Bytes)
  | float (n : Numeral)
  | id (name : Bytes)
  | word (name : Bytes)
  deriving DecidableEq

/-- A quoted text up to its end, dequoted. A text ends nowhere if a NUL comes first. -/
def quoted (delim : UInt8) : Bytes → Option (Bytes × Bytes)
  | [] => none
  | [c] => if c = delim then some ([], []) else none
  | c :: d :: z =>
    if c = 0 then none
    else if c = delim then
      if d = delim then (quoted delim z).map fun r => (delim :: r.1, r.2) else some ([], d :: z)
    else (quoted delim (d :: z)).map fun r => (c :: r.1, r.2)

/-- `sqlite3HexToInt`. -/
def hexToInt (h : UInt8) : UInt8 := (h + (9 : UInt8) * ((h >>> 6) &&& 1)) &&& 0xF

/-- `sqlite3HexToBlob`. -/
def hexToBlob : Bytes → Bytes
  | a :: b :: z => (hexToInt a <<< 4 ||| hexToInt b) :: hexToBlob z
  | _ => []

def blobToken (z : Bytes) : Token × Bytes :=
  let hex := z.takeWhile isXDigit
  match z.dropWhile isXDigit with
  | c :: r => if c = 0x27 ∧ hex.length % 2 = 0 then (.blob (hexToBlob hex), r) else (.illegal, r)
  | [] => (.illegal, [])

/-- Digits, among which underscores may stand. -/
def digits (z : Bytes) : Bytes × Bytes :=
  (z.takeWhile fun c => isDigit c || c = underscore,
    z.dropWhile fun c => isDigit c || c = underscore)

def fraction : Bytes → Option Bytes × Bytes
  | 0x2E :: z => (some (digits z).1, (digits z).2)
  | z => (none, z)

def exponent : Bytes → Option (Bool × Bytes) × Bytes
  | e :: c :: z =>
    if e = 0x65 ∨ e = 0x45 then
      if isDigit c then (some (false, (digits (c :: z)).1), (digits (c :: z)).2)
      else if (c = 0x2B ∨ c = 0x2D) ∧ (z.head?.any isDigit) then
        (some (c = 0x2D, (digits z).1), (digits z).2)
      else (none, e :: c :: z)
    else (none, e :: c :: z)
  | z => (none, z)

/-- A number that is not hexadecimal. -/
def numberToken (z : Bytes) : Token × Bytes :=
  let whole := digits z
  let frac := fraction whole.2
  let exp := exponent frac.2
  let n : Numeral := ⟨whole.1, frac.1, exp.1⟩
  if exp.2.head?.any isIdChar then (.illegal, exp.2.dropWhile isIdChar)
  else if underscore ∈ n.whole ++ n.fraction.getD [] ++ (n.exponent.map Prod.snd).getD [] then
    (.other, exp.2)
  else if n.fraction = none ∧ n.exponent = none then (.integer n.whole, exp.2)
  else (.float n, exp.2)

def lower (c : UInt8) : UInt8 := if 0x41 ≤ c && c ≤ 0x5A then c + 0x20 else c

def wordToken (z : Bytes) : Token × Bytes :=
  let name := z.takeWhile isIdChar
  (if name.map lower = utf8 "null" then .null else .word name, z.dropWhile isIdChar)

/-- `sqlite3GetToken`. -/
def getToken : Bytes → Token × Bytes
  | [] => (.illegal, [])
  | c :: z =>
    -- a vertical tab goes on with white space but does not begin it
    if isSpace c ∧ c ≠ 0x0B then (.space, z.dropWhile isSpace)
    else if c = 0x2D then (if z.head? = some 0x2D ∨ z.head? = some 0x3E then .other else .minus, z)
    else if c = 0x28 then (.lp, z)
    else if c = 0x29 then (.rp, z)
    else if c = 0x3B then (.semi, z)
    else if c = 0x2B then (.plus, z)
    else if c = 0x2C then (.comma, z)
    else if c = 0x27 ∨ c = 0x22 ∨ c = 0x60 then
      match quoted c z with
      | some (b, r) => (if c = 0x27 then .string b else .id b, r)
      | none => (.illegal, [])
    else if c = 0x30 ∧ (z.head? = some 0x78 ∨ z.head? = some 0x58) ∧ z.tail.head?.any isXDigit then
      (.other, z)
    else if isDigit c ∨ c = 0x2E ∧ z.head?.any isDigit then numberToken (c :: z)
    else if (c = 0x78 ∨ c = 0x58) ∧ z.head? = some 0x27 then blobToken z.tail
    else if isIdChar c ∧ c ≠ 0x24 then wordToken (c :: z)
    else (.other, z)

/-- The next token that is not white space. -/
def next (z : Bytes) : Token × Bytes :=
  match getToken z with
  | (.space, z) => getToken z
  | t => t

/-! ### Values -/

inductive Value (F : Type)
  | null
  | integer (n : Int64)
  | real (x : F)
  | text (b : Bytes)
  | blob (b : Bytes)
  deriving DecidableEq

/-- The numbers of SQLite's type `real`, as far as a text can be turned into one. -/
structure Reals (F : Type) where
  zero : F
  negate : F → F
  /-- `sqlite3Fp10Convert2`: the number closest to `s * 10 ^ d`. -/
  convert : Nat → Int → F

variable {F : Type} (R : Reals F)

/-- Nineteen digits fit into the mantissa. -/
def limit : Nat := (2 ^ 64 - 1 - 9) / 10

/-- The digits before the point. -/
def scanWhole (s : Nat) (d : Int) : Bytes → Nat × Int
  | [] => (s, d)
  | c :: z =>
    let s := s * 10 + (c.toNat - 0x30)
    if limit ≤ s then (s, d + z.length) else scanWhole s d z

/-- The digits behind the point. -/
def scanFraction (s : Nat) (d : Int) : Bytes → Nat × Int
  | [] => (s, d)
  | c :: z =>
    if s < limit then scanFraction (s * 10 + (c.toNat - 0x30)) (d - 1) z else scanFraction s d z

def scanExponent (exp : Nat) : Bytes → Nat
  | [] => exp
  | c :: z => scanExponent (if exp < 10000 then exp * 10 + (c.toNat - 0x30) else 10000) z

/-- The end of `sqlite3AtoF`. -/
def Reals.ofScan (s : Nat) (d : Int) : F := if s = 0 then R.zero else R.convert s d

/-- `sqlite3AtoF` of a number. -/
def Reals.atoF (n : Numeral) : F :=
  let whole := scanWhole 0 0 n.whole
  let (s, d) := scanFraction whole.1 whole.2 (n.fraction.getD [])
  R.ofScan s (match n.exponent with
    | none => d
    | some (neg, ds) => d + if neg then -(scanExponent 0 ds : Int) else scanExponent 0 ds)

/-- `codeReal`. -/
def codeReal (neg : Bool) (n : Numeral) : Value F :=
  .real (if neg then R.negate (R.atoF n) else R.atoF n)

/-- `codeInteger`: what is too large becomes a real. -/
def codeInteger (neg : Bool) (ds : Bytes) : Value F :=
  let n := value ds
  if 2 ^ 63 < n ∨ n = 2 ^ 63 ∧ neg = false then codeReal R neg ⟨ds, none, none⟩
  else .integer (Int64.ofInt (if neg then -(n : Int) else n))

def literal : Token → Option (Value F)
  | .null => some .null
  | .string b => some (.text b)
  | .blob b => some (.blob b)
  | .integer ds => some (codeInteger R false ds)
  | .float n => some (codeReal R false n)
  | _ => none

def negated : Token → Option (Value F)
  | .integer ds => some (codeInteger R true ds)
  | .float n => some (codeReal R true n)
  | _ => none

/-- A literal, with a sign or without. -/
def operand (z : Bytes) : Option (Value F) × Bytes :=
  match next z with
  | (.plus, z) => (literal R (next z).1, (next z).2)
  | (.minus, z) => (negated R (next z).1, (next z).2)
  | (t, z) => (literal R t, z)

/-- A value in a list of values, and what comes behind it. -/
def readValue (z : Bytes) : Option (Value F × Bytes) :=
  let (v, z) := operand R z
  if (next z).1 = .comma ∨ (next z).1 = .rp then v.map (·, z) else none

/-- A name in quotes, and what comes behind it. -/
def readName (z : Bytes) : Option (Bytes × Bytes) :=
  match next z with
  | (.id name, z) => some (name, z)
  | _ => none

/-! ### Texts in quotes -/

variable {c delim : UInt8} {b z tail : Bytes}

theorem quoted_cons (hc : c ≠ 0) (hdelim : c ≠ delim) (hz : z ≠ []) :
    quoted delim (c :: z) = (quoted delim z).map fun r => (c :: r.1, r.2) := by
  cases z with
  | nil => exact absurd rfl hz
  | cons d z => rw [quoted, if_neg hc, if_neg hdelim]

/-- A text is read back from behind its quotes, unless there is a NUL in it. -/
theorem quoted_body (hdelim : delim ≠ 0) (htail : tail.head? ≠ some delim) (b : Bytes) :
    quoted delim (b.flatMap (fun x => if x = delim then [delim, delim] else [x]) ++
      delim :: tail) = if 0 ∈ b then none else some (b, tail) := by
  induction b with
  | nil =>
    cases tail with
    | nil => simp [quoted]
    | cons d tail =>
      have hd : d ≠ delim := fun h => htail (by rw [h, List.head?_cons])
      simp [quoted, hdelim, hd]
  | cons x b ih =>
    rw [List.flatMap_cons, List.append_assoc]
    by_cases hx : x = delim
    · rw [if_pos hx, List.cons_append, List.cons_append, List.nil_append, quoted, if_neg hdelim,
        if_pos rfl, if_pos rfl, ih, hx]
      by_cases hb : 0 ∈ b
      · simp [hb]
      · simp [hb, hdelim.symm]
    · rw [if_neg hx, List.cons_append, List.nil_append]
      by_cases hzero : x = 0
      · obtain ⟨d, z, hz⟩ : ∃ d z, b.flatMap (fun x => if x = delim then [delim, delim] else [x]) ++
            delim :: tail = d :: z := List.exists_cons_of_ne_nil (by simp)
        rw [hz, quoted, if_pos hzero, if_pos (by simp [hzero])]
      · rw [quoted_cons hzero hx (by simp), ih]
        by_cases hb : 0 ∈ b
        · simp [hb]
        · simp [hb, Ne.symm hzero]

/-! ### Digits -/

theorem ne_underscore_of_isDigit (h : isDigit c) : c ≠ underscore := fun h' => by
  rw [h'] at h
  exact absurd h (by decide)

/-- What follows a value in a list of values. -/
def Ends (tail : Bytes) : Prop := tail.head? = some 0x2C ∨ tail.head? = some 0x29

theorem Ends.next (h : Ends tail) : (next tail).1 = .comma ∨ (next tail).1 = .rp := by
  cases tail with
  | nil => simp [Ends] at h
  | cons c tail =>
    rw [Ends, List.head?_cons, Option.some.injEq, Option.some.injEq] at h
    rcases h with rfl | rfl
    · exact .inl rfl
    · exact .inr rfl

theorem takeWhile_dropWhile_append {p : UInt8 → Bool} (hb : ∀ c ∈ b, p c)
    (hz : ∀ c, z.head? = some c → p c = false) :
    (b ++ z).takeWhile p = b ∧ (b ++ z).dropWhile p = z := by
  rw [List.takeWhile_append_of_pos hb, List.dropWhile_append_of_pos hb]
  cases z with
  | nil => simp
  | cons c z => simp [hz c rfl]

theorem digits_append (hb : ∀ c ∈ b, isDigit c)
    (hz : ∀ c, z.head? = some c → isDigit c = false ∧ c ≠ underscore) :
    digits (b ++ z) = (b, z) := by
  obtain ⟨htake, hdrop⟩ := takeWhile_dropWhile_append (p := fun c => isDigit c || c = underscore)
    (b := b) (z := z) (fun c hc => by simp [hb c hc]) fun c hc => by simp [hz c hc]
  rw [digits, htake, hdrop]

/-! ### Numbers -/

def Numeral.exponentText (n : Numeral) : Bytes :=
  (n.exponent.map fun e => 0x65 :: (if e.1 then 0x2D else 0x2B) :: e.2).getD []

def Numeral.text (n : Numeral) : Bytes :=
  n.whole ++ ((n.fraction.map (0x2E :: ·)).getD [] ++ n.exponentText)

/-- A decimal number, with digits where there must be some. -/
structure Numeral.Plain (n : Numeral) : Prop where
  whole_ne : n.whole ≠ []
  whole : ∀ c ∈ n.whole, isDigit c
  fraction : ∀ f ∈ n.fraction, ∀ c ∈ f, isDigit c
  exponent_ne : ∀ e ∈ n.exponent, e.2 ≠ []
  exponent : ∀ e ∈ n.exponent, ∀ c ∈ e.2, isDigit c

theorem Ends.head (h : Ends tail) (hc : tail.head? = some c) : c = 0x2C ∨ c = 0x29 := by
  rw [Ends, hc, Option.some.injEq, Option.some.injEq] at h
  exact h

theorem Ends.not_digit (h : Ends tail) (c : UInt8) (hc : tail.head? = some c) :
    isDigit c = false ∧ c ≠ underscore := by
  rcases h.head hc with rfl | rfl <;> decide

theorem exponent_append {n : Numeral} (hn : n.Plain) (h : Ends tail) :
    exponent (n.exponentText ++ tail) = (n.exponent, tail) := by
  rw [Numeral.exponentText]
  cases he : n.exponent with
  | none =>
    rw [Option.map_none, Option.getD_none, List.nil_append, exponent.eq_def]
    split
    · rename_i e c z
      rw [if_neg]
      rcases h.head (c := e) rfl with rfl | rfl <;> decide
    · rfl
  | some e =>
    obtain ⟨neg, ds⟩ := e
    obtain ⟨d, ds', hds⟩ := List.exists_cons_of_ne_nil (hn.exponent_ne _ he)
    have hdigit := hn.exponent _ he
    have hread := digits_append (b := ds) hdigit h.not_digit
    change ds = d :: ds' at hds
    have hd : isDigit d := hdigit d (by simp [hds])
    have hhead : (ds ++ tail).head?.any isDigit := by simp [hds, hd]
    rw [Option.map_some, Option.getD_some, List.cons_append, List.cons_append]
    cases neg with
    | true =>
      rw [if_pos rfl, exponent, if_pos (by decide), if_neg (by decide),
        if_pos ⟨by decide, hhead⟩, hread]
      rfl
    | false =>
      rw [if_neg Bool.false_ne_true, exponent, if_pos (by decide), if_neg (by decide),
        if_pos ⟨by decide, hhead⟩, hread]
      rfl

/-- What follows the digits of a number. -/
theorem Numeral.exponentText_head {n : Numeral} (h : Ends tail)
    (hc : (n.exponentText ++ tail).head? = some c) : c = 0x65 ∨ c = 0x2C ∨ c = 0x29 := by
  rw [Numeral.exponentText] at hc
  cases he : n.exponent with
  | none =>
    rw [he, Option.map_none, Option.getD_none, List.nil_append] at hc
    exact .inr (h.head hc)
  | some e =>
    rw [he] at hc
    exact .inl (Option.some.inj hc).symm

theorem Numeral.fraction_append {n : Numeral} (hn : n.Plain) (h : Ends tail) :
    Lexer.fraction ((n.fraction.map (0x2E :: ·)).getD [] ++ (n.exponentText ++ tail)) =
      (n.fraction, n.exponentText ++ tail) := by
  cases hf : n.fraction with
  | none =>
    rw [Option.map_none, Option.getD_none, List.nil_append, Lexer.fraction.eq_def]
    split
    · rename_i z hz
      have := exponentText_head (c := 0x2E) h (by rw [hz, List.head?_cons])
      exact absurd this (by decide)
    · rfl
  | some f =>
    have hread := digits_append (b := f) (z := n.exponentText ++ tail) (hn.fraction f hf)
      fun c hc => by rcases exponentText_head h hc with rfl | rfl | rfl <;> decide
    rw [Option.map_some, Option.getD_some, List.cons_append, Lexer.fraction, hread]

/-- A number is read as it was written. -/
theorem numberToken_append {n : Numeral} (hn : n.Plain) (h : Ends tail) :
    numberToken (n.text ++ tail) =
      (if n.fraction = none ∧ n.exponent = none then .integer n.whole else .float n, tail) := by
  have hwhole : digits (n.text ++ tail) =
      (n.whole, (n.fraction.map (0x2E :: ·)).getD [] ++ (n.exponentText ++ tail)) := by
    rw [Numeral.text, List.append_assoc, List.append_assoc]
    refine digits_append hn.whole fun c hc => ?_
    cases hf : n.fraction with
    | none =>
      rw [hf, Option.map_none, Option.getD_none, List.nil_append] at hc
      rcases Numeral.exponentText_head h hc with rfl | rfl | rfl <;> decide
    | some f =>
      rw [hf] at hc
      rw [← Option.some.inj hc]
      decide
  have hdigits : ∀ ds : Bytes, (∀ c ∈ ds, isDigit c) → underscore ∉ ds := fun ds hds hmem =>
    ne_underscore_of_isDigit (hds _ hmem) rfl
  rw [numberToken, hwhole]
  simp only
  rw [Numeral.fraction_append hn h, exponent_append hn h, if_neg, if_neg]
  · split_ifs <;> rfl
  · simp only [List.mem_append, not_or]
    refine ⟨⟨hdigits _ hn.whole, ?_⟩, ?_⟩
    · cases hf : n.fraction with
      | none => exact List.not_mem_nil
      | some f => exact hdigits f (hn.fraction f hf)
    · cases he : n.exponent with
      | none => exact List.not_mem_nil
      | some e => exact hdigits e.2 (hn.exponent e he)
  · rcases h with h | h
    all_goals
      rw [h]
      decide

theorem isDigit_ne (h : isDigit c) {d : UInt8} (hd : isDigit d = false) : c ≠ d := fun h' => by
  rw [h', hd] at h
  exact Bool.false_ne_true h

theorem isSpace_of_isDigit (h : isDigit c) : isSpace c = false := by
  have hc := h
  simp only [isDigit, Bool.and_eq_true, decide_eq_true_eq, UInt8.le_iff_toNat_le] at hc
  simp only [isSpace, Bool.or_eq_false_iff, Bool.and_eq_false_iff, decide_eq_false_iff_not,
    UInt8.le_iff_toNat_le]
  have h₁ : (0x30 : UInt8).toNat = 48 := rfl
  have h₂ : (0x0D : UInt8).toNat = 13 := rfl
  exact ⟨isDigit_ne h (by decide), .inr (by omega)⟩

/-- A number is not taken for a hexadecimal one. -/
theorem getToken_number {n : Numeral} (hn : n.Plain) (h : Ends tail) :
    getToken (n.text ++ tail) = numberToken (n.text ++ tail) := by
  obtain ⟨c, w, hw⟩ := List.exists_cons_of_ne_nil hn.whole_ne
  have hc : isDigit c := hn.whole c (by simp [hw])
  have hsecond : ∀ d, d = 0x78 ∨ d = 0x58 →
      (w ++ ((n.fraction.map (0x2E :: ·)).getD [] ++ (n.exponentText ++ tail))).head? ≠ some d := by
    intro d hd hhead
    cases w with
    | cons e w =>
      have he : isDigit d := by
        rw [← Option.some.inj hhead]
        exact hn.whole e (by simp [hw])
      rcases hd with rfl | rfl <;> exact absurd he (by decide)
    | nil =>
      cases hf : n.fraction with
      | none =>
        rw [hf, Option.map_none, Option.getD_none, List.nil_append, List.nil_append] at hhead
        rcases hd with rfl | rfl <;>
          exact absurd (Numeral.exponentText_head h hhead) (by decide)
      | some f =>
        rw [hf] at hhead
        rcases hd with rfl | rfl <;> exact absurd (Option.some.inj hhead) (by decide)
  have htext : n.text ++ tail =
      c :: (w ++ ((n.fraction.map (0x2E :: ·)).getD [] ++ (n.exponentText ++ tail))) := by
    rw [Numeral.text, hw]
    simp
  have hspace := isSpace_of_isDigit hc
  rw [htext, getToken, if_neg (by simp [hspace]), if_neg (isDigit_ne hc (by decide)),
    if_neg (isDigit_ne hc (by decide)), if_neg (isDigit_ne hc (by decide)),
    if_neg (isDigit_ne hc (by decide)), if_neg (isDigit_ne hc (by decide)),
    if_neg (isDigit_ne hc (by decide)), if_neg, if_neg, if_pos (.inl hc)]
  · rintro ⟨-, h | h, -⟩
    · exact hsecond _ (.inl rfl) h
    · exact hsecond _ (.inr rfl) h
  · simp only [not_or]
    exact ⟨isDigit_ne hc (by decide), isDigit_ne hc (by decide), isDigit_ne hc (by decide)⟩

theorem next_of_ne (h : (getToken z).1 ≠ .space) : next z = getToken z := by
  rw [next]
  split
  · rename_i heq
    rw [heq] at h
    exact absurd rfl h
  · rfl

theorem getToken_ne_space (hc : isSpace c = false) (z : Bytes) :
    (getToken (c :: z)).1 ≠ .space := by
  have hblob : ∀ z, (blobToken z).1 ≠ .space := fun z => by
    rw [blobToken]
    split
    · split_ifs <;> simp
    · simp
  have hnumber : ∀ z, (numberToken z).1 ≠ .space := fun z => by
    rw [numberToken]
    simp only
    split_ifs <;> simp
  have hword : ∀ z, (wordToken z).1 ≠ .space := fun z => by
    rw [wordToken]
    simp only
    split_ifs <;> simp
  have hite : ∀ {p : Prop} [Decidable p] {a b : Token × Bytes}, (p → a.1 ≠ .space) →
      b.1 ≠ .space → (if p then a else b).1 ≠ .space := fun ha hb => by
    split_ifs with h
    · exact ha h
    · exact hb
  rw [getToken, if_neg (by simp [hc])]
  refine hite (fun _ => by simp only; split_ifs <;> simp) ?_
  refine hite (fun _ => by simp) <| hite (fun _ => by simp) <| hite (fun _ => by simp) <|
    hite (fun _ => by simp) <| hite (fun _ => by simp) <| hite (fun _ => ?_) <|
    hite (fun _ => by simp) <| hite (fun _ => hnumber _) <| hite (fun _ => hblob _) <|
    hite (fun _ => hword _) (by simp)
  split
  · simp only
    split_ifs <;> simp
  · simp

/-- The token of a number. -/
def Numeral.token (n : Numeral) : Token :=
  if n.fraction = none ∧ n.exponent = none then .integer n.whole else .float n

theorem next_number {n : Numeral} (hn : n.Plain) (h : Ends tail) :
    next (n.text ++ tail) = (n.token, tail) := by
  have hread : getToken (n.text ++ tail) = (n.token, tail) := by
    rw [getToken_number hn h, numberToken_append hn h, Numeral.token]
  rw [next_of_ne, hread]
  rw [hread, Numeral.token]
  split_ifs <;> simp

/-! ### The tokens of values -/

/-- Between quotes. -/
def enclose (delim : UInt8) (b : Bytes) : Bytes :=
  delim :: (b.flatMap (fun x => if x = delim then [delim, delim] else [x]) ++ [delim])

theorem next_quoted (hdelim : delim = 0x27 ∨ delim = 0x22) (htail : tail.head? ≠ some delim)
    (b : Bytes) : next (enclose delim b ++ tail) =
      if 0 ∈ b then (.illegal, []) else (if delim = 0x27 then .string b else .id b, tail) := by
  have hread := quoted_body (by rcases hdelim with rfl | rfl <;> decide) htail b
  have htoken : getToken (enclose delim b ++ tail) =
      if 0 ∈ b then (.illegal, []) else (if delim = 0x27 then .string b else .id b, tail) := by
    rw [enclose, List.cons_append, List.append_assoc, List.singleton_append, getToken, hread]
    by_cases hb : 0 ∈ b
    · rcases hdelim with rfl | rfl <;> simp [isSpace, hb]
    · rcases hdelim with rfl | rfl <;> simp [isSpace, hb]
  rw [next_of_ne, htoken]
  rw [htoken]
  split_ifs <;> simp

theorem next_blob {hex : Bytes} (hhex : ∀ c ∈ hex, isXDigit c) (heven : hex.length % 2 = 0)
    (tail : Bytes) :
    next (0x58 :: 0x27 :: (hex ++ 0x27 :: tail)) = (.blob (hexToBlob hex), tail) := by
  obtain ⟨htake, hdrop⟩ := takeWhile_dropWhile_append (p := isXDigit) (z := 0x27 :: tail) hhex
    fun c hc => by rw [← Option.some.inj hc]; decide
  have htoken : getToken (0x58 :: 0x27 :: (hex ++ 0x27 :: tail)) =
      (.blob (hexToBlob hex), tail) := by
    have hblob : blobToken (hex ++ 0x27 :: tail) = (.blob (hexToBlob hex), tail) := by
      rw [blobToken, htake, hdrop]
      simp [heven]
    simpa [getToken, isSpace, isDigit] using hblob
  rw [next_of_ne (by simp [htoken]), htoken]

/-- A word ends where the list of values goes on. -/
theorem wordToken_append {w : Bytes} (hw : ∀ c ∈ w, isIdChar c) (h : Ends tail) :
    wordToken (w ++ tail) = (if w.map lower = utf8 "null" then .null else .word w, tail) := by
  obtain ⟨htake, hdrop⟩ := takeWhile_dropWhile_append (p := isIdChar) hw fun c hc => by
    rcases h.head hc with rfl | rfl <;> decide
  rw [wordToken, htake, hdrop]

theorem next_null (h : Ends tail) : next (utf8 "NULL" ++ tail) = (.null, tail) := by
  have htoken : getToken (utf8 "NULL" ++ tail) = (.null, tail) := by
    refine Eq.trans ?_ (wordToken_append (w := utf8 "NULL") (List.all_eq_true.1 (by decide)) h)
    change getToken (0x4E :: _) = wordToken (0x4E :: _)
    simp [getToken, isSpace, isDigit, isIdChar]
  rw [next_of_ne (by simp [htoken]), htoken]

theorem next_inf (h : Ends tail) : next (utf8 "Inf" ++ tail) = (.word (utf8 "Inf"), tail) := by
  have htoken : getToken (utf8 "Inf" ++ tail) = (.word (utf8 "Inf"), tail) := by
    refine Eq.trans ?_ (wordToken_append (w := utf8 "Inf") (List.all_eq_true.1 (by decide)) h)
    change getToken (0x49 :: _) = wordToken (0x49 :: _)
    simp [getToken, isSpace, isDigit, isIdChar]
  rw [next_of_ne (by simp [htoken]), htoken]

/-! ### Values read -/

theorem readValue_of_operand {v : Option (Value F)} (hz : operand R z = (v, tail)) (h : Ends tail) :
    readValue R z = v.map (·, tail) := by
  rw [readValue, hz]
  exact if_pos h.next

/-- What a number with a sign denotes. -/
def numberValue (neg : Bool) (n : Numeral) : Value F :=
  if n.fraction = none ∧ n.exponent = none then codeInteger R neg n.whole else codeReal R neg n

theorem operand_minus {t : Token} (hz : next z = (t, tail))
    (hne : z.head? ≠ some 0x2D) (hgt : z.head? ≠ some 0x3E) :
    operand R (0x2D :: z) = (negated R t, tail) := by
  have hminus : next (0x2D :: z) = (.minus, z) := by
    have htoken : getToken (0x2D :: z) = (.minus, z) := by
      rw [getToken, if_neg (by decide), if_pos rfl, if_neg (by simp [hne, hgt])]
    rw [next_of_ne (by simp [htoken]), htoken]
  rw [operand, hminus]
  simp only
  rw [hz]

theorem operand_plus {t : Token} (hz : next z = (t, tail)) :
    operand R (0x2B :: z) = (literal R t, tail) := by
  have hplus : next (0x2B :: z) = (.plus, z) := rfl
  rw [operand, hplus]
  simp only
  rw [hz]

theorem operand_of_next {t : Token} (hz : next z = (t, tail)) (hplus : t ≠ .plus)
    (hminus : t ≠ .minus) : operand R z = (literal R t, tail) := by
  rw [operand, hz]
  split
  · rename_i heq
    exact absurd (Prod.mk.inj heq).1 hplus
  · rename_i heq
    exact absurd (Prod.mk.inj heq).1 hminus
  · rename_i heq
    obtain ⟨rfl, rfl⟩ := Prod.mk.inj heq
    rfl

theorem operand_number {n : Numeral} (hn : n.Plain) (h : Ends tail) (neg : Bool) :
    operand R ((if neg then [0x2D] else []) ++ (n.text ++ tail)) =
      (some (numberValue R neg n), tail) := by
  have hz := next_number hn h
  obtain ⟨c, w, hw⟩ := List.exists_cons_of_ne_nil hn.whole_ne
  have hc : isDigit c := hn.whole c (by simp [hw])
  have hhead : ∀ d, isDigit d = false → (n.text ++ tail).head? ≠ some d := fun d hd hhead => by
    rw [Numeral.text, hw] at hhead
    exact isDigit_ne hc hd (Option.some.inj hhead)
  cases neg with
  | true =>
    rw [if_pos rfl, List.singleton_append,
      operand_minus R hz (hhead _ (by decide)) (hhead _ (by decide)), numberValue, Numeral.token]
    split_ifs <;> rfl
  | false =>
    rw [if_neg Bool.false_ne_true, List.nil_append, numberValue]
    rw [operand_of_next R hz, Numeral.token]
    · split_ifs <;> rfl
    all_goals
      rw [Numeral.token]
      split_ifs <;> simp

/-! ### Numbers read -/

section Scan
variable {s : Nat} {d : Int}

theorem le_foldl (b : Bytes) (s : Nat) :
    s ≤ b.foldl (fun v c => 10 * v + (c.toNat - 48)) s := by
  induction b generalizing s with
  | nil => exact le_rfl
  | cons c b ih =>
    have hstep : s ≤ 10 * s + (c.toNat - 48) := by omega
    exact hstep.trans (ih _)

theorem scanWhole_eq (h : b.foldl (fun v c => 10 * v + (c.toNat - 48)) s < limit) :
    scanWhole s d b = (b.foldl (fun v c => 10 * v + (c.toNat - 48)) s, d) := by
  induction b generalizing s with
  | nil => rfl
  | cons c b ih =>
    rw [List.foldl_cons] at h ⊢
    have hlt := lt_of_le_of_lt (le_foldl b _) h
    have hs : s * 10 + (c.toNat - 0x30) = 10 * s + (c.toNat - 48) := by omega
    rw [scanWhole, hs, if_neg (by omega), ih h]

theorem scanFraction_eq (h : b.foldl (fun v c => 10 * v + (c.toNat - 48)) s < limit) :
    scanFraction s d b = (b.foldl (fun v c => 10 * v + (c.toNat - 48)) s, d - b.length) := by
  induction b generalizing s d with
  | nil => simp [scanFraction]
  | cons c b ih =>
    rw [List.foldl_cons] at h ⊢
    have hlt := lt_of_le_of_lt (le_foldl b _) h
    have hs : s * 10 + (c.toNat - 0x30) = 10 * s + (c.toNat - 48) := by omega
    rw [scanFraction, if_pos (by omega), hs, ih h, List.length_cons]
    congr 1
    omega

theorem scanExponent_eq (h : b.foldl (fun v c => 10 * v + (c.toNat - 48)) s < 10000) :
    scanExponent s b = b.foldl (fun v c => 10 * v + (c.toNat - 48)) s := by
  induction b generalizing s with
  | nil => rfl
  | cons c b ih =>
    rw [List.foldl_cons] at h ⊢
    have hlt := lt_of_le_of_lt (le_foldl b _) h
    have hs : s * 10 + (c.toNat - 0x30) = 10 * s + (c.toNat - 48) := by omega
    rw [scanExponent, if_pos (by omega), hs, ih h]

end Scan

def Numeral.power (n : Numeral) : Int :=
  match n.exponent with
  | none => 0
  | some (neg, ds) => if neg then -(value ds : Int) else value ds

/-- A number of not too many digits is read exactly. -/
theorem Reals.atoF_eq {n : Numeral} (h : value (n.whole ++ n.fraction.getD []) < limit)
    (hexp : ∀ e ∈ n.exponent, value e.2 < 10000) :
    R.atoF n = R.ofScan (value (n.whole ++ n.fraction.getD []))
      (n.power - (n.fraction.getD []).length) := by
  have hfold : value (n.whole ++ n.fraction.getD []) =
      (n.fraction.getD []).foldl (fun v c => 10 * v + (c.toNat - 48)) (value n.whole) := by
    rw [value, List.foldl_append, ← value]
  have hwhole : scanWhole 0 0 n.whole = (value n.whole, 0) :=
    scanWhole_eq (lt_of_le_of_lt (by rw [hfold]; exact le_foldl _ _) h)
  rw [hfold] at h ⊢
  rw [Reals.atoF]
  simp only [hwhole, scanFraction_eq h, Numeral.power]
  cases he : n.exponent with
  | none => simp
  | some e =>
    obtain ⟨neg, ds⟩ := e
    have hds : scanExponent 0 ds = value ds := scanExponent_eq (hexp _ he)
    simp only [hds]
    congr 1
    omega

end Mdock.Store.Lexer
