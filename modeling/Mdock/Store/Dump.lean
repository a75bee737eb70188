import Mdock.Store.Backup
import Mdock.Store.Lexer

/-! `sqlLiteral` and `quoteIdent`: the values and names of a dump, and what SQLite reads. -/
namespace Mdock.Store.Dump
open Mdock.Go Mdock.Store.Lexer
open Mdock.Store.Backup (quote quoteIdent hexDigit)

/-! ### The literals -/

/-- A `float64` as the shortest decimal that is read as it: its digits, and where the point is. -/
inductive Shortest
  | inf (neg : Bool)
  | finite (neg : Bool) (d : Bytes) (dp : Int)

/-- The numbers both `strconv` and SQLite work with. A decimal of at most 17 digits tells them
apart, and the number closest to it is the one it was made from. -/
structure Doubles (F : Type) extends Reals F where
  shortest : F → Shortest
  isDigit_of : ∀ {x neg d dp}, shortest x = .finite neg d dp → ∀ c ∈ d, isDigit c
  length_le : ∀ {x neg d dp}, shortest x = .finite neg d dp → d.length ≤ 17
  dp_bounds : ∀ {x neg d dp}, shortest x = .finite neg d dp → -323 ≤ dp ∧ dp ≤ 309
  ofScan_shortest : ∀ {x neg d dp}, shortest x = .finite neg d dp →
    (if neg then negate (toReals.ofScan (value d) (dp - d.length))
      else toReals.ofScan (value d) (dp - d.length)) = x

def minus (neg : Bool) : Bytes := if neg then [0x2D] else []

/-- `%e`, with as many digits as there are. -/
def fmtE (neg : Bool) (d : Bytes) (dp : Int) : Bytes :=
  let exp := if d = [] then 0 else dp - 1
  minus neg ++ [d.headD 0x30] ++ (if d.tail = [] then [] else 0x2E :: d.tail) ++
    [0x65, if exp < 0 then 0x2D else 0x2B] ++
    if exp.natAbs < 100 then pad 2 exp.natAbs else pad 3 exp.natAbs

/-- `%f`, with as many digits as there are. -/
def fmtF (neg : Bool) (d : Bytes) (dp : Int) : Bytes :=
  let fraction := List.replicate (-dp).toNat 0x30 ++ d.drop dp.toNat
  minus neg ++
    (if 0 < dp then d.take dp.toNat ++ List.replicate (dp.toNat - d.length) 0x30 else [0x30]) ++
    if fraction = [] then [] else 0x2E :: fraction

/-- `strconv.FormatFloat(v, 'g', -1, 64)`. -/
def formatFloat : Shortest → Bytes
  | .inf neg => utf8 (if neg then "-Inf" else "+Inf")
  | .finite neg d dp => if dp - 1 < -4 ∨ 6 ≤ dp - 1 then fmtE neg d dp else fmtF neg d dp

/-- What a row is scanned into. -/
inductive Scanned (F : Type)
  | nil
  | int64 (v : Int64)
  | float64 (v : F)
  | bool (v : Bool)
  | bytes (v : Bytes)
  | string (v : Bytes)

variable {F : Type} (D : Doubles F)

def sqlLiteral : Scanned F → Bytes
  | .nil => utf8 "NULL"
  | .int64 v => sprintInt v.toInt
  | .float64 v => formatFloat (D.shortest v)
  | .bool v => utf8 (if v then "1" else "0")
  | .bytes v =>
    utf8 "X'" ++ v.flatMap (fun x => [hexDigit (x.toNat / 16), hexDigit (x.toNat % 16)]) ++ utf8 "'"
  | .string v => quote (utf8 "'") v

/-- `rows.Next` of the driver, for a column of no date type. -/
def scan : Value F → Scanned F
  | .null => .nil
  | .integer n => .int64 n
  | .real x => .float64 x
  | .text b => .string b
  | .blob b => .bytes b

/-- The values that the dump as a whole is about. -/
def Value.plain : Value F → Option Store.Sql.Value
  | .null => some .null
  | .integer n => some (.integer n.toInt)
  | .real _ => none
  | .text b => some (.text b)
  | .blob b => some (.blob b)

/-- Its literals are these. -/
theorem sqlLiteral_plain {v : Value F} {w : Store.Sql.Value} (h : Value.plain v = some w) :
    sqlLiteral D (scan v) = Backup.sqlLiteral w := by
  cases v with
  | real x => simp [Value.plain] at h
  | null | integer | text | blob =>
    rw [← Option.some.inj h]
    rfl

/-! ### Numbers -/

section Numbers
variable {b d : Bytes} {dp : Int} {tail : Bytes}

theorem value_lt (h : ∀ c ∈ b, isDigit c) : value b < 10 ^ b.length := by
  have hfold : ∀ s, b.foldl (fun v c => 10 * v + (c.toNat - 48)) s < (s + 1) * 10 ^ b.length := by
    induction b with
    | nil => intro s; simp
    | cons c b ih =>
      intro s
      have hc : c.toNat - 48 ≤ 9 := by
        have := h c (by simp)
        simp only [isDigit, Bool.and_eq_true, decide_eq_true_eq, UInt8.le_iff_toNat_le] at this
        have : (0x39 : UInt8).toNat = 57 := rfl
        omega
      rw [List.foldl_cons, List.length_cons, pow_succ]
      refine lt_of_lt_of_le (ih (fun c hc => h c (List.mem_cons_of_mem _ hc)) _) ?_
      calc (10 * s + (c.toNat - 48) + 1) * 10 ^ b.length
          ≤ ((s + 1) * 10) * 10 ^ b.length := Nat.mul_le_mul_right _ (by omega)
        _ = (s + 1) * (10 ^ b.length * 10) := by rw [Nat.mul_assoc, Nat.mul_comm 10]
  rw [value]
  exact lt_of_lt_of_eq (hfold 0) (by rw [Nat.zero_add, Nat.one_mul])

theorem value_replicate_append (k : Nat) (b : Bytes) :
    value (List.replicate k 0x30 ++ b) = value b := by
  induction k with
  | zero => rfl
  | succ k ih =>
    rw [List.replicate_succ, List.cons_append, value, List.foldl_cons]
    exact ih

/-- The number `fmtE` writes. -/
def numeralE (d : Bytes) (dp : Int) : Numeral :=
  let exp := if d = [] then 0 else dp - 1
  ⟨[d.headD 0x30], if d.tail = [] then none else some d.tail,
    some (exp < 0, if exp.natAbs < 100 then pad 2 exp.natAbs else pad 3 exp.natAbs)⟩

/-- The number `fmtF` writes. -/
def numeralF (d : Bytes) (dp : Int) : Numeral :=
  let fraction := List.replicate (-dp).toNat 0x30 ++ d.drop dp.toNat
  ⟨if 0 < dp then d.take dp.toNat ++ List.replicate (dp.toNat - d.length) 0x30 else [0x30],
    if fraction = [] then none else some fraction, none⟩

theorem fmtE_eq (neg : Bool) (d : Bytes) (dp : Int) :
    fmtE neg d dp = minus neg ++ (numeralE d dp).text := by
  simp only [fmtE, Numeral.text, Numeral.exponentText, numeralE]
  by_cases h : d.tail = [] <;> simp [h]

theorem fmtF_eq (neg : Bool) (d : Bytes) (dp : Int) :
    fmtF neg d dp = minus neg ++ (numeralF d dp).text := by
  simp only [fmtF, Numeral.text, Numeral.exponentText, numeralF]
  by_cases h : List.replicate (-dp).toNat 0x30 ++ d.drop dp.toNat = [] <;> simp [h]

theorem isDigit_of_mem_pad {w n : Nat} {c : UInt8} (h : c ∈ pad w n) : isDigit c := by
  have := pad_digits w n c h
  simp [isDigit, this.1, this.2]

theorem numeralE_plain (h : ∀ c ∈ d, isDigit c) (dp : Int) : (numeralE d dp).Plain := by
  refine ⟨by simp [numeralE], fun c hc => ?_, fun f hf c hc => ?_, fun e he => ?_,
    fun e he c hc => ?_⟩
  · simp only [numeralE, List.mem_singleton] at hc
    cases d with
    | nil => rw [hc]; decide
    | cons c' d => exact h c (by simp [hc])
  · simp only [numeralE] at hf
    split_ifs at hf with htail
    · simp at hf
    · exact h c (List.mem_of_mem_tail (Option.some.inj hf ▸ hc))
  · simp only [numeralE, Option.mem_def, Option.some.injEq] at he
    rw [← he]
    simp only
    split_ifs <;> simp [pad]
  · simp only [numeralE, Option.mem_def, Option.some.injEq] at he
    rw [← he] at hc
    simp only at hc
    split_ifs at hc <;> exact isDigit_of_mem_pad hc

theorem isDigit_of_mem_zeros {k : Nat} {c : UInt8} (h : c ∈ List.replicate k 0x30) : isDigit c := by
  rw [List.eq_of_mem_replicate h]
  decide

theorem numeralF_plain (h : ∀ c ∈ d, isDigit c) (dp : Int) : (numeralF d dp).Plain := by
  refine ⟨?_, fun c hc => ?_, fun f hf c hc => ?_, by simp [numeralF], by simp [numeralF]⟩
  · simp only [numeralF]
    split_ifs with hdp
    · intro hnil
      have hlen := congrArg List.length hnil
      simp only [List.length_append, List.length_take, List.length_replicate,
        List.length_nil] at hlen
      omega
    · simp
  · simp only [numeralF] at hc
    split_ifs at hc
    · rcases List.mem_append.1 hc with hc | hc
      · exact h c (List.mem_of_mem_take hc)
      · exact isDigit_of_mem_zeros hc
    · rw [List.mem_singleton.1 hc]
      decide
  · simp only [numeralF] at hf
    split_ifs at hf
    · simp at hf
    · rw [← Option.some.inj hf] at hc
      rcases List.mem_append.1 hc with hc | hc
      · exact isDigit_of_mem_zeros hc
      · exact h c (List.mem_of_mem_drop hc)

/-! ### The number that is read -/

variable (R : Reals F)

theorem ofScan_congr {s : Nat} {e f : Int} (h : s ≠ 0 → e = f) : R.ofScan s e = R.ofScan s f := by
  rw [Reals.ofScan, Reals.ofScan]
  split_ifs with hs
  · rfl
  · rw [h hs]

theorem atoF_numeralE (h : ∀ c ∈ d, isDigit c) (hlen : d.length ≤ 17) (hdp : -323 ≤ dp ∧ dp ≤ 309) :
    R.atoF (numeralE d dp) = R.ofScan (value d) (dp - d.length) := by
  have hvalue : value ((numeralE d dp).whole ++ (numeralE d dp).fraction.getD []) = value d := by
    cases d with
    | nil => rfl
    | cons c d =>
      simp only [numeralE, List.headD_cons, List.tail_cons]
      split_ifs with hd <;> simp [hd]
  have hlt : value d < 10 ^ 17 :=
    lt_of_lt_of_le (value_lt h) (Nat.pow_le_pow_right (by decide) hlen)
  have hexp : ∀ n : Nat, n < 1000 → value (if n < 100 then pad 2 n else pad 3 n) = n := by
    intro n hn
    split_ifs with h
    · exact value_pad (by omega)
    · exact value_pad (by omega)
  rw [Reals.atoF_eq, hvalue]
  · refine ofScan_congr R fun hne => ?_
    have hd : d ≠ [] := fun hd => hne (by rw [hd]; rfl)
    have hlen : 0 < d.length := List.length_pos_iff.2 hd
    have hfraction : ((numeralE d dp).fraction.getD []).length = d.length - 1 := by
      simp only [numeralE]
      split_ifs with htail
      · have := congrArg List.length htail
        simp only [List.length_tail, List.length_nil] at this
        simp [this]
      · simp
    have hpower : (numeralE d dp).power = dp - 1 := by
      simp only [Numeral.power, numeralE, if_neg hd]
      rw [hexp _ (by omega)]
      by_cases hneg : dp - 1 < 0
      · simp only [hneg, decide_true, if_true]
        omega
      · simp only [hneg, decide_false, Bool.false_eq_true, if_false]
        omega
    rw [hfraction, hpower]
    omega
  · rw [hvalue]
    exact lt_trans hlt (by decide)
  · intro e he
    simp only [numeralE, Option.mem_def, Option.some.injEq] at he
    rw [← he]
    simp only
    rw [hexp _ (by split_ifs <;> omega)]
    split_ifs <;> omega

theorem atoF_numeralF (h : ∀ c ∈ d, isDigit c) (hlen : d.length ≤ 17) (hpoint : dp < d.length) :
    R.atoF (numeralF d dp) = R.ofScan (value d) (dp - d.length) := by
  have hfraction : (numeralF d dp).fraction.getD [] =
      List.replicate (-dp).toNat 0x30 ++ d.drop dp.toNat := by
    simp only [numeralF]
    split_ifs with hnil
    · rw [hnil]; rfl
    · rfl
  have hvalue : value ((numeralF d dp).whole ++ (numeralF d dp).fraction.getD []) = value d := by
    rw [hfraction]
    simp only [numeralF]
    split_ifs with hpos
    · have hzero : dp.toNat - d.length = 0 := by omega
      have hneg : (-dp).toNat = 0 := by omega
      rw [hzero, hneg, List.replicate_zero, List.append_nil, List.nil_append, List.take_append_drop]
    · have hzero : dp.toNat = 0 := by omega
      rw [hzero, List.drop_zero]
      exact value_replicate_append ((-dp).toNat + 1) d
  have hlt : value d < 10 ^ 17 :=
    lt_of_lt_of_le (value_lt h) (Nat.pow_le_pow_right (by decide) hlen)
  rw [Reals.atoF_eq, hvalue, hfraction]
  · congr 1
    simp only [Numeral.power, numeralF, List.length_append, List.length_replicate, List.length_drop]
    omega
  · rw [hvalue]
    exact lt_trans hlt (by decide)
  · intro e he
    simp [numeralF] at he

end Numbers

/-! ### What is read -/

/-- A text without NUL, or a number that is written with a point or an exponent. -/
def Faithful : Value F → Prop
  | .null | .integer _ | .blob _ => True
  | .real x =>
    match D.shortest x with
    | .inf _ => False
    | .finite _ d dp => dp - 1 < -4 ∨ 6 ≤ dp - 1 ∨ dp < d.length
  | .text b => 0 ∉ b

section Read
variable {tail : Bytes}

theorem readValue_number {n : Numeral} (hn : n.Plain) (h : Ends tail) (neg : Bool) :
    readValue D.toReals (minus neg ++ n.text ++ tail) =
      some (numberValue D.toReals neg n, tail) := by
  rw [List.append_assoc, minus]
  exact readValue_of_operand _ (operand_number _ hn h neg) h

/-- A token that is no sign stands for itself. -/
theorem readValue_token {z : Bytes} {t : Token} (hz : next z = (t, tail)) (h : Ends tail)
    (hplus : t ≠ .plus) (hminus : t ≠ .minus) :
    readValue D.toReals z = (literal D.toReals t).map (·, tail) :=
  readValue_of_operand _ (operand_of_next _ hz hplus hminus) h

/-- The number an integer is written as, without its sign. -/
def numeralI (n : Int64) : Numeral :=
  ⟨if n.toInt = 0 then utf8 "0" else decimal n.toInt.natAbs n.toInt.natAbs, none, none⟩

theorem numeralI_plain (n : Int64) : (numeralI n).Plain := by
  refine ⟨?_, fun c hc => ?_, by simp [numeralI], by simp [numeralI], by simp [numeralI]⟩
  · simp only [numeralI]
    split_ifs with hzero
    · decide
    · exact decimal_ne_nil (by omega)
  · simp only [numeralI] at hc
    split_ifs at hc
    · rw [List.mem_singleton.1 hc]
      decide
    · have := decimal_digits _ _ c hc
      simp [isDigit, this.1, this.2]

theorem value_numeralI (n : Int64) : value (numeralI n).whole = n.toInt.natAbs := by
  simp only [numeralI]
  split_ifs with hzero
  · rw [hzero]
    rfl
  · exact value_decimal le_rfl

theorem sprintInt_eq (n : Int64) :
    sprintInt n.toInt = minus (n.toInt < 0) ++ (numeralI n).text := by
  rw [sprintInt, minus]
  simp only [Numeral.text, Numeral.exponentText, numeralI, Option.map_none, Option.getD_none,
    List.append_nil, decide_eq_true_eq]
  rfl

theorem read_integer (n : Int64) (h : Ends tail) :
    readValue D.toReals (sprintInt n.toInt ++ tail) = some (.integer n, tail) := by
  have hlt := n.toInt_lt
  have hge := n.le_toInt
  rw [sprintInt_eq, readValue_number D (numeralI_plain n) h, numberValue, if_pos ⟨rfl, rfl⟩,
    codeInteger]
  simp only [value_numeralI]
  have hsmall : ¬ (2 ^ 63 < n.toInt.natAbs ∨
      n.toInt.natAbs = 2 ^ 63 ∧ decide (n.toInt < 0) = false) := by
    rw [decide_eq_false_iff_not]
    omega
  have hint : (if decide (n.toInt < 0) then -(n.toInt.natAbs : Int) else n.toInt.natAbs) =
      n.toInt := by
    by_cases hneg : n.toInt < 0
    · simp only [hneg, decide_true, if_true]
      omega
    · simp only [hneg, decide_false, Bool.false_eq_true, if_false]
      omega
  rw [if_neg hsmall, hint, Int64.ofInt_toInt]

theorem quote_eq (delim : UInt8) (b : Bytes) : quote [delim] b = enclose delim b := by
  rw [quote, enclose, List.append_assoc, List.singleton_append]
  simp only [List.cons.injEq, and_true, List.singleton_append]

theorem read_text (b : Bytes) (h : Ends tail) :
    readValue D.toReals (quote (utf8 "'") b ++ tail) =
      if 0 ∈ b then none else some (.text b, tail) := by
  have htail : tail.head? ≠ some 0x27 := fun hhead => by
    rcases h.head hhead with h | h <;> exact absurd h (by decide)
  have hz := next_quoted (.inl rfl) htail b
  change readValue D.toReals (quote [0x27] b ++ tail) = _
  rw [quote_eq]
  by_cases hb : 0 ∈ b
  · rw [if_pos hb] at hz ⊢
    have hz := operand_of_next D.toReals hz (by simp) (by simp)
    rw [readValue, hz]
    exact ite_self _
  · rw [if_neg hb] at hz ⊢
    rw [readValue_token D hz h (by simp) (by simp)]
    rfl

theorem hexToBlob_eq (b : Bytes) : hexToBlob
    (b.flatMap fun x => [hexDigit (x.toNat / 16), hexDigit (x.toNat % 16)]) = b := by
  have hbyte : ∀ n : Fin 256, hexToInt (hexDigit (n.val / 16)) <<< 4 |||
      hexToInt (hexDigit (n.val % 16)) = UInt8.ofNat n.val := by decide +kernel
  induction b with
  | nil => rfl
  | cons x b ih =>
    have := hbyte ⟨x.toNat, x.toNat_lt⟩
    rw [UInt8.ofNat_toNat] at this
    rw [List.flatMap_cons, List.cons_append, List.cons_append, List.nil_append, hexToBlob, ih,
      this]

theorem isXDigit_hexDigit {n : Nat} (h : n < 16) : isXDigit (hexDigit n) := by
  have hall : ∀ n : Fin 16, isXDigit (hexDigit n.val) = true := by decide
  exact hall ⟨n, h⟩

theorem read_blob (b : Bytes) (h : Ends tail) :
    readValue D.toReals (sqlLiteral D (.bytes b) ++ tail) = some (.blob b, tail) := by
  have hx : ∀ c ∈ b.flatMap fun x => [hexDigit (x.toNat / 16), hexDigit (x.toNat % 16)],
      isXDigit c := by
    intro c hc
    obtain ⟨x, -, hx⟩ := List.mem_flatMap.1 hc
    have := x.toNat_lt
    simp only [List.mem_cons, List.not_mem_nil, or_false] at hx
    rcases hx with rfl | rfl <;> exact isXDigit_hexDigit (by omega)
  have heven : (b.flatMap fun x => [hexDigit (x.toNat / 16), hexDigit (x.toNat % 16)]).length % 2 =
      0 := by
    induction b with
    | nil => rfl
    | cons x b ih =>
      have := ih fun c hc => hx c (by rw [List.flatMap_cons]; exact List.mem_append_right _ hc)
      rw [List.flatMap_cons, List.length_append]
      simp only [List.length_cons, List.length_nil]
      omega
  have hz := next_blob hx heven tail
  rw [hexToBlob_eq] at hz
  have htext : sqlLiteral D (.bytes b) ++ tail = 0x58 :: 0x27 :: ((b.flatMap fun x =>
      [hexDigit (x.toNat / 16), hexDigit (x.toNat % 16)]) ++ 0x27 :: tail) := by
    rw [sqlLiteral, List.append_assoc, List.append_assoc]
    rfl
  rw [htext, readValue_token D hz h (by simp) (by simp)]
  rfl

/-- Infinities are written as a name. -/
theorem read_inf (neg : Bool) (h : Ends tail) :
    readValue D.toReals (formatFloat (.inf neg) ++ tail) = none := by
  have hz := next_inf h
  cases neg with
  | true =>
    have hhead : (utf8 "Inf" ++ tail).head? = some 0x49 := rfl
    have hop := operand_minus D.toReals hz (by simp [hhead]) (by simp [hhead])
    exact readValue_of_operand D.toReals hop h
  | false =>
    have hop := operand_plus D.toReals hz
    exact readValue_of_operand D.toReals hop h

/-- A number is read as the real it was made from, unless it looks like an integer. -/
theorem read_finite {x : F} {neg : Bool} {d : Bytes} {dp : Int}
    (hx : D.shortest x = .finite neg d dp) (h : Ends tail) :
    readValue D.toReals (formatFloat (.finite neg d dp) ++ tail) = some (.real x, tail) ↔
      dp - 1 < -4 ∨ 6 ≤ dp - 1 ∨ dp < d.length := by
  have hdigits := D.isDigit_of hx
  have hlen := D.length_le hx
  have hreal : ∀ n : Numeral, ¬ (n.fraction = none ∧ n.exponent = none) →
      D.atoF n = D.ofScan (value d) (dp - d.length) →
      numberValue D.toReals neg n = .real x := fun n hn hvalue => by
    rw [numberValue, if_neg hn, codeReal, hvalue, D.ofScan_shortest hx]
  rw [formatFloat]
  split_ifs with hexp
  · -- an exponent
    have hplain := numeralE_plain hdigits dp
    have hvalue := atoF_numeralE D.toReals hdigits hlen (D.dp_bounds hx)
    rw [fmtE_eq, readValue_number D hplain h, hreal _ (by simp [numeralE]) hvalue]
    exact iff_of_true rfl (by omega)
  · have hplain := numeralF_plain hdigits dp
    rw [fmtF_eq, readValue_number D hplain h]
    by_cases hpoint : dp < d.length
    · -- a point
      have hne : List.replicate (-dp).toNat 0x30 ++ d.drop dp.toNat ≠ [] := fun hnil => by
        have := congrArg List.length hnil
        simp only [List.length_append, List.length_replicate, List.length_drop,
          List.length_nil] at this
        omega
      rw [hreal _ (by simp only [numeralF, if_neg hne]; simp)
        (atoF_numeralF D.toReals hdigits hlen hpoint)]
      exact iff_of_true rfl (by omega)
    · -- digits only, of which there are six at most
      have hnil : List.replicate (-dp).toNat 0x30 ++ d.drop dp.toNat = [] := by
        rw [List.append_eq_nil_iff, List.drop_eq_nil_iff, List.replicate_eq_nil_iff]
        omega
      have hsmall : value (numeralF d dp).whole < 10 ^ 6 := by
        refine lt_of_lt_of_le (value_lt hplain.whole) (Nat.pow_le_pow_right (by decide) ?_)
        simp only [numeralF]
        split_ifs
        · simp only [List.length_append, List.length_take, List.length_replicate]
          omega
        · simp
      have hnumber : ∃ n, numberValue D.toReals neg (numeralF d dp) = .integer n := by
        rw [numberValue, if_pos (by simp [numeralF, hnil]), codeInteger]
        exact ⟨_, if_neg (by omega)⟩
      obtain ⟨n, hn⟩ := hnumber
      rw [hn]
      exact iff_of_false (by simp) (by omega)

/-- A literal is read as the value it was written for, exactly for these values. -/
theorem readValue_iff (v : Value F) (h : Ends tail) :
    readValue D.toReals (sqlLiteral D (scan v) ++ tail) = some (v, tail) ↔ Faithful D v := by
  cases v with
  | null =>
    simp only [scan, sqlLiteral, Faithful, iff_true]
    rw [readValue_token D (next_null h) h (by simp) (by simp)]
    rfl
  | integer n =>
    simp only [scan, sqlLiteral, Faithful, iff_true]
    exact read_integer D n h
  | blob b =>
    simp only [Faithful, iff_true]
    exact read_blob D b h
  | text b =>
    simp only [scan, sqlLiteral, Faithful, read_text D b h]
    split_ifs with hb <;> simp [hb]
  | real x =>
    simp only [scan, sqlLiteral, Faithful]
    cases hx : D.shortest x with
    | inf neg => simp [read_inf D neg h]
    | finite neg d dp => exact read_finite D hx h

/-- A name is read as it was, exactly if there is no NUL in it. -/
theorem readName_iff (name : Bytes) (h : tail.head? ≠ some 0x22) :
    readName (quoteIdent name ++ tail) = some (name, tail) ↔ 0 ∉ name := by
  have hz := next_quoted (.inr rfl) h name
  change readName (quote [0x22] name ++ tail) = _ ↔ _
  rw [quote_eq, readName, hz]
  by_cases hname : 0 ∈ name
  · simp [hname]
  · rw [if_neg hname, if_neg (by decide)]
    simp [hname]

end Read

/-! ### Rows -/

section Rows
variable {tail : Bytes} {v : Value F} {vs : List (Value F)}

/-- The values of a row up to the closing parenthesis, at most as many as `n`. -/
def readValues (R : Reals F) : Nat → Bytes → Option (List (Value F) × Bytes)
  | 0, _ => none
  | n + 1, z =>
    match readValue R z with
    | none => none
    | some (v, z) =>
      match next z with
      | (.comma, z) => (readValues R n z).map fun r => (v :: r.1, r.2)
      | (.rp, z) => some ([v], z)
      | _ => none

/-- A blank before a value is skipped. -/
theorem readValues_blank {c : UInt8} (hc : isSpace c = false) (R : Reals F) (n : Nat) (z : Bytes) :
    readValues R n (0x20 :: c :: z) = readValues R n (c :: z) := by
  have hnext : next (0x20 :: c :: z) = next (c :: z) := by
    have htoken : getToken (0x20 :: c :: z) = (.space, c :: z) := by
      rw [getToken, if_pos ⟨by decide, by decide⟩, List.dropWhile_cons, if_neg (by simp [hc])]
    rw [next_of_ne (getToken_ne_space hc z), next, htoken]
  have hvalue : readValue R (0x20 :: c :: z) = readValue R (c :: z) := by
    have hoperand : operand R (0x20 :: c :: z) = operand R (c :: z) := by
      rw [operand, operand, hnext]
    rw [readValue, readValue, hoperand]
  cases n with
  | zero => rfl
  | succ n => rw [readValues, readValues, hvalue]

/-- No literal begins with a blank. -/
theorem sqlLiteral_head (v : Value F) :
    ∃ c z, sqlLiteral D (scan v) = c :: z ∧ isSpace c = false := by
  have hnumber : ∀ (neg : Bool) (n : Numeral), n.Plain →
      ∃ c z, minus neg ++ n.text = c :: z ∧ isSpace c = false := fun neg n hn => by
    cases neg with
    | true => exact ⟨0x2D, n.text, rfl, by decide⟩
    | false =>
      obtain ⟨c, w, hw⟩ := List.exists_cons_of_ne_nil hn.whole_ne
      refine ⟨c, w ++ ((n.fraction.map (0x2E :: ·)).getD [] ++ n.exponentText), ?_, ?_⟩
      · rw [minus, if_neg Bool.false_ne_true, List.nil_append, Numeral.text, hw, List.cons_append]
      · exact isSpace_of_isDigit (hn.whole c (by simp [hw]))
  cases v with
  | null => exact ⟨0x4E, _, rfl, by decide⟩
  | integer n =>
    simp only [scan, sqlLiteral, sprintInt_eq]
    exact hnumber _ _ (numeralI_plain n)
  | real x =>
    simp only [scan, sqlLiteral]
    cases hx : D.shortest x with
    | inf neg => cases neg <;> exact ⟨_, _, rfl, by decide⟩
    | finite neg d dp =>
      rw [formatFloat]
      split_ifs
      · rw [fmtE_eq]
        exact hnumber neg _ (numeralE_plain (D.isDigit_of hx) dp)
      · rw [fmtF_eq]
        exact hnumber neg _ (numeralF_plain (D.isDigit_of hx) dp)
  | text b => exact ⟨0x27, _, rfl, by decide⟩
  | blob b => exact ⟨0x58, _, rfl, by decide⟩

/-- A row is read as its values, and ends where its parenthesis does. -/
theorem readValues_row (hne : vs ≠ []) (h : ∀ v ∈ vs, Faithful D v) (tail : Bytes) :
    readValues D.toReals vs.length
      (Backup.commaSep (vs.map fun v => sqlLiteral D (scan v)) ++ 0x29 :: tail) =
      some (vs, tail) := by
  induction vs with
  | nil => exact absurd rfl hne
  | cons v vs ih =>
    have hv := h v (by simp)
    cases vs with
    | nil =>
      have hends : Ends (0x29 :: tail) := .inr rfl
      have hread := (readValue_iff D v hends).2 hv
      rw [List.map_cons, List.map_nil, Backup.commaSep, List.length_singleton, readValues, hread]
      rfl
    | cons w vs =>
      obtain ⟨c, z, hz, hc⟩ := sqlLiteral_head D w
      obtain ⟨rest, hrest⟩ : ∃ rest,
          Backup.commaSep ((w :: vs).map fun v => sqlLiteral D (scan v)) ++ 0x29 :: tail =
            c :: rest := by
        cases vs with
        | nil => exact ⟨z ++ 0x29 :: tail, by simp [Backup.commaSep, hz]⟩
        | cons u vs => exact ⟨_, by simp only [List.map_cons, Backup.commaSep, hz]; rfl⟩
      have ih := ih (by simp) fun u hu => h u (List.mem_cons_of_mem _ hu)
      rw [hrest] at ih
      have hends : Ends (0x2C :: 0x20 :: c :: rest) := .inl rfl
      have hread := (readValue_iff D v hends).2 hv
      have htext : Backup.commaSep ((v :: w :: vs).map fun v => sqlLiteral D (scan v)) ++
          0x29 :: tail = sqlLiteral D (scan v) ++ 0x2C :: 0x20 :: c :: rest := by
        rw [← hrest]
        simp only [List.map_cons, Backup.commaSep, List.append_assoc]
        rfl
      have hcomma : next (0x2C :: 0x20 :: c :: rest) = (.comma, 0x20 :: c :: rest) := rfl
      rw [htext, List.length_cons, readValues, hread]
      simp only [hcomma, readValues_blank hc, ih]
      rfl

end Rows

/-- Four of the numbers: 0, 1, 1.5 and what is too large. -/
inductive Sample
  | zero
  | one
  | oneAndAHalf
  | large
  deriving DecidableEq

def sample : Doubles Sample where
  zero := .zero
  negate x := x
  convert s d := if s = 1 ∧ d = 0 then .one else if s = 15 ∧ d = -1 then .oneAndAHalf else .large
  shortest
    | .zero => .finite false [] 0
    | .one => .finite false (utf8 "1") 1
    | .oneAndAHalf => .finite false (utf8 "15") 1
    | .large => .inf false
  isDigit_of {x _ _ _} h := by
    cases x <;> cases h <;> exact List.all_eq_true.1 (by decide)
  length_le {x _ _ _} h := by cases x <;> cases h <;> decide
  dp_bounds {x _ _ _} h := by cases x <;> cases h <;> decide
  ofScan_shortest {x _ _ _} h := by cases x <;> cases h <;> decide

end Mdock.Store.Dump
