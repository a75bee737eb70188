import Mdock.Locks.Service

/-! `ActiveUnder` against the locks at and below a path. The statement compares
`substr(path, 1, n)`, which counts characters, for an `n` that counts bytes. -/
namespace Mdock.Locks
open Mdock.Go Mdock.Lib

/-! ### `substr` -/

def continues (c : UInt8) : Bool := 0x80 ≤ c && c < 0xC0

/-- Somewhere a character takes more than one byte. -/
def hasLong : Bytes → Bool
  | b :: c :: s => (0xC0 ≤ b && continues c) || hasLong (c :: s)
  | _ => false

theorem hasLong_append (a : Bytes) {b c : UInt8} {s : Bytes} (hb : 0xC0 ≤ b)
    (hc : continues c = true) : hasLong (a ++ b :: c :: s) = true := by
  induction a with
  | nil => simp [hasLong, hb, hc]
  | cons x a ih =>
    cases a with
    | nil => simp [hasLong, hb, hc]
    | cons y a =>
      rw [List.cons_append, List.cons_append, hasLong, Bool.or_eq_true]
      exact .inr ih

theorem substr_long {b : UInt8} (hb : 0xC0 ≤ b) (n : Nat) (s : Bytes) :
    substr (n + 1) (b :: s) = b :: (s.takeWhile continues ++ substr n (s.dropWhile continues)) :=
  if_pos hb

theorem substr_short {b : UInt8} (hb : ¬ 0xC0 ≤ b) (n : Nat) (s : Bytes) :
    substr (n + 1) (b :: s) = b :: substr n s := if_neg hb

theorem substr_isPrefix (n : Nat) (s : Bytes) : substr n s <+: s := by
  induction n generalizing s with
  | zero => exact List.nil_prefix
  | succ n ih =>
    cases s with
    | nil => exact List.nil_prefix
    | cons b s =>
      by_cases hb : 0xC0 ≤ b
      · rw [substr_long hb]
        refine List.cons_prefix_cons.mpr ⟨rfl, ?_⟩
        obtain ⟨r, hr⟩ := ih (s.dropWhile continues)
        refine ⟨r, ?_⟩
        rw [List.append_assoc, hr, List.takeWhile_append_dropWhile]
      · rw [substr_short hb]
        exact List.cons_prefix_cons.mpr ⟨rfl, ih s⟩

/-- What is cut off has at least `n` bytes, and more where some character has. -/
theorem substr_length (n : Nat) (s : Bytes) : substr n s = s ∨
    n ≤ (substr n s).length ∧ (hasLong (substr n s) = true → n < (substr n s).length) := by
  induction n generalizing s with
  | zero => exact .inr ⟨Nat.zero_le _, fun h => by cases h⟩
  | succ n ih =>
    cases s with
    | nil => exact .inl rfl
    | cons b s =>
      by_cases hb : 0xC0 ≤ b
      · rw [substr_long hb]
        rcases ih (s.dropWhile continues) with he | ⟨hle, hlong⟩
        · rw [he, List.takeWhile_append_dropWhile]
          exact .inl rfl
        · right
          cases htw : s.takeWhile continues with
          | cons c tw =>
            simp only [List.length_cons, List.length_append]
            omega
          | nil =>
            have hs := List.takeWhile_append_dropWhile (p := continues) (l := s)
            rw [htw, List.nil_append] at hs
            rw [hs] at hle hlong ⊢
            refine ⟨Nat.succ_le_succ hle, fun h => Nat.succ_lt_succ (hlong ?_)⟩
            obtain ⟨r, hr⟩ := substr_isPrefix n s
            rw [List.nil_append] at h
            cases hsub : substr n s with
            | nil => rw [hsub] at h; cases h
            | cons c q =>
              rw [hsub] at h hr
              have hc : continues c = false := by
                rw [← hr, List.cons_append, List.takeWhile_cons] at htw
                by_contra hc
                rw [if_pos (by simpa using hc)] at htw
                cases htw
              simpa [hasLong, hc] using h
      · rw [substr_short hb]
        rcases ih s with he | ⟨hle, hlong⟩
        · rw [he]
          exact .inl rfl
        · right
          refine ⟨Nat.succ_le_succ hle, fun h => Nat.succ_lt_succ (hlong ?_)⟩
          cases hsub : substr n s with
          | nil => rw [hsub] at h; cases h
          | cons c r =>
            rw [hsub] at h
            simpa [hasLong, hb] using h

/-- A prefix with long characters is found in nothing but itself. -/
theorem substr_eq_long {q x : Bytes} (hq : hasLong q = true) : substr q.length x = q ↔ x = q := by
  constructor
  · intro h
    rcases substr_length q.length x with he | ⟨-, hlong⟩
    · exact he.symm.trans h
    · rw [h] at hlong
      exact absurd (hlong hq) (lt_irrefl _)
  · rintro rfl
    rcases substr_length x.length x with he | ⟨hle, -⟩
    · exact he
    · exact (substr_isPrefix _ _).eq_of_length_le hle

/-- A prefix without lead bytes is found as one. -/
theorem substr_eq_short {q : Bytes} (hq : ∀ b ∈ q, ¬ 0xC0 ≤ b) (x : Bytes) :
    substr q.length x = q ↔ q <+: x := by
  induction q generalizing x with
  | nil => simp [substr]
  | cons b q ih =>
    obtain ⟨hb, hq'⟩ := List.forall_mem_cons.mp hq
    cases x with
    | nil => simp [substr]
    | cons c x =>
      by_cases hbc : c = b
      · subst hbc
        rw [List.length_cons, substr_short hb, List.cons_prefix_cons, List.cons.injEq, ih hq']
      · have hne : ∀ r : Bytes, c :: r ≠ b :: q := fun r h => hbc (List.cons.inj h).1
        refine iff_of_false (fun h => ?_) fun h => hbc (List.cons_prefix_cons.mp h).1.symm
        rw [List.length_cons, substr] at h
        split at h
        · exact hne _ h
        · exact hne _ h

/-! ### Texts -/

theorem utf8EncodeChar_short {c : Char} (h : c.toNat < 128) :
    ∀ b ∈ String.utf8EncodeChar c, ¬ 0xC0 ≤ b := by
  have hv : c.val.toNat ≤ 0x7F := Nat.le_of_lt_succ h
  rw [String.utf8EncodeChar, if_pos hv]
  intro b hb
  rw [List.mem_singleton.mp hb, UInt8.le_iff_toNat_le, UInt8.toNat_ofNat']
  have h0 : (0xC0 : UInt8).toNat = 192 := rfl
  omega

theorem utf8EncodeChar_long {c : Char} (h : ¬ c.toNat < 128) :
    ∃ a b s, String.utf8EncodeChar c = a :: b :: s ∧ 0xC0 ≤ a ∧ continues b = true := by
  have hv : ¬ c.val.toNat ≤ 0x7F := fun hle => h (Nat.lt_succ_of_le hle)
  have hcont : ∀ n, continues (UInt8.ofNat (n % 64 + 128)) = true := fun n => by
    simp only [continues, Bool.and_eq_true, decide_eq_true_eq, UInt8.le_iff_toNat_le,
      UInt8.lt_iff_toNat_lt, UInt8.toNat_ofNat']
    have h1 : (0x80 : UInt8).toNat = 128 := rfl
    have h2 : (0xC0 : UInt8).toNat = 192 := rfl
    omega
  have hlead : ∀ n, 192 ≤ n → n < 256 → 0xC0 ≤ UInt8.ofNat n := fun n h1 h2 => by
    rw [UInt8.le_iff_toNat_le, UInt8.toNat_ofNat']
    have h3 : (0xC0 : UInt8).toNat = 192 := rfl
    omega
  rw [String.utf8EncodeChar, if_neg hv]
  split
  · exact ⟨_, _, _, rfl, hlead _ (by omega) (by omega), hcont _⟩
  · split
    · exact ⟨_, _, _, rfl, hlead _ (by omega) (by omega), hcont _⟩
    · exact ⟨_, _, _, rfl, hlead _ (by omega) (by omega), hcont _⟩

def Ascii (p : String) : Prop := ∀ c ∈ p.toList, c.toNat < 128

theorem utf8_short {p : String} (h : Ascii p) : ∀ b ∈ utf8 p ++ [slash], ¬ 0xC0 ≤ b := by
  intro b hb
  rcases List.mem_append.mp hb with hb | hb
  · obtain ⟨c, hc, hb⟩ := List.mem_flatMap.mp hb
    exact utf8EncodeChar_short (h c hc) b hb
  · rw [List.mem_singleton.mp hb]
    decide

theorem utf8_long {p : String} (h : ¬ Ascii p) : hasLong (utf8 p ++ [slash]) = true := by
  simp only [Ascii, not_forall] at h
  obtain ⟨c, hc, h⟩ := h
  obtain ⟨l, r, hlr⟩ := List.append_of_mem hc
  obtain ⟨a, b, s, he, ha, hb⟩ := utf8EncodeChar_long h
  rw [utf8, hlr, List.flatMap_append, List.flatMap_cons, he, List.append_assoc]
  simpa using hasLong_append (l.flatMap String.utf8EncodeChar) (s := s ++
    (r.flatMap String.utf8EncodeChar ++ [slash])) ha hb

/-! ### What `ActiveUnder` returns -/

/-- The path itself, or below it. -/
def AtOrBelow (path x : Bytes) : Prop := x = path ∨ path ++ [slash] <+: x

instance (path x : Bytes) : Decidable (AtOrBelow path x) := inferInstanceAs (Decidable (_ ∨ _))

/-- The lock the row stands for. -/
def Row.lock (r : Row) : Lock := ⟨r.vaultID, r.path, r.owner, r.source, r.expiresAt⟩

/-- The locks that are to be returned, in some order. -/
def active (t : FileLocks) (now : Instant) (vaultID : Int) (path : Bytes) : List Lock :=
  (t.rows.filter fun r =>
    decide (r.vaultID = vaultID ∧ AtOrBelow path r.path ∧ now < r.expiresAt)).map Row.lock

def ReturnsActive (t : FileLocks) (now : Instant) (vaultID : Int) (path : Bytes) : Prop :=
  ∃ items, (activeUnder t now vaultID path).1 = .ok items ∧
    items.Perm (active t now vaultID path)

/-- The statement sees the row, if it is at or below the path: the row is the path's own, or the
path has no long characters. -/
def Seen (path : String) (r : Row) : Prop :=
  r.path = utf8 path ∨ r.path = utf8 path ++ [slash] ∨ Ascii path

/-- The time of a row that is seen compares as its text does, and is read back if it is to be
returned; a row that is not seen has expired. -/
def ReadsRight (now : Instant) (path : String) (r : Row) : Prop :=
  (Seen path r → SortAlike r.expiresAt now ∧
    (now < r.expiresAt → (reparse r.expiresAt).isSome)) ∧
  (¬ Seen path r → r.expiresAt ≤ now)

theorem toLock_eq_ok {r : Row} {lock : Lock} :
    r.toLock = .ok lock ↔ (reparse r.expiresAt).isSome ∧ r.lock = lock := by
  unfold Row.toLock reparse
  by_cases hy : 0 ≤ year r.expiresAt ∧ year r.expiresAt ≤ 9999
  · simp [hy, Row.lock]
  · simp [hy]

theorem mapM_toLock {rows : List Row} {items : List Lock} : rows.mapM Row.toLock = .ok items ↔
    (∀ r ∈ rows, (reparse r.expiresAt).isSome) ∧ rows.map Row.lock = items := by
  induction rows generalizing items with
  | nil => simp [pure, Except.pure]
  | cons r rows ih =>
    rw [List.mapM_cons]
    cases hr : r.toLock with
    | error e =>
      have hno : ¬ (reparse r.expiresAt).isSome := fun h => by
        rw [toLock_eq_ok.mpr ⟨h, rfl⟩] at hr
        cases hr
      simp [bind, Except.bind, hno]
    | ok lock =>
      obtain ⟨hp, rfl⟩ := toLock_eq_ok.mp hr
      cases hrows : rows.mapM Row.toLock with
      | error e =>
        have hno : ¬ ∀ r ∈ rows, (reparse r.expiresAt).isSome := fun h => by
          rw [ih.mpr ⟨h, rfl⟩] at hrows
          cases hrows
        simp [bind, Except.bind, hno]
      | ok locks =>
        obtain ⟨hall, rfl⟩ := ih.mp hrows
        simp only [bind, Except.bind, pure, Except.pure, Except.ok.injEq, List.forall_mem_cons, hp,
          true_and, List.map_cons]
        exact (and_iff_right hall).symm

theorem under_iff {vaultID : Int} {p : String} {r : Row} :
    under vaultID (utf8 p) r = true ↔
      r.vaultID = vaultID ∧ AtOrBelow (utf8 p) r.path ∧ Seen p r := by
  simp only [under, decide_eq_true_eq]
  refine and_congr_right fun _ => ?_
  by_cases ha : Ascii p
  · rw [substr_eq_short (utf8_short ha)]
    simp [AtOrBelow, Seen, ha]
  · rw [substr_eq_long (utf8_long ha)]
    simp only [AtOrBelow, Seen, ha, or_false]
    constructor
    · rintro (h | h)
      · exact ⟨.inl h, .inl h⟩
      · exact ⟨.inr (h ▸ List.prefix_rfl), .inr h⟩
    · exact fun h => h.2

/-- Two rows that stand for one lock are one. -/
theorem eq_of_lock {t : FileLocks} {r r' : Row} (hr : r ∈ t.rows) (hr' : r' ∈ t.rows)
    (h : r.lock = r'.lock) : r = r' := by
  have hk : r.key = r'.key := by
    simp only [Row.lock, Lock.mk.injEq] at h
    rw [Row.key, Row.key, h.1, h.2.1]
  exact List.inj_on_of_nodup_map t.nodup hr hr' hk

theorem activeUnder_fst (t : FileLocks) (now : Instant) (vaultID : Int) (path : Bytes) :
    ∃ rows : List Row, (∀ r, r ∈ rows ↔ r ∈ t.rows ∧ ¬ format r.expiresAt ≤ format now ∧
        under vaultID path r = true) ∧
      rows.Perm (t.rows.filter fun r => decide (¬ format r.expiresAt ≤ format now ∧
        under vaultID path r = true)) ∧
      (activeUnder t now vaultID path).1 = rows.mapM Row.toLock := by
  refine ⟨_, fun r => ?_, ?_, rfl⟩
  · rw [List.mem_insertionSort, List.mem_filter, cleanupExpired, Keyed.mem_deleteWhere, and_assoc]
    simp [expiredText]
  · refine (List.perm_insertionSort _ _).trans (List.Perm.of_eq ?_)
    rw [cleanupExpired, Keyed.deleteWhere, List.filter_filter]
    refine List.filter_congr fun r _ => ?_
    rw [Bool.eq_iff_iff]
    simp only [expiredText, Bool.and_eq_true, Bool.not_eq_true', decide_eq_false_iff_not,
      decide_eq_true_eq]
    exact and_comm

/-- An editor has `идеи/a.md` open. -/
def openBelow : FileLocks :=
  Keyed.empty.upsert ⟨1, utf8 "идеи/a.md", utf8 "web:2", utf8 "web", 60000000000, 0⟩

end Mdock.Locks
