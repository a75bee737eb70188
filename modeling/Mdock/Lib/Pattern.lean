import Mathlib.Data.List.TakeWhile

/-! Patterns at the start of a text, as a backtracking matcher tries them: the lengths of
the matches, the preferred one first. Only single elements are repeated. -/
namespace Mdock.Lib
variable {α : Type*}

inductive Pattern (α : Type*)
  | run (p : α → Bool) (least : Nat) (most : Option Nat) (greedy : Bool)
  | seq (a b : Pattern α)
  | alt (a b : Pattern α)

namespace Pattern

@[grind =]
def ends : Pattern α → List α → List Nat
  | .run p least most greedy, s =>
    let n := (s.takeWhile p).length
    let ns := (List.range ((most.elim n (min n)) + 1)).filter (least ≤ ·)
    if greedy then ns.reverse else ns
  | .seq a b, s => (a.ends s).flatMap fun n => (b.ends (s.drop n)).map (n + ·)
  | .alt a b, s => a.ends s ++ b.ends s

/-- Exactly one element. -/
def one (p : α → Bool) : Pattern α := .run p 1 (some 1) true

/-- At most one element. -/
def opt (p : α → Bool) : Pattern α := .run p 0 (some 1) true

def star (p : α → Bool) : Pattern α := .run p 0 none true

def plus (p : α → Bool) : Pattern α := .run p 1 none true

def literal [DecidableEq α] : List α → Pattern α
  | [] => .run (fun _ => false) 0 (some 0) true
  | c :: s => .seq (one (· = c)) (literal s)

/-- `a` or nothing. -/
def optional (a : Pattern α) : Pattern α := .alt a (.run (fun _ => false) 0 (some 0) true)

/-- `a` exactly `n` times. -/
def times (a : Pattern α) : Nat → Pattern α
  | 0 => .run (fun _ => false) 0 (some 0) true
  | n + 1 => .seq a (a.times n)

/-- `a` at most `n` times. -/
def upTo (a : Pattern α) : Nat → Pattern α
  | 0 => .run (fun _ => false) 0 (some 0) true
  | n + 1 => .alt (.seq a (a.upTo n)) (.run (fun _ => false) 0 (some 0) true)

/-- The match of a pattern. -/
def find (a : Pattern α) (s : List α) : Option Nat := (a.ends s).head?

/-- The match of two patterns one after the other, as the lengths of its two parts. -/
def find₂ (a b : Pattern α) (s : List α) : Option (Nat × Nat) :=
  (a.ends s).findSome? fun n => (b.find (s.drop n)).map fun m => (n, m)

/-- A text begins with a match. -/
def test (a : Pattern α) (s : List α) : Bool := (a.find s).isSome

/-- Cut the match. -/
def cut (a : Pattern α) (s : List α) : List α :=
  match a.find s with
  | some n => s.drop n
  | none => s

/-- Put `v` for the match, behind its first part. -/
def keepFirst (a b : Pattern α) (v s : List α) : List α :=
  match find₂ a b s with
  | some (n, m) => s.take n ++ v ++ s.drop (n + m)
  | none => s

/-- The parts of a whole text that is a match of patterns one after the other. -/
def parts : List (Pattern α) → List α → Option (List (List α))
  | [], s => if s.isEmpty then some [] else none
  | a :: as, s => (a.ends s).findSome? fun n => (parts as (s.drop n)).map (s.take n :: ·)

/-- A whole text is a match. -/
def Matches (a : Pattern α) (s : List α) : Prop := s.length ∈ a.ends s

instance (a : Pattern α) (s : List α) : Decidable (a.Matches s) :=
  inferInstanceAs (Decidable (_ ∈ _))

theorem mem_of_mem_cut {a : Pattern α} {s : List α} {c : α} (h : c ∈ a.cut s) : c ∈ s := by
  unfold cut at h
  split at h
  · exact List.mem_of_mem_drop h
  · exact h

theorem mem_of_mem_keepFirst {a b : Pattern α} {v s : List α} {c : α}
    (h : c ∈ keepFirst a b v s) : c ∈ v ∨ c ∈ s := by
  unfold keepFirst at h
  split at h
  · rw [List.mem_append, List.mem_append] at h
    exact h.elim (fun h => h.elim (.inr ∘ List.mem_of_mem_take) .inl) (.inr ∘ List.mem_of_mem_drop)
  · exact .inr h

theorem mem_ends_run {p : α → Bool} {least : Nat} {most : Option Nat} {greedy : Bool} {s : List α}
    {n : Nat} : n ∈ (run p least most greedy).ends s ↔
      n ≤ (s.takeWhile p).length ∧ (∀ m ∈ most, n ≤ m) ∧ least ≤ n := by
  have hmem : n ∈ (run p least most greedy).ends s ↔
      n ≤ most.elim (s.takeWhile p).length (min (s.takeWhile p).length) ∧ least ≤ n := by
    cases greedy <;> simp [ends, Nat.lt_succ_iff]
  rw [hmem]
  cases most with
  | none => simp
  | some m => simp [Nat.le_min, and_assoc]

theorem ends_seq (a b : Pattern α) (s : List α) : (seq a b).ends s =
    (a.ends s).flatMap fun n => (b.ends (s.drop n)).map (n + ·) := rfl

theorem ends_alt (a b : Pattern α) (s : List α) : (alt a b).ends s = a.ends s ++ b.ends s := rfl

/-- What needs an element does not match in front of another one. -/
theorem ends_run_cons_neg {p : α → Bool} {least : Nat} {most : Option Nat} {greedy : Bool} {c : α}
    {s : List α} (hp : p c = false) : (run p (least + 1) most greedy).ends (c :: s) = [] := by
  refine List.eq_nil_iff_forall_not_mem.mpr fun n hn => ?_
  have hle := mem_ends_run.mp hn
  rw [List.takeWhile_cons_of_neg (by simp [hp])] at hle
  exact absurd (Nat.le_trans hle.2.2 hle.1) (by simp)

theorem ends_one_cons {p : α → Bool} {c : α} {s : List α} (hp : p c = true) :
    (one p).ends (c :: s) = [1] := by
  simp [one, ends, hp, List.range_succ]

theorem takeWhile_append_head {p : α → Bool} {u v : List α} (hu : ∀ c ∈ u, p c)
    (hv : ∀ c ∈ v.head?, p c = false) : (u ++ v).takeWhile p = u := by
  rw [List.takeWhile_append_of_pos hu]
  cases v with
  | nil => simp
  | cons c v => rw [List.takeWhile_cons_of_neg (by simp [hv c rfl]), List.append_nil]

/-- A greedy repetition takes all it can first. -/
theorem ends_plus_append {p : α → Bool} {u s : List α} (hu : ∀ c ∈ u, p c) (hne : u ≠ [])
    (hs : ∀ c ∈ s.head?, p c = false) : ∃ ns, (plus p).ends (u ++ s) = u.length :: ns := by
  have htake := takeWhile_append_head hu hs
  have hpos : decide (1 ≤ u.length) = true := decide_eq_true (List.length_pos_iff.mpr hne)
  simp [plus, ends, htake, List.range_succ, hpos]

theorem find_eq_none_iff {a : Pattern α} {s : List α} : a.find s = none ↔ a.ends s = [] := by
  rw [find, List.head?_eq_none_iff]

theorem ends_seq_eq_nil {a b : Pattern α} {s : List α} (h : a.ends s = []) :
    (seq a b).ends s = [] := by
  rw [ends, h, List.flatMap_nil]

theorem find_alt (a b : Pattern α) (s : List α) :
    (alt a b).find s = (a.find s).or (b.find s) := by
  rw [find, ends_alt, List.head?_append, find, find]

theorem find_seq_none {a b : Pattern α} {s : List α} (h : a.find s = none) :
    (seq a b).find s = none :=
  find_eq_none_iff.mpr (ends_seq_eq_nil (find_eq_none_iff.mp h))

theorem find_opt (p : α → Bool) (s : List α) :
    (opt p).find s = some (min (s.takeWhile p).length 1) := by
  simp [find, opt, ends, List.range_succ]

theorem ends_literal [DecidableEq α] (w t : List α) : (literal w).ends (w ++ t) = [w.length] := by
  induction w with
  | nil =>
    have hnone : t.takeWhile (fun _ => false) = [] := by cases t <;> rfl
    simp [literal, ends, hnone]
  | cons d w ih =>
    have hone : (one (decide <| · = d)).ends (d :: (w ++ t)) = [1] :=
      ends_one_cons (decide_eq_true rfl)
    rw [literal, ends_seq, List.cons_append, hone]
    simp [ih, Nat.add_comm]

theorem mem_ends_seq {a b : Pattern α} {s : List α} {n : Nat} :
    n ∈ (seq a b).ends s ↔ ∃ i ∈ a.ends s, ∃ j ∈ b.ends (s.drop i), n = i + j := by
  simp [ends, eq_comm]

theorem mem_ends_alt {a b : Pattern α} {s : List α} {n : Nat} :
    n ∈ (alt a b).ends s ↔ n ∈ a.ends s ∨ n ∈ b.ends s := by
  simp [ends]

theorem length_takeWhile_take (p : α → Bool) (s : List α) (n : Nat) :
    ((s.take n).takeWhile p).length = min n (s.takeWhile p).length := by
  induction s generalizing n with
  | nil => simp
  | cons c s ih =>
    cases n with
    | zero => simp
    | succ n =>
      rw [List.take_succ_cons, List.takeWhile_cons, List.takeWhile_cons]
      by_cases hp : p c
      · simp [hp, ih, Nat.succ_min_succ]
      · simp [hp]

theorem filter_range_le (n m : Nat) :
    (List.range (n + 1)).filter (· ≤ m) = List.range (min m n + 1) := by
  induction n with
  | zero => simp [List.range_succ]
  | succ n ih =>
    rw [List.range_succ, List.filter_append, ih]
    rcases Nat.lt_or_ge n m with h | h
    · rw [Nat.min_eq_right h, Nat.min_eq_right (Nat.le_of_lt h), List.filter_cons_of_pos
        (by simp; omega)]
      exact List.range_succ.symm
    · rw [Nat.min_eq_left h, Nat.min_eq_left (Nat.le_succ_of_le h),
        List.filter_cons_of_neg (by simp; omega)]
      exact List.append_nil _

theorem filter_flatMap_of_neg {β γ : Type*} {p : β → Bool} {f g : β → List γ} (xs : List β)
    (hpos : ∀ x, p x = true → f x = g x) (hneg : ∀ x, p x = false → g x = []) :
    (xs.filter p).flatMap f = xs.flatMap g := by
  induction xs with
  | nil => rfl
  | cons x xs ih =>
    rw [List.flatMap_cons]
    cases hx : p x with
    | true => rw [List.filter_cons_of_pos hx, List.flatMap_cons, ih, hpos x hx]
    | false => rw [List.filter_cons_of_neg (by simp [hx]), ih, hneg x hx, List.nil_append]

/-- The matches in the beginning of a text are those that end there, in the same order. -/
theorem ends_take (a : Pattern α) (s : List α) (m : Nat) :
    a.ends (s.take m) = (a.ends s).filter (· ≤ m) := by
  induction a generalizing s m with
  | run p least most greedy =>
    have hmost : most.elim (min m (s.takeWhile p).length) (min (min m (s.takeWhile p).length)) =
        min m (most.elim (s.takeWhile p).length (min (s.takeWhile p).length)) := by
      cases most with
      | none => rfl
      | some k => exact Nat.min_assoc _ _ _
    simp only [ends, length_takeWhile_take, hmost]
    rw [← filter_range_le, List.filter_filter]
    cases greedy with
    | true => simp [List.filter_filter, Bool.and_comm]
    | false => simp [List.filter_filter, Bool.and_comm]
  | seq a b iha ihb =>
    rw [ends_seq, ends_seq, iha, List.filter_flatMap]
    refine filter_flatMap_of_neg _ (fun n hn => ?_) fun n hn => ?_
    · rw [List.drop_take, ihb, List.filter_map]
      refine congrArg (List.map (n + ·)) (List.filter_congr fun j _ => ?_)
      have hle := of_decide_eq_true hn
      exact decide_eq_decide.mpr (show j ≤ m - n ↔ n + j ≤ m by omega)
    · have hlt := of_decide_eq_false hn
      refine List.filter_eq_nil_iff.mpr fun k hk => ?_
      obtain ⟨j, -, rfl⟩ := List.mem_map.mp hk
      simp
      omega
  | alt a b iha ihb => rw [ends_alt, ends_alt, iha, ihb, List.filter_append]

/-- Whether a match ends at a place is decided by what is in front of it. -/
theorem mem_ends_take (a : Pattern α) (s : List α) {n m : Nat} (h : n ≤ m) :
    n ∈ a.ends (s.take m) ↔ n ∈ a.ends s := by
  rw [ends_take, List.mem_filter, decide_eq_true_iff, and_iff_left h]

/-- A match is the match of itself. -/
theorem find_take {a : Pattern α} {s : List α} {n : Nat} (h : a.find s = some n) :
    a.find (s.take n) = some n := by
  obtain ⟨ns, hns⟩ := List.head?_eq_some_iff.mp h
  rw [find, ends_take, hns, List.filter_cons_of_pos (by simp)]
  rfl

/-- The match is the same in front of what no match reaches into. -/
theorem find_append {a : Pattern α} {u s : List α} (h : ∀ n ∈ a.ends (u ++ s), n ≤ u.length) :
    a.find (u ++ s) = a.find u := by
  have htake := a.ends_take (u ++ s) u.length
  rw [List.take_left, List.filter_eq_self.mpr fun n hn => decide_eq_true (h n hn)] at htake
  rw [find, find, htake]

theorem ends_le (a : Pattern α) (s : List α) {n : Nat} (h : n ∈ a.ends s) : n ≤ s.length := by
  induction a generalizing s n with
  | run p least most greedy =>
    exact Nat.le_trans (mem_ends_run.mp h).1 (s.takeWhile_sublist p).length_le
  | seq a b iha ihb =>
    obtain ⟨i, hi, j, hj, rfl⟩ := mem_ends_seq.mp h
    have ha := iha s hi
    have hb := ihb _ hj
    rw [List.length_drop] at hb
    omega
  | alt a b iha ihb =>
    rcases mem_ends_alt.mp h with h | h
    · exact iha s h
    · exact ihb s h

theorem matches_seq {a b : Pattern α} {s : List α} :
    (seq a b).Matches s ↔ ∃ u v, s = u ++ v ∧ a.Matches u ∧ b.Matches v := by
  unfold Matches
  rw [mem_ends_seq]
  constructor
  · rintro ⟨i, hi, j, hj, hlen⟩
    have hle := a.ends_le s hi
    refine ⟨s.take i, s.drop i, (List.take_append_drop i s).symm, ?_, ?_⟩
    · rw [List.length_take, Nat.min_eq_left hle]
      exact (a.mem_ends_take s (Nat.le_refl _)).mpr hi
    · have hj' : j = (s.drop i).length := by
        rw [List.length_drop]
        omega
      rwa [← hj']
  · rintro ⟨u, v, rfl, hu, hv⟩
    refine ⟨u.length, ?_, v.length, ?_, by simp⟩
    · have ht := (a.mem_ends_take (u ++ v) (Nat.le_refl u.length)).mp
      rw [List.take_left] at ht
      exact ht hu
    · rwa [List.drop_left]

theorem matches_alt {a b : Pattern α} {s : List α} :
    (alt a b).Matches s ↔ a.Matches s ∨ b.Matches s := mem_ends_alt

theorem matches_run {p : α → Bool} {least : Nat} {most : Option Nat} {greedy : Bool} {s : List α} :
    (run p least most greedy).Matches s ↔
      (∀ c ∈ s, p c) ∧ (∀ m ∈ most, s.length ≤ m) ∧ least ≤ s.length := by
  have hall : s.length ≤ (s.takeWhile p).length ↔ ∀ c ∈ s, p c := by
    rw [← List.takeWhile_eq_self_iff]
    constructor
    · exact fun h => (s.takeWhile_sublist p).eq_of_length_le h
    · intro h
      rw [h]
  rw [Matches, mem_ends_run, hall]

theorem matches_star {p : α → Bool} {s : List α} : (star p).Matches s ↔ ∀ c ∈ s, p c := by
  rw [star, matches_run]
  simp

theorem matches_one {p : α → Bool} {s : List α} : (one p).Matches s ↔ ∃ c, s = [c] ∧ p c := by
  unfold Matches one
  rw [mem_ends_run]
  constructor
  · rintro ⟨htake, hmost, hleast⟩
    have hlen : s.length = 1 := by
      have := hmost 1 rfl
      omega
    obtain ⟨c, rfl⟩ := List.length_eq_one_iff.mp hlen
    refine ⟨c, rfl, ?_⟩
    by_contra hp
    simp [hp] at htake
  · rintro ⟨c, rfl, hp⟩
    simp [hp]

/-- A text begins with a match where it has one in front. -/
theorem test_iff {a : Pattern α} {s : List α} :
    a.test s = true ↔ ∃ u v, s = u ++ v ∧ a.Matches u := by
  rw [test, find, List.isSome_head?]
  constructor
  · intro hne
    obtain ⟨n, hn⟩ := List.exists_mem_of_ne_nil _ (by simpa using hne)
    refine ⟨s.take n, s.drop n, (List.take_append_drop n s).symm, ?_⟩
    rw [Matches, List.length_take, Nat.min_eq_left (a.ends_le s hn)]
    exact (a.mem_ends_take s (Nat.le_refl n)).mpr hn
  · rintro ⟨u, v, rfl, hu⟩
    have hmem := (a.mem_ends_take (u ++ v) (Nat.le_refl u.length)).mp (by rwa [List.take_left])
    simpa using List.ne_nil_of_mem hmem

theorem matches_literal [DecidableEq α] {w s : List α} : (literal w).Matches s ↔ s = w := by
  induction w generalizing s with
  | nil =>
    rw [literal, Matches, mem_ends_run]
    constructor
    · rintro ⟨-, hmost, -⟩
      exact List.length_eq_zero_iff.mp (Nat.le_zero.mp (hmost 0 rfl))
    · rintro rfl
      simp
  | cons c w ih =>
    rw [literal, matches_seq]
    constructor
    · rintro ⟨u, v, rfl, hu, hv⟩
      obtain ⟨d, rfl, hd⟩ := matches_one.mp hu
      rw [ih.mp hv, of_decide_eq_true hd]
      rfl
    · rintro rfl
      exact ⟨[c], w, rfl, matches_one.mpr ⟨c, rfl, decide_eq_true rfl⟩, ih.mpr rfl⟩

/-- An element that no part of a pattern takes. -/
def avoids (c : α) : Pattern α → Bool
  | .run p _ _ _ => !p c
  | .seq a b => a.avoids c && b.avoids c
  | .alt a b => a.avoids c && b.avoids c

/-- So no match reaches over it. -/
theorem le_of_avoids {a : Pattern α} {c : α} (h : a.avoids c = true) (u s : List α) {n : Nat}
    (hn : n ∈ a.ends (u ++ c :: s)) : n ≤ u.length := by
  induction a generalizing u n with
  | run p least most greedy =>
    have hp : p c = false := by simpa [avoids] using h
    refine Nat.le_trans (mem_ends_run.mp hn).1 ?_
    rw [List.takeWhile_append, List.takeWhile_cons_of_neg (by simp [hp]), List.append_nil]
    split_ifs
    · exact Nat.le_refl _
    · exact (u.takeWhile_sublist p).length_le
  | seq a b iha ihb =>
    rw [avoids, Bool.and_eq_true] at h
    obtain ⟨i, hi, j, hj, rfl⟩ := mem_ends_seq.mp hn
    have hle := iha h.1 u hi
    rw [List.drop_append_of_le_length hle] at hj
    have hrest := ihb h.2 (u.drop i) hj
    rw [List.length_drop] at hrest
    omega
  | alt a b iha ihb =>
    rw [avoids, Bool.and_eq_true] at h
    rcases mem_ends_alt.mp hn with hn | hn
    · exact iha h.1 u hn
    · exact ihb h.2 u hn

/-! ### Runs -/

theorem cut_eq_self {a : Pattern α} {s : List α} (h : a.find s = none) : a.cut s = s := by
  rw [cut, h]

theorem cut_eq_drop {a : Pattern α} {s : List α} {n : Nat} (h : a.find s = some n) :
    a.cut s = s.drop n := by
  rw [cut, h]

/-- The least length a match has. -/
def shortest : Pattern α → Nat
  | .run _ least _ _ => least
  | .seq a b => a.shortest + b.shortest
  | .alt a b => min a.shortest b.shortest

theorem shortest_le {a : Pattern α} {s : List α} {n : Nat} (h : n ∈ a.ends s) : a.shortest ≤ n := by
  induction a generalizing s n with
  | run p least most greedy => exact (mem_ends_run.mp h).2.2
  | seq a b iha ihb =>
    obtain ⟨i, hi, j, hj, rfl⟩ := mem_ends_seq.mp h
    exact Nat.add_le_add (iha hi) (ihb hj)
  | alt a b iha ihb =>
    rcases mem_ends_alt.mp h with h | h
    · exact Nat.le_trans (Nat.min_le_left _ _) (iha h)
    · exact Nat.le_trans (Nat.min_le_right _ _) (ihb h)

theorem length_cut_le (a : Pattern α) (s : List α) : (a.cut s).length ≤ s.length := by
  unfold cut
  split
  · rw [List.length_drop]
    exact Nat.sub_le _ _
  · exact Nat.le_refl _

/-- What matches no empty text leaves a text as long as it is only where it does not match. -/
theorem find_of_length_cut {a : Pattern α} (ha : 0 < a.shortest) {s : List α}
    (h : s.length ≤ (a.cut s).length) : a.find s = none := by
  by_contra hne
  obtain ⟨n, hn⟩ := Option.ne_none_iff_exists'.mp hne
  have hmem : n ∈ a.ends s := List.mem_of_mem_head? hn
  have hpos := shortest_le hmem
  have hle := a.ends_le s hmem
  rw [cut_eq_drop hn, List.length_drop] at h
  omega

theorem cut_eq_self_iff {a : Pattern α} (ha : 0 < a.shortest) {s : List α} :
    a.cut s = s ↔ a.find s = none :=
  ⟨fun h => find_of_length_cut ha (by rw [h]), cut_eq_self⟩

/-- A run in front of what cannot begin in it is taken whole. -/
theorem ends_run_seq {p : α → Bool} {least : Nat} {most : Option Nat} {b : Pattern α}
    (hb : ∀ c t, p c = true → b.ends (c :: t) = []) (s : List α) :
    (seq (run p least most true) b).ends s =
      if least ≤ (s.takeWhile p).length ∧ ∀ m ∈ most, (s.takeWhile p).length ≤ m then
        (b.ends (s.drop (s.takeWhile p).length)).map ((s.takeWhile p).length + ·)
      else [] := by
  have hshort : ∀ i < (s.takeWhile p).length, b.ends (s.drop i) = [] := by
    intro i hi
    have hlt : i < s.length := Nat.lt_of_lt_of_le hi (s.takeWhile_sublist p).length_le
    have hpre : s.takeWhile p <+: s := List.takeWhile_prefix p
    have hget : (s.takeWhile p)[i] = s[i] := hpre.getElem hi
    rw [List.drop_eq_getElem_cons hlt]
    exact hb _ _ (List.mem_takeWhile_imp (hget ▸ List.getElem_mem hi))
  generalize hn : (s.takeWhile p).length = n at hshort
  have hbefore : ∀ k ≤ n, ∀ ns : List Nat, (∀ i ∈ ns, i < k) →
      (ns.flatMap fun i => (b.ends (s.drop i)).map (i + ·)) = [] := fun k hk ns hns =>
    List.flatMap_eq_nil_iff.mpr fun i hi => by
      rw [hshort i (Nat.lt_of_lt_of_le (hns i hi) hk), List.map_nil]
  have hmax : most.elim n (min n) ≤ n := by
    cases most with
    | none => exact Nat.le_refl _
    | some m => exact Nat.min_le_left _ _
  have hends : (run p least most true).ends s =
      ((List.range (most.elim n (min n) + 1)).filter (least ≤ ·)).reverse := by
    simp only [ends, hn, if_true]
  rw [ends_seq, hends]
  split_ifs with hcond
  · have hwhole : most.elim n (min n) = n := by
      cases most with
      | none => rfl
      | some m => exact Nat.min_eq_left (hcond.2 m rfl)
    rw [hwhole, List.range_succ, List.filter_append, List.reverse_append,
      List.filter_cons_of_pos (by simpa using hcond.1), List.filter_nil, List.reverse_singleton,
      List.singleton_append, List.flatMap_cons, hbefore n (Nat.le_refl _), List.append_nil]
    intro i hi
    exact List.mem_range.mp (List.mem_filter.mp (List.mem_reverse.mp hi)).1
  · refine List.flatMap_eq_nil_iff.mpr fun i hi => ?_
    obtain ⟨hrange, hleast⟩ := List.mem_filter.mp (List.mem_reverse.mp hi)
    have hle := List.mem_range.mp hrange
    have hlt : i < n := by
      refine Nat.lt_of_le_of_ne (by omega) fun heq => hcond ⟨heq ▸ of_decide_eq_true hleast, ?_⟩
      rintro m rfl
      simp only [Option.elim_some] at hle
      omega
    rw [hshort i hlt, List.map_nil]

/-- One pattern matches as another does behind `k` elements. -/
theorem find_of_ends {a b : Pattern α} {s : List α} {k : Nat}
    (h : a.ends s = (b.ends (s.drop k)).map (k + ·)) :
    a.find s = (b.find (s.drop k)).map (k + ·) := by
  rw [find, find, h, List.head?_map]

theorem ends_seq_of_ends {a b : Pattern α} {s : List α} {k : Nat} (h : a.ends s = [k]) :
    (seq a b).ends s = (b.ends (s.drop k)).map (k + ·) := by
  rw [ends_seq, h, List.flatMap_cons, List.flatMap_nil, List.append_nil]

theorem find_run_seq {p : α → Bool} {least : Nat} {most : Option Nat} {b : Pattern α}
    (hb : ∀ c t, p c = true → b.ends (c :: t) = []) {u v : List α} (hu : ∀ c ∈ u, p c)
    (hv : ∀ c ∈ v.head?, p c = false) (hleast : least ≤ u.length)
    (hmost : ∀ m ∈ most, u.length ≤ m) :
    (seq (run p least most true) b).find (u ++ v) = (b.find v).map (u.length + ·) := by
  have hends : (seq (run p least most true) b).ends (u ++ v) = _ := ends_run_seq hb (u ++ v)
  rw [takeWhile_append_head hu hv, if_pos ⟨hleast, hmost⟩] at hends
  rw [find_of_ends hends, List.drop_left]

theorem head_dropWhile {p : α → Bool} {s : List α} {c : α} (h : c ∈ (s.dropWhile p).head?) :
    p c = false := by
  have hnot := List.head?_dropWhile_not p s
  rw [h] at hnot
  exact hnot

theorem find_plus (p : α → Bool) (s : List α) : (plus p).find s =
    if s.takeWhile p = [] then none else some (s.takeWhile p).length := by
  split_ifs with h
  · refine find_eq_none_iff.mpr (List.eq_nil_iff_forall_not_mem.mpr fun n hn => ?_)
    have hle := mem_ends_run.mp hn
    rw [h] at hle
    exact absurd (Nat.le_trans hle.2.2 hle.1) (by simp)
  · obtain ⟨ns, hns⟩ := ends_plus_append (s := s.dropWhile p)
      (fun c => List.mem_takeWhile_imp) h fun c => head_dropWhile
    rw [List.takeWhile_append_dropWhile] at hns
    rw [find, hns]
    rfl

/-- The match ends with all there is of `p`, and the other matches stop in front of a `p`. -/
def TakesRun (p : α → Bool) (a : Pattern α) (s : List α) : Prop :=
  ∀ m, a.find s = some m → (∀ c ∈ (s.drop m).head?, p c = false) ∧
    ∀ n ∈ a.ends s, n = m ∨ ∃ c ∈ (s.drop n).head?, p c = true

theorem takesRun_run (p : α → Bool) (least : Nat) (s : List α) :
    TakesRun p (run p least none true) s := by
  intro m hm
  have hdrop : (s.takeWhile p ++ s.dropWhile p).drop (s.takeWhile p).length = s.dropWhile p :=
    List.drop_left
  rw [List.takeWhile_append_dropWhile] at hdrop
  have hall : m = (s.takeWhile p).length := by
    have hle := (mem_ends_run.mp (List.mem_of_mem_head? hm)).2.2
    have hmax := (mem_ends_run.mp (List.mem_of_mem_head? hm)).1
    have hpos : decide (least ≤ (s.takeWhile p).length) = true :=
      decide_eq_true (Nat.le_trans hle hmax)
    simpa [find, ends, List.range_succ, hpos, eq_comm] using hm
  subst hall
  refine ⟨fun c hc => head_dropWhile (hdrop ▸ hc), fun n hn => ?_⟩
  rcases Nat.lt_or_eq_of_le (mem_ends_run.mp hn).1 with hlt | heq
  · have hpre : s.takeWhile p <+: s := List.takeWhile_prefix p
    have hget : (s.takeWhile p)[n] = s.get ⟨n, Nat.lt_of_lt_of_le hlt hpre.length_le⟩ :=
      hpre.getElem hlt
    refine .inr ⟨_, ?_, List.mem_takeWhile_imp (List.getElem_mem hlt)⟩
    rw [hget, List.drop_eq_getElem_cons (Nat.lt_of_lt_of_le hlt hpre.length_le)]
    rfl
  · exact .inl heq

theorem takesRun_of_nil {p : α → Bool} {a : Pattern α} {s : List α} (h : a.ends s = []) :
    TakesRun p a s := fun m hm => by
  rw [find, h] at hm
  simp at hm

theorem takesRun_of_ends {p : α → Bool} {a b : Pattern α} {s : List α} {k : Nat}
    (h : a.ends s = (b.ends (s.drop k)).map (k + ·)) (hb : TakesRun p b (s.drop k)) :
    TakesRun p a s := by
  intro m hm
  rw [find_of_ends h] at hm
  obtain ⟨j, hj, rfl⟩ := Option.map_eq_some_iff.mp hm
  obtain ⟨hhead, hends⟩ := hb j hj
  rw [List.drop_drop] at hhead
  refine ⟨hhead, fun n hn => ?_⟩
  rw [h] at hn
  obtain ⟨i, hi, rfl⟩ := List.mem_map.mp hn
  refine (hends i hi).imp (congrArg (k + ·)) fun hsome => ?_
  rwa [List.drop_drop] at hsome

theorem test_seq {a b : Pattern α} {s : List α} :
    (seq a b).test s = true ↔ ∃ n ∈ a.ends s, b.test (s.drop n) = true := by
  have hany : ∀ {c : Pattern α} {t : List α}, c.test t = true ↔ ∃ n, n ∈ c.ends t := by
    intro c t
    rw [test, find, List.isSome_head?]
    exact ⟨List.exists_mem_of_ne_nil _, fun ⟨n, hn⟩ => List.ne_nil_of_mem hn⟩
  simp only [hany, mem_ends_seq]
  constructor
  · rintro ⟨_, i, hi, j, hj, rfl⟩
    exact ⟨i, hi, j, hj⟩
  · rintro ⟨i, hi, j, hj⟩
    exact ⟨_, i, hi, j, hj, rfl⟩

/-- Behind such a match only what begins with no `p` needs to be looked for at its end. -/
theorem test_seq_of_takesRun {p : α → Bool} {a b : Pattern α} {s : List α} (h : TakesRun p a s)
    (hb : ∀ c t, p c = true → b.test (c :: t) = false) :
    (seq a b).test s = true ↔ a.test s = true ∧ b.test (a.cut s) = true := by
  rw [test_seq]
  constructor
  · rintro ⟨n, hn, htest⟩
    have hsome : (a.find s).isSome := by simpa [find] using List.ne_nil_of_mem hn
    obtain ⟨m, hm⟩ := Option.isSome_iff_exists.mp hsome
    rw [cut_eq_drop hm]
    refine ⟨hsome, ?_⟩
    rcases (h m hm).2 n hn with rfl | ⟨c, hc, hp⟩
    · exact htest
    · obtain ⟨t, ht⟩ := List.head?_eq_some_iff.mp hc
      rw [ht, hb c t hp] at htest
      simp at htest
  · rintro ⟨hsome, htest⟩
    obtain ⟨m, hm⟩ := Option.isSome_iff_exists.mp hsome
    rw [cut_eq_drop hm] at htest
    exact ⟨m, List.mem_of_mem_head? hm, htest⟩

theorem cut_star (p : α → Bool) (s : List α) : (star p).cut s = s.dropWhile p := by
  have hfind : (star p).find s = some (s.takeWhile p).length := by
    simp [star, find, ends, List.range_succ]
  have hdrop : (s.takeWhile p ++ s.dropWhile p).drop (s.takeWhile p).length = s.dropWhile p :=
    List.drop_left
  rw [List.takeWhile_append_dropWhile] at hdrop
  rw [cut_eq_drop hfind, hdrop]

theorem test_star_seq {p : α → Bool} {b : Pattern α} {s : List α}
    (hb : ∀ c t, p c = true → b.test (c :: t) = false) :
    (seq (star p) b).test s = true ↔ b.test (s.dropWhile p) = true := by
  have hrun : TakesRun p (star p) s := takesRun_run p 0 s
  rw [test_seq_of_takesRun hrun hb, cut_star]
  exact and_iff_right (by simp [test, find, star, ends, List.range_succ])

theorem ends_nothing (s : List α) : (run (fun _ => false) 0 (some 0) true).ends s = [0] := by
  have hnone : s.takeWhile (fun _ => false) = [] := by cases s <;> rfl
  simp [ends, hnone]

theorem test_seq_optional {a b : Pattern α} {s : List α} :
    (seq (optional a) b).test s = true ↔ (seq a b).test s = true ∨ b.test s = true := by
  simp [test_seq, optional, ends_alt, ends_nothing, or_and_right, exists_or]

/-- Where what follows begins otherwise, a match that can be cut has to be. -/
theorem test_optional_of_takesRun {p : α → Bool} {a b : Pattern α} {s : List α}
    (h : TakesRun p a s) (hb : ∀ c t, p c = true → b.test (c :: t) = false)
    (hab : a.test s = true → b.test s = false) :
    (seq (optional a) b).test s = true ↔ b.test (a.cut s) = true := by
  rw [test_seq_optional, test_seq_of_takesRun h hb]
  cases ha : a.test s with
  | true => simp [hab ha]
  | false => simp [cut_eq_self (Option.not_isSome_iff_eq_none.mp (by simpa [test] using ha))]

theorem matches_optional {a : Pattern α} {s : List α} :
    (optional a).Matches s ↔ a.Matches s ∨ s = [] := by
  rw [optional, matches_alt, Matches, Matches, ends_nothing, List.mem_singleton,
    List.length_eq_zero_iff]

/-- What is cut is a match, if anything is. -/
theorem optional_cut (a : Pattern α) (s : List α) :
    ∃ u, s = u ++ a.cut s ∧ (optional a).Matches u := by
  cases hfind : a.find s with
  | none => exact ⟨[], by rw [cut_eq_self hfind]; rfl, matches_optional.mpr (.inr rfl)⟩
  | some n =>
    have hmem : n ∈ a.ends s := List.mem_of_mem_head? hfind
    refine ⟨s.take n, by rw [cut_eq_drop hfind, List.take_append_drop], ?_⟩
    rw [matches_optional, Matches, List.length_take, Nat.min_eq_left (a.ends_le s hmem)]
    exact .inl ((a.mem_ends_take s (Nat.le_refl n)).mpr hmem)

/-- The match is the one in front of what begins with no `p`. -/
theorem cut_of_takesRun {p : α → Bool} {a : Pattern α} {u v : List α} (h : TakesRun p a (u ++ v))
    (hu : a.Matches u) (hv : ∀ c ∈ v.head?, p c = false) : a.cut (u ++ v) = v := by
  have hmem : u.length ∈ a.ends (u ++ v) := by
    rw [← a.mem_ends_take (u ++ v) (Nat.le_refl _), List.take_left]
    exact hu
  obtain ⟨m, hm⟩ := Option.isSome_iff_exists.mp
    (show (a.find (u ++ v)).isSome by simpa [find] using List.ne_nil_of_mem hmem)
  rcases (h m hm).2 _ hmem with rfl | ⟨c, hc, hp⟩
  · rw [cut_eq_drop hm, List.drop_left]
  · rw [List.drop_left] at hc
    rw [hv c hc] at hp
    simp at hp

theorem test_one {p : α → Bool} {s : List α} :
    (one p).test s = true ↔ ∃ c ∈ s.head?, p c = true := by
  cases s with
  | nil => simp [test, find, one, ends]
  | cons c s =>
    cases hc : p c with
    | true => simp [test, find, ends_one_cons hc, hc]
    | false =>
      have hnil : (one p).ends (c :: s) = [] := ends_run_cons_neg hc
      simp [test, find, hnil, hc]

theorem test_eq_false_iff {a : Pattern α} {s : List α} : a.test s = false ↔ a.find s = none := by
  simp [test]

theorem test_alt {a b : Pattern α} {s : List α} :
    (alt a b).test s = true ↔ a.test s = true ∨ b.test s = true := by
  simp only [test, find, ends_alt, List.head?_append, Option.isSome_or, Bool.or_eq_true]

/-! ### Parts -/

theorem findSome?_eq_of {β : Type*} {f : Nat → Option β} {ns : List Nat} {m : Nat} (hm : m ∈ ns)
    (h : ∀ n ∈ ns, n ≠ m → f n = none) : ns.findSome? f = f m := by
  induction ns with
  | nil => simp at hm
  | cons n ns ih =>
    rw [List.findSome?_cons]
    by_cases hn : n = m
    · subst hn
      cases hf : f n with
      | some b => rfl
      | none =>
        refine List.findSome?_eq_none_iff.mpr fun k hk => ?_
        by_cases hkn : k = n
        · rw [hkn, hf]
        · exact h k (List.mem_cons_of_mem n hk) hkn
    · rw [h n List.mem_cons_self hn]
      exact ih ((List.mem_cons.mp hm).resolve_left (Ne.symm hn)) fun k hk =>
        h k (List.mem_cons_of_mem n hk)

theorem parts_of_ends {a : Pattern α} {as : List (Pattern α)} {s : List α} {k : Nat}
    (h : a.ends s = [k]) : parts (a :: as) s = (parts as (s.drop k)).map (s.take k :: ·) := by
  rw [parts, h, List.findSome?_singleton]

theorem parts_of_nil {a : Pattern α} {as : List (Pattern α)} {s : List α} (h : a.ends s = []) :
    parts (a :: as) s = none := by
  rw [parts, h, List.findSome?_nil]

theorem parts_literal [DecidableEq α] (w : List α) (as : List (Pattern α)) (s : List α) :
    parts (literal w :: as) (w ++ s) = (parts as s).map (w :: ·) := by
  rw [parts_of_ends (ends_literal w s), List.drop_left, List.take_left]

/-- A run that cannot begin is an empty part. -/
theorem parts_skip {p : α → Bool} {most : Option Nat} {c : α} (hp : p c = false)
    (as : List (Pattern α)) (s : List α) :
    parts (run p 0 most true :: as) (c :: s) = (parts as (c :: s)).map ([] :: ·) := by
  have hends : (run p 0 most true).ends (c :: s) = [0] := by
    cases most <;> simp [ends, hp]
  rw [parts_of_ends hends]
  rfl

theorem parts_of_mem {a : Pattern α} {as : List (Pattern α)} {s : List α} {m : Nat}
    (hm : m ∈ a.ends s) (h : ∀ n ∈ a.ends s, n ≠ m → parts as (s.drop n) = none) :
    parts (a :: as) s = (parts as (s.drop m)).map (s.take m :: ·) := by
  rw [parts]
  exact findSome?_eq_of hm fun n hn hne => by rw [h n hn hne, Option.map_none]

/-- A match of one kind of element, in front of what cannot begin with it, is a part as a whole. -/
theorem parts_whole {p : α → Bool} {a : Pattern α} {as : List (Pattern α)} {u v : List α}
    (ha : ∀ t, a.Matches t → ∀ c ∈ t, p c = true)
    (has : ∀ c t, p c = true → parts as (c :: t) = none) (hu : a.Matches u)
    (hv : ∀ c ∈ v.head?, p c = false) :
    parts (a :: as) (u ++ v) = (parts as v).map (u :: ·) := by
  have hmem : u.length ∈ a.ends (u ++ v) := by
    have htake := (a.mem_ends_take (u ++ v) (Nat.le_refl u.length)).mp
    rw [List.take_left] at htake
    exact htake hu
  rw [parts_of_mem hmem fun n hn hne => ?_, List.drop_left, List.take_left]
  have hmatch : a.Matches ((u ++ v).take n) := by
    rw [Matches, List.length_take, Nat.min_eq_left (ends_le _ _ hn)]
    exact (a.mem_ends_take _ (Nat.le_refl n)).mpr hn
  rcases Nat.lt_or_gt_of_ne hne with hlt | hgt
  · have hget : u[n] ∈ u := List.getElem_mem hlt
    rw [List.drop_append_of_le_length (Nat.le_of_lt hlt), List.drop_eq_getElem_cons hlt,
      List.cons_append, has _ _ (ha u hu _ hget)]
  · obtain ⟨k, rfl⟩ := Nat.exists_eq_add_of_lt hgt
    cases v with
    | nil =>
      have := ends_le _ _ hn
      rw [List.append_nil] at this
      omega
    | cons c v =>
      have hc := ha _ hmatch c (by
        rw [Nat.add_assoc, List.take_length_add_append, List.take_succ_cons]
        simp)
      rw [hv c rfl] at hc
      simp at hc

/-- A run in front of what cannot begin in it is a part as a whole. -/
theorem parts_run {p : α → Bool} {least : Nat} {most : Option Nat} {as : List (Pattern α)}
    {u v : List α} (has : ∀ c t, p c = true → parts as (c :: t) = none) (hu : ∀ c ∈ u, p c)
    (hv : ∀ c ∈ v.head?, p c = false) (hleast : least ≤ u.length)
    (hmost : ∀ m ∈ most, u.length ≤ m) :
    parts (run p least most true :: as) (u ++ v) = (parts as v).map (u :: ·) :=
  parts_whole (fun _ ht => (matches_run.mp ht).1) has (matches_run.mpr ⟨hu, hmost, hleast⟩) hv

theorem parts_single (a : Pattern α) (s : List α) :
    parts [a] s = if a.Matches s then some [s] else none := by
  have hrest : ∀ n ∈ a.ends s, n ≠ s.length → parts [] (s.drop n) = none := fun n hn hne => by
    have hlt := Nat.lt_of_le_of_ne (ends_le _ _ hn) hne
    rw [parts, List.isEmpty_eq_false_iff.mpr (by simpa using hlt), if_neg Bool.false_ne_true]
  split_ifs with hmatch
  · rw [parts_of_mem hmatch hrest, List.drop_length, List.take_length]
    rfl
  · refine List.findSome?_eq_none_iff.mpr fun n hn => ?_
    have hne : n ≠ s.length := fun heq => hmatch (by rwa [heq] at hn)
    rw [hrest n hn hne, Option.map_none]

theorem parts_star (q : α → Bool) (s : List α) :
    parts [star q] s = if s.all q then some [s] else none := by
  rw [parts_single]
  simp only [matches_star, List.all_eq_true]

/-- What is behind a run, where all of it is of one kind. -/
theorem parts_star_star (p q : α → Bool) (s : List α) : parts [star p, star q] s =
    if (s.dropWhile p).all q then some [s.takeWhile p, s.dropWhile p] else none := by
  have hdrop : (s.takeWhile p ++ s.dropWhile p).drop (s.takeWhile p).length = s.dropWhile p :=
    List.drop_left
  have htake : (s.takeWhile p ++ s.dropWhile p).take (s.takeWhile p).length = s.takeWhile p :=
    List.take_left
  rw [List.takeWhile_append_dropWhile] at hdrop htake
  split_ifs with hall
  · have hfind : (star p).find s = some (s.takeWhile p).length := by
      simp [star, find, ends, List.range_succ]
    obtain ⟨ns, hns⟩ := List.head?_eq_some_iff.mp hfind
    rw [parts, hns, List.findSome?_cons, hdrop, parts_star, if_pos hall, htake]
    rfl
  · refine List.findSome?_eq_none_iff.mpr fun n hn => ?_
    rw [parts_star, if_neg fun h => hall ?_, Option.map_none]
    have hle := (mem_ends_run.mp hn).1
    refine List.all_eq_true.mpr fun c hc => List.all_eq_true.mp h c ?_
    rw [← hdrop] at hc
    exact (List.drop_suffix_drop_left s hle).subset hc

end Pattern

end Mdock.Lib
