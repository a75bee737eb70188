import Mathlib.Data.List.Lex
import Mathlib.Data.List.TakeWhile
import Mathlib.Order.Lattice

/-! The lexicographic order on words, as a byte-wise comparison of texts decides it:
cancelling equal prefixes, numerals of fixed width, and words closed by a terminator. -/
namespace Mdock.Lib
variable {α : Type*}

/-- A proper prefix is continued by some letter. -/
theorem exists_continuation {u v : List α} (h : u <+: v) (hne : u ≠ v) :
    ∃ a s, v = u ++ a :: s := by
  obtain ⟨s, rfl⟩ := h
  cases s with
  | nil => simp at hne
  | cons a s => exact ⟨a, s, rfl⟩

variable [LinearOrder α]

theorem append_lt_append_left (u s t : List α) : u ++ s < u ++ t ↔ s < t := by
  induction u with
  | nil => rfl
  | cons a u ih => simp [ih]

/-- The first difference decides. -/
theorem lt_at_difference {a b : α} (h : a ≠ b) (u s t : List α) :
    u ++ a :: s < u ++ b :: t ↔ a < b := by
  rw [append_lt_append_left, List.cons_lt_cons_iff]
  simp [h]

theorem append_lt_append_of_lt {u v : List α} (hlen : u.length = v.length) (h : u < v)
    (s t : List α) : u ++ s < v ++ t := by
  induction u generalizing v with
  | nil =>
    cases v with
    | nil => exact absurd h (List.not_lt_nil _)
    | cons b v => simp at hlen
  | cons a u ih =>
    cases v with
    | nil => exact absurd h (List.not_lt_nil _)
    | cons b v =>
      simp only [List.cons_append, List.cons_lt_cons_iff] at h ⊢
      rcases h with hab | ⟨rfl, h⟩
      · exact .inl hab
      · exact .inr ⟨rfl, ih (by simpa using hlen) h⟩

theorem exists_difference {u v : List α} (huv : ¬ u <+: v) (hvu : ¬ v <+: u) :
    ∃ w a b s t, a ≠ b ∧ u = w ++ a :: s ∧ v = w ++ b :: t := by
  induction u generalizing v with
  | nil => exact absurd (List.nil_prefix) huv
  | cons a u ih =>
    cases v with
    | nil => exact absurd (List.nil_prefix) hvu
    | cons b v =>
      by_cases hab : a = b
      · subst hab
        obtain ⟨w, x, y, s, t, hxy, hu, hv⟩ := ih (v := v)
          (fun h => huv ((List.prefix_cons_inj a).mpr h))
          (fun h => hvu ((List.prefix_cons_inj a).mpr h))
        exact ⟨a :: w, x, y, s, t, hxy, by simp [hu], by simp [hv]⟩
      · exact ⟨[], a, b, u, v, hab, rfl, rfl⟩

/-- Closing two words by a separator that sorts below every letter of their tails
does not change how they compare. -/
theorem lt_closed_below {c : α} {u v : List α} (hne : u ≠ v) (hu : u ≠ []) (hv : v ≠ [])
    (hcu : ∀ a ∈ u.tail, c < a) (hcv : ∀ a ∈ v.tail, c < a) (s t : List α) :
    u ++ c :: s < v ++ c :: t ↔ u < v := by
  -- a letter that continues a nonempty word lies in the longer word's tail
  have htail : ∀ {x y : List α} {a : α} {r : List α}, x ≠ [] → y = x ++ a :: r → a ∈ y.tail := by
    intro x y a r hx hy
    cases x with
    | nil => exact absurd rfl hx
    | cons b x => simp [hy]
  by_cases hpu : u <+: v
  · obtain ⟨a, r, rfl⟩ := exists_continuation hpu hne
    have hca := hcv a (htail hu rfl)
    rw [List.append_assoc, List.cons_append, lt_at_difference hca.ne]
    have : u ++ [] < u ++ a :: r := (append_lt_append_left u [] _).mpr (List.nil_lt_cons a r)
    rw [List.append_nil] at this
    exact iff_of_true hca this
  · by_cases hpv : v <+: u
    · obtain ⟨a, r, rfl⟩ := exists_continuation hpv (Ne.symm hne)
      have hca := hcu a (htail hv rfl)
      rw [List.append_assoc, List.cons_append, lt_at_difference hca.ne']
      have : v ++ [] < v ++ a :: r := (append_lt_append_left v [] _).mpr (List.nil_lt_cons a r)
      rw [List.append_nil] at this
      exact iff_of_false (not_lt_of_gt hca) (not_lt_of_gt this)
    · obtain ⟨w, a, b, x, y, hab, rfl, rfl⟩ := exists_difference hpu hpv
      simp only [List.append_assoc, List.cons_append, lt_at_difference hab]

/-- Words closed by a terminator above all letters compare as without it, unless one
is a prefix of the other: then the longer one sorts first. -/
theorem lt_closed_above {z : α} {u v : List α} (huv : ¬ u <+: v) (hvu : ¬ v <+: u) :
    u ++ [z] < v ++ [z] ↔ u < v := by
  obtain ⟨w, a, b, x, y, hab, rfl, rfl⟩ := exists_difference huv hvu
  simp only [List.append_assoc, List.cons_append, lt_at_difference hab]

theorem lt_of_prefix_closed {z : α} {u v : List α} (h : u <+: v) (hne : u ≠ v)
    (hv : ∀ a ∈ v, a < z) : v ++ [z] < u ++ [z] := by
  obtain ⟨a, r, rfl⟩ := exists_continuation h hne
  have haz : a < z := hv a (by simp)
  rw [List.append_assoc, List.cons_append, lt_at_difference haz.ne]
  exact haz

/-- Drop the trailing letters equal to `o`. -/
def trimEnd (o : α) (u : List α) : List α := (u.reverse.dropWhile fun a => decide (a = o)).reverse

theorem trimEnd_append (o : α) (u : List α) :
    ∃ k, u = trimEnd o u ++ List.replicate k o := by
  refine ⟨(u.reverse.takeWhile fun a => decide (a = o)).length, ?_⟩
  have htake : u.reverse.takeWhile (fun a => decide (a = o)) =
      List.replicate (u.reverse.takeWhile fun a => decide (a = o)).length o := by
    rw [List.eq_replicate_iff]
    exact ⟨rfl, fun a ha => by simpa using List.mem_takeWhile_imp ha⟩
  have h := List.takeWhile_append_dropWhile (p := fun a => decide (a = o)) (l := u.reverse)
  calc
    u = (u.reverse.takeWhile (fun a => decide (a = o)) ++
          u.reverse.dropWhile fun a => decide (a = o)).reverse := by rw [h, List.reverse_reverse]
    _ = _ := by
        rw [List.reverse_append, htake, List.reverse_replicate]
        simp [trimEnd]

theorem replicate_le {o : α} : ∀ {k : Nat} {w : List α}, w.length = k → (∀ a ∈ w, o ≤ a) →
    ¬ w < List.replicate k o
  | 0, w, hk, _ => by simp
  | k + 1, [], hk, _ => by simp at hk
  | k + 1, a :: w, hk, hw => by
    rw [List.replicate_succ, List.cons_lt_cons_iff]
    rintro (h | ⟨-, h⟩)
    · exact absurd h (not_lt_of_ge (hw a (by simp)))
    · exact replicate_le (by simpa using hk) (fun b hb => hw b (List.mem_cons_of_mem a hb)) h

/-- Of two words of one length over letters from `o` up, the one whose trimmed form is
a proper prefix of the other's is the smaller. -/
theorem lt_of_trimEnd_begins {o : α} {u v : List α} (hlen : u.length = v.length)
    (ho : ∀ a ∈ v, o ≤ a) (h : trimEnd o u <+: trimEnd o v) (hne : u ≠ v) : u < v := by
  obtain ⟨k, hu⟩ := trimEnd_append o u
  obtain ⟨l, hv⟩ := trimEnd_append o v
  obtain ⟨s, hs⟩ := h
  have hv' : v = trimEnd o u ++ (s ++ List.replicate l o) := by
    rw [← List.append_assoc, hs]
    exact hv
  have hw : (s ++ List.replicate l o).length = k := by
    have h1 := congrArg List.length hu
    have h2 := congrArg List.length hv'
    simp only [List.length_append, List.length_replicate] at h1 h2 ⊢
    omega
  have hle : ¬ v < u := by
    rw [hu, hv', append_lt_append_left]
    exact replicate_le hw fun a ha => ho a (by rw [hv']; exact List.mem_append_right _ ha)
  exact lt_of_le_of_ne (not_lt.mp hle) hne

theorem trimEnd_injOn {o : α} {u v : List α} (hlen : u.length = v.length)
    (h : trimEnd o u = trimEnd o v) : u = v := by
  obtain ⟨k, hu⟩ := trimEnd_append o u
  obtain ⟨l, hv⟩ := trimEnd_append o v
  have hkl : k = l := by
    have h1 := congrArg List.length hu
    have h2 := congrArg List.length hv
    rw [h] at h1
    simp only [List.length_append, List.length_replicate] at h1 h2
    omega
  rw [hu, hv, h, hkl]

theorem lt_iff_trimEnd {o : α} {u v : List α} (huv : ¬ trimEnd o u <+: trimEnd o v)
    (hvu : ¬ trimEnd o v <+: trimEnd o u) : trimEnd o u < trimEnd o v ↔ u < v := by
  obtain ⟨k, hu⟩ := trimEnd_append o u
  obtain ⟨l, hv⟩ := trimEnd_append o v
  obtain ⟨w, a, b, s, t, hab, htu, htv⟩ := exists_difference huv hvu
  rw [htu] at hu
  rw [htv] at hv
  rw [htu, htv, hu, hv]
  simp only [List.append_assoc, List.cons_append, lt_at_difference hab]

end Mdock.Lib
