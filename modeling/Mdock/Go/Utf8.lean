import Mdock.Go.Strings

/-! `utf8.Valid` on a text and its parts: runes are cut off at either end. -/
namespace Mdock.Go

theorem foldl_utf8Step_none (s : Bytes) : s.foldl utf8Step none = none := by
  induction s with
  | nil => rfl
  | cons b s ih => exact ih

/-- A rune under way takes as many bytes as it needs. -/
theorem foldl_utf8Step_split {ranges : List (UInt8 × UInt8)} {s : Bytes}
    (h : s.foldl utf8Step (some ranges) = some []) :
    (s.take ranges.length).foldl utf8Step (some ranges) = some [] ∧
      (s.take ranges.length).length = ranges.length ∧ utf8Valid (s.drop ranges.length) := by
  induction ranges generalizing s with
  | nil => exact ⟨rfl, rfl, by simpa [utf8Valid] using h⟩
  | cons r ranges ih =>
    cases s with
    | nil => cases h
    | cons b s =>
      rw [List.foldl_cons, utf8Step] at h
      by_cases hb : r.1 ≤ b ∧ b ≤ r.2
      · rw [if_pos hb] at h
        obtain ⟨htake, hlen, hdrop⟩ := ih h
        refine ⟨?_, ?_, hdrop⟩
        · rw [List.length_cons, List.take_succ_cons, List.foldl_cons, utf8Step, if_pos hb]
          exact htake
        · rw [List.length_cons, List.take_succ_cons, List.length_cons, hlen]
      · rw [if_neg hb, foldl_utf8Step_none] at h
        cases h

theorem utf8Valid_tail {b : UInt8} {s : Bytes} (hb : b < 0x80) (h : utf8Valid (b :: s)) :
    utf8Valid s := by
  simpa [utf8Valid, utf8Step, runeTail, hb] using h

theorem utf8Valid_append_right {r s : Bytes} (hr : utf8Valid r) (h : utf8Valid (r ++ s)) :
    utf8Valid s := by
  have hfold : r.foldl utf8Step (some []) = some [] := of_decide_eq_true hr
  rw [utf8Valid, List.foldl_append, hfold] at h
  exact h

/-- What a rune under way still needs are bytes that continue one. -/
def Continues (pending : Option (List (UInt8 × UInt8))) : Prop :=
  ∀ ranges, pending = some ranges → ∀ r ∈ ranges, 0x80 ≤ r.1 ∧ r.2 ≤ 0xBF

theorem continues_runeTail (b : UInt8) : Continues (runeTail b) := by
  intro ranges h
  unfold runeTail at h
  split_ifs at h <;> cases h <;> simp

theorem continues_foldl {pending : Option (List (UInt8 × UInt8))} (h : Continues pending)
    (s : Bytes) : Continues (s.foldl utf8Step pending) := by
  induction s generalizing pending with
  | nil => exact h
  | cons b s ih =>
    refine ih ?_
    match pending with
    | none => exact fun ranges he => by cases he
    | some [] => exact continues_runeTail b
    | some (range :: rest) =>
      intro ranges he
      rw [utf8Step] at he
      split at he
      · cases he
        exact fun r hr => h _ rfl r (List.mem_cons_of_mem range hr)
      · cases he

/-- A byte that continues no rune begins one. -/
theorem utf8Valid_append_left {t s : Bytes} {b : UInt8} (hb : ¬ (0x80 ≤ b ∧ b ≤ 0xBF))
    (h : utf8Valid (t ++ b :: s)) : utf8Valid t := by
  have hfold : (b :: s).foldl utf8Step (t.foldl utf8Step (some [])) = some [] := by
    rw [← List.foldl_append]
    exact of_decide_eq_true h
  have hcont : Continues (t.foldl utf8Step (some [])) :=
    continues_foldl (by rintro ranges ⟨rfl⟩ r hr; cases hr) t
  refine decide_eq_true ?_
  generalize t.foldl utf8Step (some []) = pending at hfold hcont
  match pending with
  | none =>
    rw [foldl_utf8Step_none] at hfold
    cases hfold
  | some [] => rfl
  | some (range :: rest) =>
    obtain ⟨hlow, hhigh⟩ := hcont _ rfl range List.mem_cons_self
    have hout : ¬ (range.1 ≤ b ∧ b ≤ range.2) :=
      fun hin => hb ⟨hlow.trans hin.1, hin.2.trans hhigh⟩
    rw [List.foldl_cons, utf8Step, if_neg hout, foldl_utf8Step_none] at hfold
    cases hfold

theorem dropRunes_induction {P : Bytes → Prop} {rs : List Bytes}
    (h : ∀ r ∈ rs, ∀ t, P (r ++ t) → P t) (fuel : Nat) {s : Bytes} (hs : P s) :
    P (dropRunes rs fuel s) := by
  induction fuel generalizing s with
  | zero => exact hs
  | succ fuel ih =>
    rw [dropRunes]
    split
    · exact hs
    · rename_i r hr
      have hp := List.find?_some hr
      obtain ⟨t, rfl⟩ := List.isPrefixOf_iff_prefix.mp hp
      rw [List.drop_left]
      exact ih (h r (List.mem_of_find?_eq_some hr) t hs)

theorem spaceRunes_valid : ∀ r ∈ spaceRunes, utf8Valid r = true ∧
    r.head?.any (fun b => decide (b < 0x80 ∨ 0xBF < b)) = true := by decide

theorem utf8Valid_trimSpace {s : Bytes} (h : utf8Valid s) : utf8Valid (trimSpace s) := by
  have hleft : utf8Valid (dropRunes spaceRunes s.length s) :=
    dropRunes_induction (P := fun s => utf8Valid s)
      (fun r hr t => utf8Valid_append_right (spaceRunes_valid r hr).1) _ h
  refine dropRunes_induction (P := fun s => utf8Valid s.reverse) ?_ _
    (by rwa [List.reverse_reverse])
  intro r hr t ht
  obtain ⟨u, hu, rfl⟩ := List.mem_map.mp hr
  obtain ⟨b, hb, hlead⟩ := (Option.any_eq_true _ _).mp (spaceRunes_valid u hu).2
  obtain ⟨u, rfl⟩ := List.head?_eq_some_iff.mp hb
  rw [List.reverse_append, List.reverse_reverse] at ht
  refine utf8Valid_append_left ?_ ht
  rintro ⟨hlow, hhigh⟩
  exact (of_decide_eq_true hlead).elim (not_lt.mpr hlow) (not_lt.mpr hhigh)

end Mdock.Go
