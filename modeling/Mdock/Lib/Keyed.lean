import Mathlib.Data.List.Nodup

/-! Tables whose rows carry a primary key. The key constraint is a field, so the
three statements that change a table (delete, upsert, update) keep it by construction. -/
namespace Mdock.Lib
variable {κ ρ : Type*} {key : ρ → κ}

structure Keyed (key : ρ → κ) where
  rows : List ρ
  nodup : (rows.map key).Nodup

namespace Keyed

def empty : Keyed key := ⟨[], by simp⟩

theorem eq_of_rows {t u : Keyed key} (h : t.rows = u.rows) : t = u := by
  cases t
  cases u
  cases h
  rfl

/-- `DELETE ... WHERE p`. -/
def deleteWhere (t : Keyed key) (p : ρ → Bool) : Keyed key where
  rows := t.rows.filter fun r => !p r
  nodup := (List.filter_sublist.map key).nodup t.nodup

@[simp] theorem mem_deleteWhere {t : Keyed key} {p : ρ → Bool} {r : ρ} :
    r ∈ (t.deleteWhere p).rows ↔ r ∈ t.rows ∧ p r = false := by
  simp [deleteWhere]

/-- `UPDATE ... SET f WHERE p`, for an `f` that leaves the key alone. -/
def updateWhere (t : Keyed key) (p : ρ → Bool) (f : ρ → ρ) (hf : ∀ r, key (f r) = key r) :
    Keyed key where
  rows := t.rows.map fun r => if p r then f r else r
  nodup := by
    have hk : (key ∘ fun r => if p r then f r else r) = key := by
      funext r
      by_cases h : p r <;> simp [h, hf]
    rw [List.map_map, hk]
    exact t.nodup

variable [DecidableEq κ]

/-- `SELECT ... WHERE key = k`. -/
def get? (t : Keyed key) (k : κ) : Option ρ := t.rows.find? fun r => decide (key r = k)

/-- `INSERT ... ON CONFLICT (key) DO UPDATE`. -/
def upsert (t : Keyed key) (r : ρ) : Keyed key where
  rows := if key r ∈ t.rows.map key then t.rows.map fun r' => if key r' = key r then r else r'
    else t.rows ++ [r]
  nodup := by
    split
    · have hk : (key ∘ fun r' => if key r' = key r then r else r') = key := by
        funext r'
        by_cases h : key r' = key r <;> simp [h]
      rw [List.map_map, hk]
      exact t.nodup
    · rename_i h
      rw [List.map_append, List.nodup_append]
      refine ⟨t.nodup, by simp, ?_⟩
      intro a ha b hb hab
      simp only [List.map_cons, List.map_nil, List.mem_singleton] at hb
      subst hab hb
      exact h ha

theorem key_of_get? {t : Keyed key} {k : κ} {r : ρ} (h : t.get? k = some r) : key r = k := by
  simpa using List.find?_some h

theorem mem_of_get? {t : Keyed key} {k : κ} {r : ρ} (h : t.get? k = some r) : r ∈ t.rows :=
  List.mem_of_find?_eq_some h

private theorem find?_of_mem_nodup {l : List ρ} (hn : (l.map key).Nodup) {r : ρ} (hr : r ∈ l) :
    l.find? (fun r' => decide (key r' = key r)) = some r := by
  induction l with
  | nil => simp at hr
  | cons a l ih =>
    rw [List.map_cons, List.nodup_cons] at hn
    rcases List.mem_cons.mp hr with rfl | hr
    · simp
    · have hne : key a ≠ key r := fun he => hn.1 (he ▸ List.mem_map_of_mem hr)
      rw [List.find?_cons_of_neg (by simpa using hne)]
      exact ih hn.2 hr

theorem get?_of_mem {t : Keyed key} {r : ρ} (h : r ∈ t.rows) : t.get? (key r) = some r :=
  find?_of_mem_nodup t.nodup h

theorem get?_eq_some_iff {t : Keyed key} {k : κ} {r : ρ} :
    t.get? k = some r ↔ r ∈ t.rows ∧ key r = k := by
  constructor
  · exact fun h => ⟨mem_of_get? h, key_of_get? h⟩
  · rintro ⟨hm, rfl⟩
    exact get?_of_mem hm

/-- A table is read through its keys: equal answers to one lookup. -/
theorem get?_congr {t u : Keyed key} {k : κ}
    (h : ∀ r, key r = k → (r ∈ t.rows ↔ r ∈ u.rows)) : t.get? k = u.get? k := by
  apply Option.ext
  intro r
  rw [get?_eq_some_iff, get?_eq_some_iff]
  constructor
  · exact fun ⟨hm, hk⟩ => ⟨(h r hk).mp hm, hk⟩
  · exact fun ⟨hm, hk⟩ => ⟨(h r hk).mpr hm, hk⟩

theorem get?_deleteWhere (t : Keyed key) (p : ρ → Bool) (k : κ) :
    (t.deleteWhere p).get? k = (t.get? k).filter fun r => !p r := by
  apply Option.ext
  intro r
  rw [get?_eq_some_iff, mem_deleteWhere, Option.filter_eq_some_iff, get?_eq_some_iff]
  simp only [Bool.not_eq_true']
  tauto

@[simp] theorem mem_upsert {t : Keyed key} {r r' : ρ} :
    r' ∈ (t.upsert r).rows ↔ r' = r ∨ (r' ∈ t.rows ∧ key r' ≠ key r) := by
  by_cases h : key r ∈ t.rows.map key
  · obtain ⟨r₀, hr₀, hk⟩ := List.mem_map.mp h
    simp only [upsert, h, if_true, List.mem_map]
    constructor
    · rintro ⟨a, ha, rfl⟩
      by_cases hak : key a = key r
      · simp [hak]
      · simp [hak, ha]
    · rintro (rfl | ⟨hm, hne⟩)
      · exact ⟨r₀, hr₀, by simp [hk]⟩
      · exact ⟨r', hm, by simp [hne]⟩
  · have hne : ∀ a ∈ t.rows, key a ≠ key r := fun a ha he => h (List.mem_map.mpr ⟨a, ha, he⟩)
    simp only [upsert, h, if_false, List.mem_append, List.mem_singleton]
    constructor
    · rintro (hm | rfl)
      · exact .inr ⟨hm, hne _ hm⟩
      · exact .inl rfl
    · rintro (rfl | ⟨hm, -⟩)
      · exact .inr rfl
      · exact .inl hm

theorem get?_upsert (t : Keyed key) (r : ρ) (k : κ) :
    (t.upsert r).get? k = if key r = k then some r else t.get? k := by
  by_cases h : key r = k
  · rw [if_pos h, get?_eq_some_iff]
    exact ⟨mem_upsert.mpr (.inl rfl), h⟩
  · rw [if_neg h]
    apply get?_congr
    intro r' hk
    rw [mem_upsert]
    constructor
    · rintro (rfl | ⟨hm, -⟩)
      · exact absurd hk h
      · exact hm
    · exact fun hm => .inr ⟨hm, fun he => h (he ▸ hk)⟩

theorem get?_upsert_self (t : Keyed key) (r : ρ) : (t.upsert r).get? (key r) = some r := by
  rw [get?_upsert, if_pos rfl]

theorem get?_updateWhere (t : Keyed key) (p : ρ → Bool) (f : ρ → ρ) (hf : ∀ r, key (f r) = key r)
    (k : κ) :
    (t.updateWhere p f hf).get? k = (t.get? k).map fun r => if p r then f r else r := by
  apply Option.ext
  intro r
  rw [get?_eq_some_iff, Option.map_eq_some_iff]
  simp only [updateWhere, List.mem_map, get?_eq_some_iff]
  constructor
  · rintro ⟨⟨a, ha, rfl⟩, hk⟩
    refine ⟨a, ⟨ha, ?_⟩, rfl⟩
    by_cases hp : p a <;> simpa [hp, hf] using hk
  · rintro ⟨a, ⟨ha, hk⟩, rfl⟩
    refine ⟨⟨a, ha, rfl⟩, ?_⟩
    by_cases hp : p a <;> simpa [hp, hf] using hk

theorem isSome_get?_foldl_upsert (t : Keyed key) (rs : List ρ) (k : κ) :
    ((rs.foldl upsert t).get? k).isSome ↔ (t.get? k).isSome ∨ k ∈ rs.map key := by
  induction rs generalizing t with
  | nil => simp
  | cons r rs ih =>
    rw [List.foldl_cons, ih, get?_upsert, List.map_cons, List.mem_cons]
    by_cases h : key r = k
    · simp [h]
    · simp [h, Ne.symm h]

/-- Upserting rows with distinct keys. -/
theorem mem_foldl_upsert {rs : List ρ} (hn : (rs.map key).Nodup) {t : Keyed key} {r : ρ} :
    r ∈ (rs.foldl upsert t).rows ↔ r ∈ rs ∨ r ∈ t.rows ∧ key r ∉ rs.map key := by
  induction rs generalizing t with
  | nil => simp
  | cons a rs ih =>
    rw [List.map_cons, List.nodup_cons] at hn
    rw [List.foldl_cons, ih hn.2, mem_upsert, List.mem_cons, List.map_cons, List.mem_cons, not_or]
    constructor
    · rintro (h | ⟨rfl | ⟨hm, hne⟩, hk⟩)
      · exact .inl (.inr h)
      · exact .inl (.inl rfl)
      · exact .inr ⟨hm, hne, hk⟩
    · rintro ((rfl | h) | ⟨hm, hne, hk⟩)
      · exact .inr ⟨.inl rfl, hn.1⟩
      · exact .inl h
      · exact .inr ⟨.inr ⟨hm, hne⟩, hk⟩

/-- Take in the rows whose keys are missing. -/
def fill : Keyed key → List ρ → Keyed key
  | t, [] => t
  | t, r :: rs => fill (if (t.get? (key r)).isSome then t else t.upsert r) rs

theorem get?_fill_of_some {t : Keyed key} {k : κ} {r : ρ} (h : t.get? k = some r)
    (rs : List ρ) : (t.fill rs).get? k = some r := by
  induction rs generalizing t with
  | nil => exact h
  | cons r' rs ih =>
    refine ih ?_
    by_cases hs : (t.get? (key r')).isSome
    · rwa [if_pos hs]
    · have hne : key r' ≠ k := by
        rintro rfl
        simp [h] at hs
      rw [if_neg hs, get?_upsert, if_neg hne, h]

theorem isSome_get?_fill {rs : List ρ} {r : ρ} (hr : r ∈ rs) (t : Keyed key) :
    ((t.fill rs).get? (key r)).isSome := by
  induction rs generalizing t with
  | nil => cases hr
  | cons r' rs ih =>
    rcases List.mem_cons.mp hr with rfl | hr
    · by_cases hs : (t.get? (key r)).isSome
      · obtain ⟨a, ha⟩ := Option.isSome_iff_exists.mp hs
        rw [get?_fill_of_some ha]
        rfl
      · rw [fill, if_neg hs, get?_fill_of_some (get?_upsert_self t r)]
        rfl
    · exact ih hr _

end Keyed
end Mdock.Lib
