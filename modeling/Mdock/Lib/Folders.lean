import Mathlib.Data.List.Infix
import Mathlib.Data.List.Sort
import Mathlib.Tactic.Common

/-! Folders of files, named by the paths of their entries. Nothing but the names on the way to
a path decides whether an operation goes through. -/
namespace Mdock.Lib
variable {ν δ : Type*}

inductive Item (δ : Type*)
  | file (data : δ)
  | folder
  deriving DecidableEq

/-- Whatever has a name stands in a folder. -/
@[ext] structure Folders (ν δ : Type*) where
  entry : List ν → Option (Item δ)
  root : entry [] = some .folder
  parent : ∀ {p n}, (entry (p ++ [n])).isSome → entry p = some .folder

namespace Folders
variable (F : Folders ν δ) {G : Folders ν δ} {p q x : List ν} {m : List ν} {n : ν} {d : δ}

/-- No file stands at a path. -/
def Passable (p : List ν) : Prop := F.entry p = none ∨ F.entry p = some .folder

/-- No file stands on the way to a path. -/
def Clear (q : List ν) : Prop := ∀ p, p <+: q → p ≠ q → F.Passable p

/-- Make the folder and those it stands in. -/
noncomputable def makeAll (q : List ν) : Option (Folders ν δ) := by
  classical
  exact if ∀ p, p <+: q → F.Passable p then
    some
      { entry := fun x => if x <+: q then some .folder else F.entry x
        root := if_pos List.nil_prefix
        parent := by
          intro p n h
          by_cases hp : p <+: q
          · rw [if_pos hp]
          · have hn : ¬ p ++ [n] <+: q := fun h => hp ((List.prefix_append p [n]).trans h)
            rw [if_neg hn] at h
            rw [if_neg hp, F.parent h] }
  else none

/-- Put a file into a folder, in the place of none or of a file. -/
noncomputable def put (m : List ν) (n : ν) (d : δ) : Option (Folders ν δ) := by
  classical
  exact if h : F.entry m = some .folder ∧ F.entry (m ++ [n]) ≠ some .folder then
    some
      { entry := fun x => if x = m ++ [n] then some (.file d) else F.entry x
        root := (if_neg (by simp)).trans F.root
        parent := by
          intro p a hs
          have hold : F.entry p = some .folder := by
            by_cases he : p ++ [a] = m ++ [n]
            · rw [(List.append_singleton_inj.mp he).1, h.1]
            · rw [if_neg he] at hs
              exact F.parent hs
          rw [if_neg, hold]
          rintro rfl
          exact h.2 hold }
  else none

/-- Remove what is at and below a path; the root itself stays. -/
noncomputable def clear (q : List ν) : Folders ν δ := by
  classical
  exact
    { entry := fun x => if q <+: x ∧ x ≠ [] then none else F.entry x
      root := (if_neg (by simp)).trans F.root
      parent := by
        intro p n h
        by_cases hq : q <+: p ++ [n]
        · rw [if_pos ⟨hq, by simp⟩] at h
          cases h
        · rw [if_neg fun h => hq h.1] at h
          rw [if_neg fun h => hq (h.1.trans (List.prefix_append p [n])), F.parent h] }

/-- A path leads into the folder that is to be moved. -/
def Movable (p m : List ν) (n : ν) : Prop :=
  F.entry m = some .folder ∧ F.entry (m ++ [n]) ≠ some .folder ∧ p ≠ m ++ [n] ∧
    (F.entry p = some .folder → ¬ p <+: m ++ [n] ∧ F.entry (m ++ [n]) = none)

theorem dir_of_prefix (h : (F.entry x).isSome) (hp : p <+: x) (hne : p ≠ x) :
    F.entry p = some .folder := by
  obtain ⟨q, rfl⟩ := hp
  induction q using List.reverseRecOn with
  | nil => simp at hne
  | append_singleton q n ih =>
    rw [← List.append_assoc] at h
    have hd := F.parent h
    by_cases hq : q = []
    · simpa [hq] using hd
    · exact ih (by rw [hd]; rfl) (by simpa using hq)

variable {F}

/-- Nothing that is moved is above the place it is moved to. -/
theorem Movable.not_above (h : F.Movable p m n) : ¬ p <+: m := by
  intro hp
  have hd : F.entry p = some .folder := by
    by_cases he : p = m
    · rw [he, h.1]
    · exact F.dir_of_prefix (by rw [h.1]; rfl) hp he
  exact (h.2.2.2 hd).1 (hp.trans (List.prefix_append m [n]))

variable (F)

/-- Move an entry with all that is below it; a file may take the place of a file. -/
noncomputable def move (p m : List ν) (n : ν) : Option (Folders ν δ) := by
  classical
  exact if h : (F.entry p).isSome ∧ F.Movable p m n then
    some
      { entry := fun x =>
          if m ++ [n] <+: x then F.entry (p ++ x.drop (m ++ [n]).length)
          else if p <+: x then none else F.entry x
        root := by
          have hp : ¬ p <+: [] := fun hp => h.2.not_above (by
            rw [List.prefix_nil.mp hp]
            exact List.nil_prefix)
          rw [if_neg (by simp), if_neg hp, F.root]
        parent := by
          intro y a hs
          split at hs
          · rename_i hy
            obtain ⟨z, hz⟩ := hy
            rcases List.eq_nil_or_concat' z with rfl | ⟨z, b, rfl⟩
            · rw [List.append_nil] at hz
              obtain ⟨rfl, rfl⟩ := List.append_singleton_inj.mp hz
              rw [if_neg, if_neg h.2.not_above, h.2.1]
              intro hle
              have := hle.length_le
              rw [List.length_append, List.length_singleton] at this
              omega
            · rw [← List.append_assoc] at hz
              obtain ⟨rfl, rfl⟩ := List.append_singleton_inj.mp hz
              rw [List.append_assoc, List.drop_left, ← List.append_assoc] at hs
              rw [if_pos (List.prefix_append _ z), List.drop_left]
              exact F.parent hs
          · rename_i hy
            split at hs
            · cases hs
            · rename_i hp
              rw [if_neg fun h => hy (h.trans (List.prefix_append y [a])),
                if_neg fun h => hp (h.trans (List.prefix_append y [a])), F.parent hs] }
  else none

/-! ### What they leave -/

theorem makeAll_some (h : ∀ p, p <+: q → F.Passable p) : ∃ G, F.makeAll q = some G ∧
    (∀ x, x <+: q → G.entry x = some .folder) ∧ ∀ x, ¬ x <+: q → G.entry x = F.entry x := by
  refine ⟨_, by rw [makeAll, if_pos h], fun x hx => if_pos hx, fun x hx => if_neg hx⟩

theorem makeAll_nil : F.makeAll [] = some F := by
  obtain ⟨G, hG, hin, hout⟩ := F.makeAll_some (q := []) fun p hp => by
    rw [List.prefix_nil.mp hp]
    exact .inr F.root
  rw [hG, Option.some_inj]
  ext1
  funext x
  by_cases hx : x <+: []
  · rw [hin x hx, List.prefix_nil.mp hx, F.root]
  · exact hout x hx

theorem makeAll_none (h : ¬ ∀ p, p <+: q → F.Passable p) : F.makeAll q = none := if_neg h

theorem put_some (hm : F.entry m = some .folder) (hn : F.entry (m ++ [n]) ≠ some .folder) :
    ∃ G, F.put m n d = some G ∧ G.entry (m ++ [n]) = some (.file d) ∧
      ∀ x, x ≠ m ++ [n] → G.entry x = F.entry x :=
  ⟨_, dif_pos ⟨hm, hn⟩, if_pos rfl, fun _ hx => if_neg hx⟩

theorem put_none (hn : F.entry (m ++ [n]) = some .folder) : F.put m n d = none :=
  dif_neg fun h => h.2 hn

theorem clear_above (hx : ¬ (q <+: x ∧ x ≠ [])) : (F.clear q).entry x = F.entry x := if_neg hx

theorem clear_below (hx : q <+: x) (hne : x ≠ []) : (F.clear q).entry x = none :=
  if_pos ⟨hx, hne⟩

theorem move_some (hs : (F.entry p).isSome) (h : F.Movable p m n) : ∃ G, F.move p m n = some G ∧
    (∀ x, G.entry (m ++ [n] ++ x) = F.entry (p ++ x)) ∧
    (∀ x, ¬ m ++ [n] <+: x → p <+: x → G.entry x = none) ∧
    ∀ x, ¬ m ++ [n] <+: x → ¬ p <+: x → G.entry x = F.entry x := by
  refine ⟨_, dif_pos ⟨hs, h⟩, fun x => ?_, fun x hq hp => ?_, fun x hq hp => ?_⟩
  · refine (if_pos (List.prefix_append _ x)).trans ?_
    rw [List.drop_left]
  · exact (if_neg hq).trans (if_pos hp)
  · exact (if_neg hq).trans (if_neg hp)

theorem move_none (h : ¬ ((F.entry p).isSome ∧ F.Movable p m n)) : F.move p m n = none :=
  dif_neg h

/-! ### The operations of a file service -/

/-- Write a file, making the folders it stands in. -/
noncomputable def write (q : List ν) (d : δ) : Option (Folders ν δ) :=
  match q.getLast? with
  | none => none
  | some n => (F.makeAll q.dropLast).bind fun G => G.put q.dropLast n d

noncomputable def remove (q : List ν) : Option (Folders ν δ) := by
  classical
  exact if F.Clear q then some (F.clear q) else none

/-- Rename, making the folders the new path stands in; to its own path a file goes at no cost. -/
noncomputable def rename (p q : List ν) : Option (Folders ν δ) :=
  match q.getLast? with
  | none => none
  | some n => (F.makeAll q.dropLast).bind fun G => by
    classical
    exact if p = q then (if ∃ d, G.entry p = some (.file d) then some G else none)
      else G.move p q.dropLast n

theorem write_concat : F.write (m ++ [n]) d = (F.makeAll m).bind fun G => G.put m n d := by
  simp [write]

theorem rename_self : F.rename (m ++ [n]) (m ++ [n]) = (F.makeAll m).bind fun G => by
    classical
    exact if ∃ d, G.entry (m ++ [n]) = some (.file d) then some G else none := by
  simp [rename]

theorem rename_concat (hne : p ≠ m ++ [n]) :
    F.rename p (m ++ [n]) = (F.makeAll m).bind fun G => G.move p m n := by
  simp [rename, hne]

/-! ### Listings -/

/-- The names in a folder, in order; none where there is no last one. -/
noncomputable def namesIn [LinearOrder ν] (q : List ν) : List ν := by
  classical
  exact if h : ∃ l : List ν, l.Pairwise (· < ·) ∧ ∀ n, n ∈ l ↔ (F.entry (q ++ [n])).isSome then
    h.choose else []

theorem eq_of_mem_iff [LinearOrder ν] {l l' : List ν} (h : l.Pairwise (· < ·))
    (h' : l'.Pairwise (· < ·)) (hm : ∀ n, n ∈ l ↔ n ∈ l') : l = l' :=
  ((List.perm_ext_iff_of_nodup (h.imp ne_of_lt) (h'.imp ne_of_lt)).mpr hm).eq_of_pairwise'
    (h.imp le_of_lt) (h'.imp le_of_lt)

theorem namesIn_eq [LinearOrder ν] {l : List ν} (h : l.Pairwise (· < ·))
    (hm : ∀ n, n ∈ l ↔ (F.entry (q ++ [n])).isSome) : F.namesIn q = l := by
  have hex : ∃ l : List ν, l.Pairwise (· < ·) ∧ ∀ n, n ∈ l ↔ (F.entry (q ++ [n])).isSome :=
    ⟨l, h, hm⟩
  rw [namesIn, dif_pos hex]
  exact eq_of_mem_iff hex.choose_spec.1 h fun n => (hex.choose_spec.2 n).trans (hm n).symm

theorem namesIn_nodup [LinearOrder ν] : (F.namesIn q).Nodup := by
  rw [namesIn]
  split
  · rename_i hex
    exact hex.choose_spec.1.imp ne_of_lt
  · exact List.nodup_nil

/-- All that `n` levels of listings show of a folder, where some names are not listed. -/
noncomputable def walk [LinearOrder ν] (listed : ν → Bool) : ℕ → List ν → List (List ν)
  | 0, _ => []
  | k + 1, p => ((F.namesIn p).filter listed).flatMap fun n =>
    (p ++ [n]) :: match F.entry (p ++ [n]) with
      | some .folder => walk listed k (p ++ [n])
      | _ => []

section Walk
variable [LinearOrder ν] {listed : ν → Bool} {F : Folders ν δ}
  (hlist : ∀ p n, n ∈ F.namesIn p ↔ (F.entry (p ++ [n])).isSome)
include hlist

theorem mem_walk {k : ℕ} {p x : List ν} : x ∈ F.walk listed k p ↔
    ∃ q, q ≠ [] ∧ q.length ≤ k ∧ (∀ n ∈ q, listed n) ∧ (F.entry (p ++ q)).isSome ∧ x = p ++ q := by
  induction k generalizing p x with
  | zero =>
    constructor
    · intro h
      cases h
    · rintro ⟨q, hq, hlen, -⟩
      exact absurd (List.length_eq_zero_iff.mp (by omega)) hq
  | succ k ih =>
    simp only [walk, List.mem_flatMap, List.mem_filter, List.mem_cons, hlist]
    constructor
    · rintro ⟨n, ⟨hsome, hn⟩, rfl | hx⟩
      · exact ⟨[n], by simp, by simp, by simpa using hn, hsome, rfl⟩
      · split at hx
        · obtain ⟨q, hq, hlen, hlisted, hq', rfl⟩ := ih.mp hx
          refine ⟨n :: q, by simp, by simpa using hlen, ?_, ?_, ?_⟩
          · simpa using ⟨hn, hlisted⟩
          · simpa using hq'
          · simp
        · cases hx
    · rintro ⟨q, hq, hlen, hlisted, hsome, rfl⟩
      obtain ⟨n, q, rfl⟩ := List.exists_cons_of_ne_nil hq
      rw [List.append_cons] at hsome ⊢
      have hn := hlisted n (by simp)
      by_cases hq' : q = []
      · subst hq'
        rw [List.append_nil] at hsome ⊢
        exact ⟨n, ⟨hsome, hn⟩, .inl rfl⟩
      · have hdir : F.entry (p ++ [n]) = some .folder :=
          F.dir_of_prefix hsome (List.prefix_append _ q) (by simpa using hq')
        refine ⟨n, ⟨by rw [hdir]; rfl, hn⟩, .inr ?_⟩
        simp only [hdir]
        exact ih.mpr ⟨q, hq', by simpa using hlen,
          fun a ha => hlisted a (List.mem_cons_of_mem n ha), hsome, rfl⟩

theorem walk_nodup {k : ℕ} {p : List ν} : (F.walk listed k p).Nodup := by
  induction k generalizing p with
  | zero => exact List.nodup_nil
  | succ k ih =>
    simp only [walk]
    refine List.nodup_flatMap.mpr ⟨fun n _ => List.nodup_cons.mpr ⟨?_, ?_⟩, ?_⟩
    · split
      · intro h
        obtain ⟨q, hq, -, -, -, he⟩ := (mem_walk hlist).mp h
        exact hq (List.self_eq_append_right.mp he)
      · exact List.not_mem_nil
    · split
      · exact ih
      · exact List.nodup_nil
    · -- the name that comes first after the folder tells the parts from one another
      refine ((F.namesIn_nodup).filter _).imp fun {a b} hab => ?_
      have hpart : ∀ {n x}, x ∈ ((p ++ [n]) :: match F.entry (p ++ [n]) with
          | some .folder => F.walk listed k (p ++ [n])
          | _ => []) → p ++ [n] <+: x := by
        intro n x hx
        rcases List.mem_cons.mp hx with rfl | hx
        · exact List.prefix_rfl
        · split at hx
          · obtain ⟨q, -, -, -, -, rfl⟩ := (mem_walk hlist).mp hx
            exact List.prefix_append _ q
          · cases hx
      intro x hxa hxb
      have hle := List.prefix_of_prefix_length_le (hpart hxa) (hpart hxb) (by simp)
      exact hab (by simpa using hle.eq_of_length (by simp))

end Walk

end Folders
end Mdock.Lib
