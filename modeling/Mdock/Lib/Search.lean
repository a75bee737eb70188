import Mathlib.Data.List.Forall2
import Mdock.Lib.Pattern

/-! Global searches: the matches in a text, one after the other, and what stands between them. -/
namespace Mdock.Lib
variable {α : Type*}

namespace Pattern
variable {as : List (Pattern α)} {gs : List (List α)} {s : List α}

/-- The parts of the match of patterns one after the other. -/
def groups : List (Pattern α) → List α → Option (List (List α))
  | [], _ => some []
  | a :: as, s => (a.ends s).findSome? fun n => (groups as (s.drop n)).map (s.take n :: ·)

theorem groups_sound (h : groups as s = some gs) :
    List.Forall₂ Matches as gs ∧ gs.flatten <+: s := by
  induction as generalizing s gs with
  | nil =>
    obtain rfl := Option.some.inj h
    exact ⟨.nil, List.nil_prefix⟩
  | cons a as ih =>
    obtain ⟨n, hn, hrest⟩ := List.exists_of_findSome?_eq_some h
    obtain ⟨gs, hgs, rfl⟩ := Option.map_eq_some_iff.mp hrest
    obtain ⟨hall, hprefix⟩ := ih hgs
    refine ⟨.cons ?_ hall, ?_⟩
    · rw [Matches, List.length_take, Nat.min_eq_left (ends_le a s hn)]
      exact (mem_ends_take a s (Nat.le_refl n)).mpr hn
    · obtain ⟨t, ht⟩ := hprefix
      exact ⟨t, by rw [List.flatten_cons, List.append_assoc, ht, List.take_append_drop]⟩

/-- What is a match is found, whatever comes behind it. -/
theorem groups_isSome (h : List.Forall₂ Matches as gs) (t : List α) :
    (groups as (gs.flatten ++ t)).isSome := by
  induction h with
  | nil => rfl
  | @cons a g as gs ha _ ih =>
    have hmem : g.length ∈ a.ends (g ++ (gs.flatten ++ t)) := by
      have htake := (a.mem_ends_take (g ++ (gs.flatten ++ t)) (Nat.le_refl g.length)).mp
      rw [List.take_left] at htake
      exact htake ha
    rw [groups, List.findSome?_isSome_iff, List.flatten_cons, List.append_assoc]
    exact ⟨g.length, hmem, by rw [List.drop_left, Option.isSome_map]; exact ih⟩

theorem findSome?_filter {β γ : Type*} {p : β → Bool} {f g : β → Option γ} {xs : List β}
    (hpos : ∀ x ∈ xs, p x = true → f x = g x) (hneg : ∀ x ∈ xs, p x = false → f x = none) :
    xs.findSome? f = (xs.filter p).findSome? g := by
  induction xs with
  | nil => rfl
  | cons x xs ih =>
    have hrest := ih (fun y hy => hpos y (List.mem_cons_of_mem x hy)) fun y hy =>
      hneg y (List.mem_cons_of_mem x hy)
    rw [List.findSome?_cons, hrest]
    cases hp : p x with
    | true => rw [List.filter_cons_of_pos hp, List.findSome?_cons, hpos x List.mem_cons_self hp]
    | false => rw [List.filter_cons_of_neg (by simp [hp]), hneg x List.mem_cons_self hp]

/-- The match in front of what no match reaches into. -/
theorem groups_append {u : List α} (h : ∀ gs, List.Forall₂ Matches as gs →
    gs.flatten <+: u ++ s → gs.flatten.length ≤ u.length) : groups as (u ++ s) = groups as u := by
  induction as generalizing u with
  | nil => rfl
  | cons a as ih =>
    have hreach : ∀ n ∈ a.ends (u ++ s), ∀ gs, List.Forall₂ Matches as gs →
        gs.flatten <+: (u ++ s).drop n → n + gs.flatten.length ≤ u.length := by
      intro n hn gs hall hprefix
      have hlength : ((u ++ s).take n).length = n :=
        List.length_take.trans (Nat.min_eq_left (ends_le a _ hn))
      have hmatch : a.Matches ((u ++ s).take n) := by
        rw [Matches, hlength]
        exact (mem_ends_take a _ (Nat.le_refl n)).mpr hn
      have hle := h _ (.cons hmatch hall) (by
        rw [List.flatten_cons]
        conv => rhs; rw [← List.take_append_drop n (u ++ s)]
        exact (List.prefix_append_right_inj _).mpr hprefix)
      rwa [List.flatten_cons, List.length_append, hlength] at hle
    -- a first part that reaches into `s` leads to no match
    have hlong : ∀ n ∈ a.ends (u ++ s), ¬ n ≤ u.length → groups as ((u ++ s).drop n) = none := by
      intro n hn hlt
      refine Option.eq_none_iff_forall_ne_some.mpr fun gs hgs => hlt ?_
      obtain ⟨hall, hprefix⟩ := groups_sound hgs
      exact (Nat.le_add_right n _).trans (hreach n hn gs hall hprefix)
    have hshort : ∀ n ∈ a.ends (u ++ s), n ≤ u.length →
        groups as ((u ++ s).drop n) = groups as (u.drop n) := by
      intro n hn hle
      rw [List.drop_append_of_le_length hle]
      refine ih fun gs hall hprefix => ?_
      rw [← List.drop_append_of_le_length hle] at hprefix
      have hlen := hreach n hn gs hall hprefix
      rw [List.length_drop]
      omega
    have hends : a.ends u = (a.ends (u ++ s)).filter (· ≤ u.length) := by
      rw [← ends_take, List.take_left]
    rw [groups, groups, hends]
    refine findSome?_filter (fun n hn hle => ?_) fun n hn hle => ?_
    · have hle := of_decide_eq_true hle
      rw [hshort n hn hle, List.take_append_of_le_length hle]
    · rw [hlong n hn (by simpa using hle), Option.map_none]

theorem flatten_ne_nil (h : List.Forall₂ Matches as gs)
    (has : (as.any fun a => decide (0 < a.shortest)) = true) : gs.flatten ≠ [] := by
  induction h with
  | nil => simp at has
  | @cons a g as gs ha _ ih =>
    intro hnil
    obtain ⟨rfl, hrest⟩ := List.append_eq_nil_iff.mp hnil
    rw [List.any_cons, Bool.or_eq_true, decide_eq_true_iff] at has
    rcases has with hpos | has
    · exact absurd (shortest_le ha) (Nat.not_le.mpr hpos)
    · exact ih has hrest

end Pattern

/-- Patterns one after the other, one of which takes something. -/
structure Search (α : Type*) where
  parts : List (Pattern α)
  proper : (parts.any fun a => decide (0 < a.shortest)) = true

namespace Search
variable {m : Search α} {s t w : List α} {c : α} {gs : List (List α)} {f : List (List α) → List α}

/-- Elements that are in no match, and the parts of the matches; the first elements are skipped. -/
def cut (m : Search α) : Nat → List α → List (α ⊕ List (List α))
  | _, [] => []
  | skip + 1, _ :: s => m.cut skip s
  | 0, c :: s =>
    match Pattern.groups m.parts (c :: s) with
    | some gs => .inr gs :: m.cut (gs.flatten.length - 1) s
    | none => .inl c :: m.cut 0 s

/-- Every match is replaced. -/
def replace (m : Search α) (f : List (List α) → List α) (s : List α) : List α :=
  (m.cut 0 s).flatMap (Sum.elim ([·]) f)

/-- The matches with their positions. -/
def indexed : Nat → List (α ⊕ List (List α)) → List (Nat × List (List α))
  | _, [] => []
  | k, .inl _ :: pieces => indexed (k + 1) pieces
  | k, .inr gs :: pieces => (k, gs) :: indexed (k + gs.flatten.length) pieces

theorem cut_skip (m : Search α) (n : Nat) (s : List α) : m.cut n s = m.cut 0 (s.drop n) := by
  induction s generalizing n with
  | nil => cases n <;> rfl
  | cons c s ih =>
    cases n with
    | zero => rfl
    | succ n => exact ih n

theorem cut_match (h : Pattern.groups m.parts (w ++ t) = some gs) (hw : gs.flatten = w) :
    m.cut 0 (w ++ t) = .inr gs :: m.cut 0 t := by
  cases w with
  | nil => exact absurd hw (Pattern.flatten_ne_nil (Pattern.groups_sound h).1 m.proper)
  | cons c w =>
    rw [List.cons_append] at h ⊢
    rw [cut, h]
    simp only [hw, List.length_cons, Nat.add_sub_cancel]
    rw [cut_skip, List.drop_left]

theorem cut_none (h : Pattern.groups m.parts (c :: s) = none) :
    m.cut 0 (c :: s) = .inl c :: m.cut 0 s := by
  rw [cut, h]

/-- The search goes over a text match by match, and element by element between them. -/
theorem induction_on (m : Search α) {motive : List α → Prop} (s : List α) (nil : motive [])
    (hit : ∀ w t gs, Pattern.groups m.parts (w ++ t) = some gs → gs.flatten = w → w ≠ [] →
      motive t → motive (w ++ t))
    (miss : ∀ c s, Pattern.groups m.parts (c :: s) = none → motive s → motive (c :: s)) :
    motive s := by
  induction hn : s.length using Nat.strong_induction_on generalizing s with
  | _ n ih =>
    cases s with
    | nil => exact nil
    | cons c s =>
      cases h : Pattern.groups m.parts (c :: s) with
      | none => exact miss c s h (ih s.length (by simp [← hn]) s rfl)
      | some gs =>
        obtain ⟨hall, t, ht⟩ := Pattern.groups_sound h
        have hne := Pattern.flatten_ne_nil hall m.proper
        rw [← ht] at h ⊢
        refine hit _ t gs h rfl hne (ih t.length ?_ t rfl)
        rw [← hn, ← ht, List.length_append]
        exact Nat.lt_add_of_pos_left (List.length_pos_iff.mpr hne)

/-! ### Replacing -/

/-- A text that the search finds as it is. -/
def Finds (m : Search α) (w : List α) : Prop :=
  ∃ gs, List.Forall₂ Pattern.Matches m.parts gs ∧ gs.flatten = w

theorem groups_of_finds (h : m.Finds w) (t : List α) :
    (Pattern.groups m.parts (w ++ t)).isSome := by
  obtain ⟨gs, hall, rfl⟩ := h
  exact Pattern.groups_isSome hall t

theorem Finds.ne_nil (h : m.Finds w) : w ≠ [] := by
  obtain ⟨gs, hall, rfl⟩ := h
  exact Pattern.flatten_ne_nil hall m.proper

@[simp] theorem replace_nil : m.replace f [] = [] := rfl

theorem replace_match (h : Pattern.groups m.parts (w ++ t) = some gs) (hw : gs.flatten = w) :
    m.replace f (w ++ t) = f gs ++ m.replace f t := by
  rw [replace, cut_match h hw, List.flatMap_cons, Sum.elim_inr, replace]

theorem replace_none (h : Pattern.groups m.parts (c :: s) = none) :
    m.replace f (c :: s) = c :: m.replace f s := by
  rw [replace, cut_none h, List.flatMap_cons, Sum.elim_inl, List.singleton_append, replace]

/-- Nothing is replaced where nothing is found. -/
theorem replace_eq_self (h : ∀ w, m.Finds w → ¬ w <:+: s) : m.replace f s = s := by
  induction s using m.induction_on with
  | nil => rfl
  | hit w t gs hgs hw _ _ =>
    exact absurd (List.prefix_append w t).isInfix (h w ⟨gs, (Pattern.groups_sound hgs).1, hw⟩)
  | miss c s hnone ih =>
    rw [replace_none hnone, ih fun w hw hin => h w hw (List.infix_cons hin)]

/-- A text is replaced on its own in front of what nothing found in it reaches into. -/
theorem replace_append (h : ∀ y, y ≠ [] → y <:+ s → ∀ w, m.Finds w → w <+: y ++ t →
    w.length ≤ y.length) : m.replace f (s ++ t) = m.replace f s ++ m.replace f t := by
  have hgroups : ∀ y, y ≠ [] → y <:+ s →
      Pattern.groups m.parts (y ++ t) = Pattern.groups m.parts y := fun y hy hsuffix =>
    Pattern.groups_append fun gs hall hprefix => h y hy hsuffix _ ⟨gs, hall, rfl⟩ hprefix
  induction s using m.induction_on with
  | nil => rfl
  | hit w s gs hgs hw hne ih =>
    have hrest := ih (fun y hy hsuffix => h y hy (hsuffix.trans (List.suffix_append w s)))
      fun y hy hsuffix => hgroups y hy (hsuffix.trans (List.suffix_append w s))
    have hthere := (hgroups _ (by simp [hne]) List.suffix_rfl).trans hgs
    rw [replace_match hgs hw, List.append_assoc w, replace_match (by rwa [← List.append_assoc]) hw,
      hrest, List.append_assoc]
  | miss c s hnone ih =>
    have hrest := ih (fun y hy hsuffix => h y hy (hsuffix.trans (List.suffix_cons c s)))
      fun y hy hsuffix => hgroups y hy (hsuffix.trans (List.suffix_cons c s))
    have hthere := (hgroups _ (List.cons_ne_nil c s) List.suffix_rfl).trans hnone
    rw [List.cons_append] at hthere
    rw [replace_none hnone, List.cons_append, replace_none hthere, hrest, List.cons_append]

section
variable [DecidableEq α] {d : α}

theorem count_replace_eq (h : ∀ gs, List.Forall₂ Pattern.Matches m.parts gs →
    (f gs).count d = gs.flatten.count d) (s : List α) : (m.replace f s).count d = s.count d := by
  induction s using m.induction_on with
  | nil => rfl
  | hit w t gs hgs hw _ ih =>
    rw [replace_match hgs hw, List.count_append, List.count_append, ih,
      h gs (Pattern.groups_sound hgs).1, hw]
  | miss c s hnone ih => rw [replace_none hnone, List.count_cons, List.count_cons, ih]

/-- What every replacement loses is lost where something is found. -/
theorem count_replace_lt (h : ∀ gs, List.Forall₂ Pattern.Matches m.parts gs →
    (f gs).count d < gs.flatten.count d) (s : List α) :
    (m.replace f s).count d ≤ s.count d ∧
      ∀ w, m.Finds w → w <:+: s → (m.replace f s).count d < s.count d := by
  induction s using m.induction_on with
  | nil => exact ⟨Nat.le_refl _, fun w hw hin => absurd (List.eq_nil_of_infix_nil hin) hw.ne_nil⟩
  | hit w t gs hgs hw _ ih =>
    have hlt : (m.replace f (w ++ t)).count d < (w ++ t).count d := by
      have hgain := h gs (Pattern.groups_sound hgs).1
      rw [hw] at hgain
      rw [replace_match hgs hw, List.count_append, List.count_append]
      exact Nat.add_lt_add_of_lt_of_le hgain ih.1
    exact ⟨hlt.le, fun _ _ _ => hlt⟩
  | miss c s hnone ih =>
    rw [replace_none hnone, List.count_cons, List.count_cons]
    refine ⟨Nat.add_le_add_right ih.1 _, fun w hw hin => ?_⟩
    rcases List.infix_cons_iff.mp hin with ⟨t, ht⟩ | hin
    · have hsome := groups_of_finds hw t
      rw [ht, hnone] at hsome
      simp at hsome
    · exact Nat.add_lt_add_right (ih.2 w hw hin) _

end

end Search

end Mdock.Lib
