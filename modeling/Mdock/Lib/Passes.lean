import Mdock.Lib.Search

/-! Global replacements one after the other, each in what the one before has left. -/
namespace Mdock.Lib
variable {α : Type*}

/-- A search, and what stands for a match. -/
structure Pass (α : Type*) extends Search α where
  image : List (List α) → List α

namespace Pass

def apply (p : Pass α) (s : List α) : List α := p.replace p.image s

def run (passes : List (Pass α)) (s : List α) : List α := passes.foldl (fun s p => p.apply s) s

variable {p : Pass α} {passes : List (Pass α)} {s t x y v b : List α} {c : α}

@[simp] theorem run_nil (s : List α) : run [] s = s := rfl

@[simp] theorem run_cons (p : Pass α) (passes : List (Pass α)) (s : List α) :
    run (p :: passes) s = run passes (p.apply s) := rfl

/-- Nothing is replaced where no pass finds anything. -/
theorem run_eq_self (h : ∀ p ∈ passes, ∀ w, p.Finds w → ¬ w <:+: s) : run passes s = s := by
  induction passes with
  | nil => rfl
  | cons p passes ih =>
    rw [run_cons, apply, Search.replace_eq_self (h p List.mem_cons_self),
      ih fun q hq => h q (List.mem_cons_of_mem p hq)]

section
variable [DecidableEq α]

/-- What every replacement loses is lost where a pass finds something. -/
theorem count_run_lt (h : ∀ p ∈ passes, ∀ gs, List.Forall₂ Pattern.Matches p.parts gs →
    (p.image gs).count c < gs.flatten.count c) (s : List α) :
    (run passes s).count c ≤ s.count c ∧
      ∀ p ∈ passes, ∀ w, p.Finds w → w <:+: s → (run passes s).count c < s.count c := by
  induction passes generalizing s with
  | nil => exact ⟨Nat.le_refl _, by simp⟩
  | cons p passes ih =>
    obtain ⟨hle, hlt⟩ := Search.count_replace_lt (h p List.mem_cons_self) s
    obtain ⟨hle', hlt'⟩ := ih (fun q hq => h q (List.mem_cons_of_mem p hq)) (p.apply s)
    refine ⟨hle'.trans hle, fun q hq w hw hin => ?_⟩
    by_cases hfound : ∃ w, p.Finds w ∧ w <:+: s
    · obtain ⟨w, hw, hin⟩ := hfound
      exact hle'.trans_lt (hlt w hw hin)
    · have hsame : p.apply s = s :=
        Search.replace_eq_self fun w hw hin => hfound ⟨w, hw, hin⟩
      rcases List.mem_cons.mp hq with rfl | hq
      · exact absurd ⟨w, hw, hin⟩ hfound
      · exact (hlt' q hq w hw (by rwa [hsame])).trans_eq (congrArg (List.count c) hsame)

end

/-! ### Matches that a double mark closes -/

/-- What is found ends with a mark that stands there twice and nowhere else in it, and one of the
two is lost. -/
structure Closes (p : Pass α) (c : α) : Prop where
  found : ∀ gs, List.Forall₂ Pattern.Matches p.parts gs →
    ∃ b, b ≠ [] ∧ c ∉ b ∧ gs.flatten = b ++ [c, c]
  left : ∀ gs, List.Forall₂ Pattern.Matches p.parts gs →
    ∃ b, b ≠ [] ∧ c ∉ b ∧ p.image gs = b ++ [c]

/-- Something found ends where the text does. -/
def Ends (p : Pass α) (s : List α) : Prop := ∃ w, p.Finds w ∧ w <:+ s

/-- A text that is empty or ends with a mark. -/
def Closed (c : α) (s : List α) : Prop := ∀ d ∈ s.getLast?, d = c

theorem closed_suffix (hx : Closed c x) (hy : y <:+ x) : Closed c y := by
  obtain ⟨z, rfl⟩ := hy
  intro d hd
  refine hx d ?_
  rw [List.getLast?_append, Option.mem_def.mp hd, Option.some_or, Option.mem_def]

theorem closed_append_mark (s : List α) : Closed c (s ++ [c]) := by
  intro d hd
  rw [List.getLast?_concat] at hd
  exact (Option.some.inj hd).symm

/-- A text as far as its last mark, and what is behind it. -/
theorem exists_closed [DecidableEq α] (c : α) (x : List α) :
    ∃ x₁ x₂, x = x₁ ++ x₂ ∧ Closed c x₁ ∧ c ∉ x₂ := by
  by_cases hc : c ∈ x
  · obtain ⟨z, r, hzr, hz⟩ := List.eq_append_cons_of_mem (List.mem_reverse.mpr hc)
    refine ⟨r.reverse ++ [c], z.reverse, ?_, closed_append_mark _, by simpa using hz⟩
    have hrev := congrArg List.reverse hzr
    simpa using hrev
  · exact ⟨[], x, rfl, by simp [Closed], hc⟩

theorem Closes.of_finds (hp : p.Closes c) {w : List α} (hw : p.Finds w) :
    ∃ b, b ≠ [] ∧ c ∉ b ∧ w = b ++ [c, c] := by
  obtain ⟨gs, hall, rfl⟩ := hw
  exact hp.found gs hall

theorem eq_before_marks (hb : c ∉ b) (h : y ++ [c] <+: b ++ [c, c]) (hle : y.length ≤ b.length) :
    y = b := by
  have hy : y <+: b := List.prefix_of_prefix_length_le ((List.prefix_append y [c]).trans h)
    (List.prefix_append b _) hle
  refine hy.eq_of_length (Nat.le_antisymm hle (Nat.not_lt.mp fun hlt => hb ?_))
  have hmark : y ++ [c] <+: b :=
    List.prefix_of_prefix_length_le h (List.prefix_append b _) (by simp; omega)
  exact hmark.subset (by simp)

/-- Something found that begins in a text with a mark at its end and ends behind it. -/
theorem Closes.reaches (hp : p.Closes c) {w : List α} (hw : p.Finds w)
    (hfront : w <+: y ++ [c] ++ t) (hlt : (y ++ [c]).length < w.length) :
    y ≠ [] ∧ c ∉ y ∧ t.head? = some c := by
  obtain ⟨b, hne, hb, rfl⟩ := hp.of_finds hw
  have hy : y ++ [c] <+: b ++ [c, c] :=
    List.prefix_of_prefix_length_le (List.prefix_append _ t) hfront hlt.le
  obtain rfl := eq_before_marks hb hy (by simp at hlt; omega)
  refine ⟨hne, hb, ?_⟩
  obtain ⟨r, hr⟩ := hfront
  have htail : c :: r = t := by simpa using hr
  rw [← htail, List.head?_cons]

/-- Nothing reaches over a mark to anything but a second one. -/
theorem apply_append_of_closed (hp : p.Closes c) (hx : Closed c x) (ht : t.head? ≠ some c) :
    p.apply (x ++ t) = p.apply x ++ p.apply t := by
  refine Search.replace_append fun y hy hsuffix w hw hfront => ?_
  obtain ⟨z, d, rfl⟩ := (List.eq_nil_or_concat' y).resolve_left hy
  obtain rfl : d = c := closed_suffix hx hsuffix d (by simp)
  exact Nat.not_lt.mp fun hlt => ht (hp.reaches hw hfront hlt).2.2

/-- Nothing reaches over two marks. -/
theorem apply_append_of_pair (hp : p.Closes c) (b t : List α) :
    p.apply (b ++ [c, c] ++ t) = p.apply (b ++ [c, c]) ++ p.apply t := by
  refine Search.replace_append fun y hy hsuffix w hw hfront => ?_
  have hsplit : y <:+ b ++ [c] ++ [c] := by simpa using hsuffix
  obtain ⟨z, rfl, hz⟩ := (List.suffix_concat_iff.mp hsplit).resolve_left hy
  refine Nat.not_lt.mp fun hlt => ?_
  obtain ⟨hne, hmark, -⟩ := hp.reaches hw hfront hlt
  obtain ⟨z, rfl, -⟩ := (List.suffix_concat_iff.mp hz).resolve_left hne
  simp at hmark

theorem apply_mark (hp : p.Closes c) (t : List α) : p.apply (c :: t) = c :: p.apply t := by
  refine Search.replace_none (Option.eq_none_iff_forall_ne_some.mpr fun gs hgs => ?_)
  obtain ⟨hall, hfront⟩ := Pattern.groups_sound hgs
  obtain ⟨b, hne, hb, hw⟩ := hp.found gs hall
  obtain ⟨d, b, rfl⟩ := List.exists_cons_of_ne_nil hne
  rw [hw, List.cons_append, List.cons_prefix_cons] at hfront
  exact hb (hfront.1 ▸ List.mem_cons_self)

theorem run_mark (hps : ∀ p ∈ passes, p.Closes c) (t : List α) :
    run passes (c :: t) = c :: run passes t := by
  induction passes generalizing t with
  | nil => rfl
  | cons p passes ih =>
    rw [run_cons, run_cons, apply_mark (hps p List.mem_cons_self),
      ih fun q hq => hps q (List.mem_cons_of_mem p hq)]

theorem closed_apply (hp : p.Closes c) (hx : Closed c x) : Closed c (p.apply x) := by
  have hlast : (p.apply x).getLast? = x.getLast? := by
    unfold apply
    clear hx
    induction x using p.induction_on with
    | nil => rfl
    | hit w t gs hgs hw _ ih =>
      obtain ⟨b, -, -, hb⟩ := hp.found gs (Pattern.groups_sound hgs).1
      obtain ⟨b', -, -, hb'⟩ := hp.left gs (Pattern.groups_sound hgs).1
      rw [Search.replace_match hgs hw, List.getLast?_append, List.getLast?_append, ih, hb', ← hw,
        hb]
      simp
    | miss d s hnone ih =>
      rw [Search.replace_none hnone, ← List.singleton_append, List.getLast?_append, ih,
        ← List.getLast?_append, List.singleton_append]
  rw [Closed, hlast]
  exact hx

theorem apply_pair_of_ends (hp : p.Closes c) (hb : c ∉ b) (h : p.Ends (b ++ [c, c])) :
    ∃ b', b' ≠ [] ∧ c ∉ b' ∧ p.apply (b ++ [c, c]) = b' ++ [c] := by
  obtain ⟨w, hw, hsuffix⟩ := h
  induction b with
  | nil =>
    obtain ⟨a, hne, -, rfl⟩ := hp.of_finds hw
    have hlen := hsuffix.length_le
    simp [hne] at hlen
  | cons d b ih =>
    cases hgs : Pattern.groups p.parts (d :: b ++ [c, c]) with
    | none =>
      have hwhole : w ≠ d :: b ++ [c, c] := by
        rintro rfl
        have hsome := Search.groups_of_finds hw []
        rw [List.append_nil, hgs] at hsome
        simp at hsome
      obtain ⟨b', -, hb', heq⟩ := ih (fun hin => hb (List.mem_cons_of_mem d hin))
        ((List.suffix_cons_iff.mp hsuffix).resolve_left hwhole)
      refine ⟨d :: b', by simp, ?_, ?_⟩
      · simp only [List.mem_cons, not_or] at hb ⊢
        exact ⟨hb.1, hb'⟩
      · rw [List.cons_append] at hgs ⊢
        rw [apply, Search.replace_none hgs, ← apply, heq, List.cons_append]
    | some gs =>
      obtain ⟨hall, hfront⟩ := Pattern.groups_sound hgs
      obtain ⟨a, hne, ha, hflat⟩ := hp.found gs hall
      obtain ⟨b', hne', hb', himage⟩ := hp.left gs hall
      have hwhole : gs.flatten = d :: b ++ [c, c] := by
        rw [hflat] at hfront ⊢
        have hmark : a ++ [c] <+: a ++ [c, c] := ⟨[c], by simp⟩
        rw [eq_before_marks hb (hmark.trans hfront) (by simpa using hfront.length_le)]
      have happly := Search.replace_match (f := p.image) (w := d :: b ++ [c, c]) (t := [])
        (by rwa [List.append_nil]) hwhole
      rw [List.append_nil] at happly
      exact ⟨b', hne', hb', by rw [apply, happly, himage]; simp⟩

/-- What ends with a double mark begins behind the mark before it. -/
theorem ends_append_iff (hp : p.Closes c) (hx : Closed c x) (hb : c ∉ b) :
    p.Ends (x ++ (b ++ [c, c])) ↔ p.Ends (b ++ [c, c]) := by
  constructor
  · rintro ⟨w, hw, hsuffix⟩
    refine ⟨w, hw, ?_⟩
    obtain ⟨a, -, ha, rfl⟩ := hp.of_finds hw
    refine List.suffix_of_suffix_length_le hsuffix (List.suffix_append x _)
      (Nat.not_lt.mp fun hlt => ?_)
    obtain ⟨z, hz⟩ := List.suffix_of_suffix_length_le (List.suffix_append x _) hsuffix hlt.le
    have hsplit : z ++ b = a := by
      rw [← List.append_assoc] at hz
      exact List.append_cancel_right hz
    rcases List.eq_nil_or_concat' z with rfl | ⟨z, d, rfl⟩
    · rw [List.nil_append] at hsplit
      simp [hsplit] at hlt
    · rw [← hz] at hsuffix
      have hzx := List.suffix_append_self_iff.mp hsuffix
      obtain rfl : d = c := closed_suffix hx hzx d (by simp)
      exact ha (hsplit ▸ by simp)
  · rintro ⟨w, hw, hsuffix⟩
    exact ⟨w, hw, hsuffix.trans (List.suffix_append x _)⟩

section
variable [DecidableEq α]

theorem count_of_finds (hp : p.Closes c) {w : List α} (hw : p.Finds w) : w.count c = 2 := by
  obtain ⟨b, -, hb, rfl⟩ := hp.of_finds hw
  simp [List.count_eq_zero_of_not_mem hb]

/-- Nothing is found where the mark does not stand twice. -/
theorem apply_eq_self (hp : p.Closes c) (hs : s.count c < 2) : p.apply s = s :=
  Search.replace_eq_self fun _ hw hin => Nat.not_le.mpr hs
    (count_of_finds hp hw ▸ hin.sublist.count_le c)

theorem apply_pair_of_not_ends (hp : p.Closes c) (hb : c ∉ b) (h : ¬ p.Ends (b ++ [c, c])) :
    p.apply (b ++ [c, c]) = b ++ [c, c] := by
  refine Search.replace_eq_self fun w hw ⟨u, t, hin⟩ => h ⟨w, hw, u, ?_⟩
  have hcount := congrArg (List.count c) hin
  simp only [List.count_append, count_of_finds hp hw, List.count_eq_zero_of_not_mem hb] at hcount
  have ht : t.count c = 0 := by
    simp at hcount
    omega
  rcases List.eq_nil_or_concat' t with rfl | ⟨t, d, rfl⟩
  · simpa using hin
  · have hlast := congrArg List.getLast? hin
    simp at hlast
    simp [hlast] at ht

/-- The first mark of a text stays, or one of two first marks does. -/
theorem apply_before_mark (hp : p.Closes c) (hb : c ∉ b) (t : List α) :
    p.apply (b ++ c :: t) = b ++ c :: p.apply t ∨ ∃ b' t', b' ≠ [] ∧ c ∉ b' ∧ t = c :: t' ∧
      p.apply (b ++ c :: t) = b' ++ c :: p.apply t' := by
  by_cases ht : t.head? = some c
  · obtain ⟨t', rfl⟩ := List.head?_eq_some_iff.mp ht
    have hsplit : b ++ c :: c :: t' = b ++ [c, c] ++ t' := by simp
    rw [hsplit, apply_append_of_pair hp, apply_mark hp]
    by_cases hends : p.Ends (b ++ [c, c])
    · obtain ⟨b', hne', hb', heq⟩ := apply_pair_of_ends hp hb hends
      exact .inr ⟨b', t', hne', hb', rfl, by rw [heq]; simp⟩
    · exact .inl (by rw [apply_pair_of_not_ends hp hb hends]; simp)
  · have hsplit : b ++ c :: t = b ++ [c] ++ t := by simp
    have hself : p.apply (b ++ [c]) = b ++ [c] :=
      apply_eq_self hp (by simp [List.count_eq_zero_of_not_mem hb])
    exact .inl (by
      rw [hsplit, apply_append_of_closed hp (closed_append_mark b) ht, hself]
      simp)

/-- No mark is left for the marks that are lost behind the first one. -/
theorem count_run_before_mark (hps : ∀ p ∈ passes, p.Closes c) (hb : c ∉ b) (t : List α) :
    (run passes (b ++ c :: t)).count c ≤ (run passes t).count c + 1 := by
  induction passes generalizing b t with
  | nil => simp [List.count_eq_zero_of_not_mem hb]
  | cons p passes ih =>
    have hp := hps p List.mem_cons_self
    have hrest := fun q hq => hps q (List.mem_cons_of_mem p hq)
    rcases apply_before_mark hp hb t with heq | ⟨b', t', -, hb', rfl, heq⟩
    · rw [run_cons, run_cons, heq]
      exact ih hrest hb _
    · rw [run_cons, run_cons, heq, apply_mark hp, run_mark hrest, List.count_cons_self]
      exact (ih hrest hb' _).trans (Nat.le_succ _)

/-- Each of two texts is rewritten on its own if the first ends with a mark and the second does not
begin with one. -/
theorem run_append_before_mark (hps : ∀ p ∈ passes, p.Closes c) (hx : Closed c x) (hne : b ≠ [])
    (hb : c ∉ b) (t : List α) :
    run passes (x ++ (b ++ c :: t)) = run passes x ++ run passes (b ++ c :: t) := by
  induction passes generalizing x b t with
  | nil => rfl
  | cons p passes ih =>
    have hp := hps p List.mem_cons_self
    have hrest := fun q hq => hps q (List.mem_cons_of_mem p hq)
    have hhead : (b ++ c :: t).head? ≠ some c := by
      obtain ⟨d, b, rfl⟩ := List.exists_cons_of_ne_nil hne
      simp only [List.cons_append, List.head?_cons, ne_eq, Option.some.injEq]
      rintro rfl
      exact hb List.mem_cons_self
    rw [run_cons, run_cons, run_cons, apply_append_of_closed hp hx hhead]
    rcases apply_before_mark hp hb t with heq | ⟨b', t', hne', hb', -, heq⟩
    · rw [heq]
      exact ih hrest (closed_apply hp hx) hne hb _
    · rw [heq]
      exact ih hrest (closed_apply hp hx) hne' hb' _

theorem run_append_of_not_mem (hps : ∀ p ∈ passes, p.Closes c) (hx : Closed c x) (hy : c ∉ y) :
    run passes (x ++ y) = run passes x ++ y := by
  induction passes generalizing x with
  | nil => rfl
  | cons p passes ih =>
    have hp := hps p List.mem_cons_self
    have hhead : y.head? ≠ some c := fun h => hy (List.mem_of_mem_head? h)
    rw [run_cons, run_cons, apply_append_of_closed hp hx hhead,
      apply_eq_self (s := y) hp (by simp [List.count_eq_zero_of_not_mem hy])]
    exact ih (fun q hq => hps q (List.mem_cons_of_mem p hq)) (closed_apply hp hx)

/-- A text with its double mark stays if no pass finds anything that ends with it. -/
theorem run_pair_iff (hps : ∀ p ∈ passes, p.Closes c) (hb : c ∉ b) (t : List α) :
    run passes (b ++ [c, c] ++ t) = b ++ [c, c] ++ run passes t ↔
      ∀ p ∈ passes, ¬ p.Ends (b ++ [c, c]) := by
  induction passes generalizing t with
  | nil => simp
  | cons p passes ih =>
    have hp := hps p List.mem_cons_self
    have hrest := fun q hq => hps q (List.mem_cons_of_mem p hq)
    rw [run_cons, run_cons, apply_append_of_pair hp, List.forall_mem_cons]
    by_cases hends : p.Ends (b ++ [c, c])
    · refine iff_of_false (fun heq => ?_) fun hand => hand.1 hends
      obtain ⟨b', -, hb', hlost⟩ := apply_pair_of_ends hp hb hends
      have hcount := count_run_before_mark hrest hb' (p.apply t)
      rw [hlost, List.append_assoc, List.singleton_append] at heq
      rw [heq, List.count_append, List.count_append, List.count_eq_zero_of_not_mem hb] at hcount
      simp at hcount
      omega
    · rw [apply_pair_of_not_ends hp hb hends, and_iff_right hends]
      exact ih hrest _

/-- A text that a double mark closes stays, and what is around it is rewritten on its own, if and
only if no pass finds anything that ends with it. -/
theorem run_keeps_iff (hps : ∀ p ∈ passes, p.Closes c) (hne : v ≠ []) (hv : c ∉ v)
    (x y : List α) :
    run passes (x ++ (v ++ [c, c]) ++ y) = run passes x ++ (v ++ [c, c]) ++ run passes y ↔
      ∀ p ∈ passes, ¬ p.Ends (x ++ (v ++ [c, c])) := by
  obtain ⟨x₁, x₂, rfl, hx₁, hx₂⟩ := exists_closed c x
  have hb : c ∉ x₂ ++ v := by simp [hx₂, hv]
  have hne' : x₂ ++ v ≠ [] := by simp [hne]
  have htext : x₁ ++ x₂ ++ (v ++ [c, c]) ++ y = x₁ ++ (x₂ ++ v ++ c :: c :: y) := by simp
  have hkept : run passes (x₁ ++ x₂) ++ (v ++ [c, c]) ++ run passes y =
      run passes x₁ ++ (x₂ ++ v ++ [c, c] ++ run passes y) := by
    rw [run_append_of_not_mem hps hx₁ hx₂]
    simp
  have hends : x₁ ++ x₂ ++ (v ++ [c, c]) = x₁ ++ (x₂ ++ v ++ [c, c]) := by simp
  have hpair : x₂ ++ v ++ c :: c :: y = x₂ ++ v ++ [c, c] ++ y := by simp
  rw [htext, hkept, run_append_before_mark hps hx₁ hne' hb, List.append_cancel_left_eq, hpair,
    run_pair_iff hps hb, hends]
  exact forall₂_congr fun p hp => not_congr (ends_append_iff (hps p hp) hx₁ hb).symm

end

end Pass

end Mdock.Lib
