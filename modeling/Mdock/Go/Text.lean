import Mdock.Go.Strings

/-! `strings.Index`, `Trim` and `TrimSpace` on texts that are put together from parts. -/
namespace Mdock.Go

def tab : UInt8 := 0x09
def newline : UInt8 := 0x0A
def space : UInt8 := 0x20

/-- `strings.EqualFold` with a text of letters that fold to no others than their capitals. -/
def equalFold (a b : Bytes) : Prop :=
  (a.map fun c => if 0x41 ≤ c ∧ c ≤ 0x5A then c + 0x20 else c) = b

instance (a b : Bytes) : Decidable (equalFold a b) := inferInstanceAs (Decidable (_ = _))

/-! ### Lines -/

/-- Lines, each with its line end. -/
def unlines (lines : List Bytes) : Bytes := lines.flatMap (· ++ [newline])

theorem unlines_cons (l : Bytes) (lines : List Bytes) :
    unlines (l :: lines) = l ++ newline :: unlines lines := by
  simp [unlines]

theorem splitOn_unlines_append {lines : List Bytes} (h : ∀ l ∈ lines, newline ∉ l) (s : Bytes) :
    (unlines lines ++ s).splitOn newline = lines ++ s.splitOn newline := by
  induction lines with
  | nil => rfl
  | cons l lines ih =>
    rw [unlines_cons, List.append_assoc, List.cons_append, List.splitOn_append_cons_self,
      List.splitOn_eq_singleton (h l (by simp)), ih fun m hm => h m (List.mem_cons_of_mem l hm)]
    rfl

theorem splitOn_unlines {lines : List Bytes} (h : ∀ l ∈ lines, newline ∉ l) {s : Bytes}
    (hs : newline ∉ s) : (unlines lines ++ s).splitOn newline = lines ++ [s] := by
  rw [splitOn_unlines_append h, List.splitOn_eq_singleton hs]

/-- A text from the start of one of its lines on. -/
theorem eq_unlines_append {s l : Bytes} {ls ms : List Bytes}
    (h : s.splitOn newline = ls ++ l :: ms) : ∃ t, s = unlines ls ++ (l ++ t) := by
  have hjoin : ∀ ls : List Bytes, ∃ t, [newline].intercalate (ls ++ l :: ms) =
      unlines ls ++ (l ++ t) := by
    intro ls
    induction ls with
    | nil =>
      cases ms with
      | nil => exact ⟨[], by simp [List.intercalate, unlines]⟩
      | cons m ms =>
        exact ⟨newline :: [newline].intercalate (m :: ms), by simp [List.intercalate, unlines]⟩
    | cons k ls ih =>
      obtain ⟨t, ht⟩ := ih
      refine ⟨t, ?_⟩
      rw [List.cons_append, List.intercalate_cons_of_ne_nil (by simp), ht, unlines_cons]
      simp
  obtain ⟨t, ht⟩ := hjoin ls
  exact ⟨t, by rw [← ht, ← h, List.intercalate_splitOn]⟩

/-! ### `Index` -/

/-- `s[:strings.Index(s, sep)]`, `none` when the index is -1. -/
def before? (sep : Bytes) : Bytes → Option Bytes
  | [] => if sep = [] then some [] else none
  | b :: s => if sep.isPrefixOf (b :: s) then some [] else (before? sep s).map (b :: ·)

section Index
variable {sep a b p s : Bytes} {c : UInt8}

theorem before?_spec (h : before? sep s = some p) : ∃ q, s = p ++ (sep ++ q) := by
  induction s generalizing p with
  | nil =>
    rw [before?] at h
    split at h
    · rename_i hs
      cases h
      exact ⟨[], by simp [hs]⟩
    · cases h
  | cons x s ih =>
    rw [before?] at h
    split at h
    · rename_i hp
      cases h
      obtain ⟨q, hq⟩ := List.isPrefixOf_iff_prefix.mp hp
      exact ⟨q, hq.symm⟩
    · obtain ⟨p', hp', rfl⟩ := Option.map_eq_some_iff.mp h
      obtain ⟨q, rfl⟩ := ih hp'
      exact ⟨q, rfl⟩

theorem before?_isSome (h : sep <:+: s) : (before? sep s).isSome := by
  induction s with
  | nil =>
    rw [before?, if_pos (List.eq_nil_of_infix_nil h)]
    rfl
  | cons x s ih =>
    rw [before?]
    split
    · rfl
    · rename_i hp
      rw [Option.isSome_map]
      refine ih ?_
      rcases List.infix_cons_iff.mp h with h | h
      · exact absurd (List.isPrefixOf_iff_prefix.mpr h) hp
      · exact h

/-- An occurrence that is there already stays the first one. -/
theorem before?_append_left (h : before? sep a = some p) (b : Bytes) :
    before? sep (a ++ b) = some p := by
  induction a generalizing p with
  | nil =>
    rw [before?] at h
    split at h
    · rename_i hs
      cases h
      cases b with
      | nil => simp [before?, hs]
      | cons x b => simp [before?, hs]
    · cases h
  | cons x a ih =>
    rw [before?] at h
    rw [List.cons_append, before?]
    split at h
    · rename_i hp
      cases h
      refine if_pos ?_
      rw [List.isPrefixOf_iff_prefix] at hp ⊢
      exact hp.trans (List.prefix_append (x :: a) b)
    · rename_i hp
      obtain ⟨p', hp', rfl⟩ := Option.map_eq_some_iff.mp h
      split
      · rename_i hpre
        obtain ⟨q, rfl⟩ := before?_spec hp'
        refine absurd (List.isPrefixOf_iff_prefix.mpr ?_) hp
        exact List.prefix_of_prefix_length_le (List.isPrefixOf_iff_prefix.mp hpre)
          (List.prefix_append _ b) (by simp; omega)
      · rw [ih hp']
        rfl

theorem prefix_of_append_cons (hc : c ∉ sep) (h : sep <+: a ++ c :: b) : sep <+: a := by
  obtain ⟨t, ht⟩ := h
  rcases List.append_eq_append_iff.mp ht with ⟨u, hu, -⟩ | ⟨u, hu, he⟩
  · exact ⟨u, hu.symm⟩
  · cases u with
    | nil => exact ⟨[], by simpa using hu⟩
    | cons x u =>
      obtain rfl : c = x := (List.cons.inj he).1
      exact absurd (by simp [hu]) hc

theorem infix_of_append_cons (hc : c ∉ sep) (h : sep <:+: a ++ c :: b) :
    sep <:+: a ∨ sep <:+: b := by
  induction a with
  | nil =>
    rcases List.infix_cons_iff.mp h with h | h
    · exact .inl (prefix_of_append_cons (a := []) hc h).isInfix
    · exact .inr h
  | cons x a ih =>
    rw [List.cons_append] at h
    rcases List.infix_cons_iff.mp h with h | h
    · exact .inl (prefix_of_append_cons (a := x :: a) hc h).isInfix
    · exact (ih h).imp_left List.infix_cons

/-- Behind a part without an occurrence, and a byte that belongs to none, the search goes on. -/
theorem before?_append_cons (hc : c ∉ sep) (hne : sep ≠ []) (ha : ¬ sep <:+: a) :
    before? sep (a ++ c :: b) = (before? sep b).map (a ++ c :: ·) := by
  induction a with
  | nil =>
    rw [List.nil_append, before?, if_neg]
    · rfl
    · rw [List.isPrefixOf_iff_prefix]
      intro hp
      exact hne (List.prefix_nil.mp (prefix_of_append_cons (a := []) hc hp))
  | cons x a ih =>
    rw [List.cons_append, before?, if_neg, ih fun hi => ha (List.infix_cons hi), Option.map_map]
    · rfl
    · rw [List.isPrefixOf_iff_prefix, ← List.cons_append]
      exact fun hp => ha (prefix_of_append_cons hc hp).isInfix

end Index

/-! ### `TrimSpace` -/

/-- A byte that no white space has. -/
def IsInk (c : UInt8) : Prop := ∀ r ∈ spaceRunes, c ∉ r

instance (c : UInt8) : Decidable (IsInk c) := inferInstanceAs (Decidable (∀ r ∈ spaceRunes, c ∉ r))

/-- A text that neither begins nor ends with white space. -/
structure IsTrimmed (s : Bytes) : Prop where
  ne_nil : s ≠ []
  left : ∀ r ∈ spaceRunes, ¬ r <+: s
  right : ∀ r ∈ spaceRunes, ¬ r <:+ s

section Trim
variable {rs : List Bytes} {s x y : Bytes} {c : UInt8}

theorem dropRunes_of_not (h : ∀ r ∈ rs, ¬ r <+: s) (fuel : Nat) : dropRunes rs fuel s = s := by
  cases fuel with
  | zero => rfl
  | succ fuel =>
    have hnone : rs.find? (fun r => r.isPrefixOf s) = none := by
      rw [List.find?_eq_none]
      exact fun r hr hp => h r hr (List.isPrefixOf_iff_prefix.mp hp)
    rw [dropRunes, hnone]

/-- What is dropped stops at the first ink. -/
theorem dropRunes_append (hc : ∀ r ∈ rs, c ∉ r) (fuel : Nat) :
    ∃ x', x' <:+ x ∧ dropRunes rs fuel (x ++ c :: y) = x' ++ c :: y := by
  induction fuel generalizing x with
  | zero => exact ⟨x, List.suffix_rfl, rfl⟩
  | succ fuel ih =>
    rw [dropRunes]
    cases hf : rs.find? fun r => r.isPrefixOf (x ++ c :: y) with
    | none => exact ⟨x, List.suffix_rfl, rfl⟩
    | some r =>
      have hr : r <+: x := prefix_of_append_cons (hc r (List.mem_of_find?_eq_some hf))
        (List.isPrefixOf_iff_prefix.mp (by simpa using List.find?_some hf))
      obtain ⟨x₂, rfl⟩ := hr
      obtain ⟨x', hx', he⟩ := ih (x := x₂)
      refine ⟨x', hx'.trans (List.suffix_append r x₂), ?_⟩
      rw [← he]
      simp

theorem spaceRunes_spec : ∀ r ∈ spaceRunes, r ≠ [] ∧ (0x20 ∈ r → r = [0x20]) := by decide

theorem IsInk.not_space_rune (h : IsInk c) (s : Bytes) : ∀ r ∈ spaceRunes, ¬ r <+: c :: s := by
  intro r hr hp
  cases r with
  | nil => exact (spaceRunes_spec [] hr).1 rfl
  | cons b r =>
    obtain rfl := (List.cons_prefix_cons.mp hp).1
    exact h _ hr (by simp)

theorem trimSpace_eq (hl : ∀ r ∈ spaceRunes, ¬ r <+: s) : trimSpace s =
    (dropRunes (spaceRunes.map List.reverse) s.length s.reverse).reverse := by
  rw [trimSpace, dropRunes_of_not hl]

theorem not_prefix_reverse (hr : ∀ r ∈ spaceRunes, ¬ r <:+ s) :
    ∀ r ∈ spaceRunes.map List.reverse, ¬ r <+: s.reverse := by
  intro r' hm
  obtain ⟨r, hmem, rfl⟩ := List.mem_map.mp hm
  exact fun hp => hr r hmem (List.reverse_prefix.mp hp)

theorem IsTrimmed.trimSpace (h : IsTrimmed s) : trimSpace s = s := by
  rw [trimSpace_eq h.left, dropRunes_of_not (not_prefix_reverse h.right), List.reverse_reverse]

/-- From the first to the last ink nothing is trimmed away. -/
theorem trimSpace_ink {a b : UInt8} {m t : Bytes} (ha : IsInk a) (hb : IsInk b) :
    ∃ t', t' <+: t ∧ Go.trimSpace (a :: (m ++ b :: t)) = a :: (m ++ b :: t') := by
  have hb' : ∀ r ∈ spaceRunes.map List.reverse, b ∉ r := by
    intro r' hm
    obtain ⟨r, hmem, rfl⟩ := List.mem_map.mp hm
    simpa using hb r hmem
  have hrev : (a :: (m ++ b :: t)).reverse = t.reverse ++ b :: (a :: m).reverse := by simp
  obtain ⟨x, hx, he⟩ := dropRunes_append (x := t.reverse) (y := (a :: m).reverse) hb'
    (a :: (m ++ b :: t)).length
  refine ⟨x.reverse, List.reverse_suffix.mp (by simpa using hx), ?_⟩
  rw [trimSpace_eq (ha.not_space_rune _), hrev, he]
  simp

theorem IsInk.not_suffix (h : IsInk c) (s : Bytes) : ∀ r ∈ spaceRunes, ¬ r <:+ s ++ [c] := by
  intro r hr hs
  have hp := List.reverse_prefix.mpr hs
  rw [List.reverse_append, List.reverse_singleton, List.singleton_append] at hp
  cases hrev : r.reverse with
  | nil => exact (spaceRunes_spec r hr).1 (List.reverse_eq_nil_iff.mp hrev)
  | cons b r' =>
    rw [hrev] at hp
    obtain rfl := (List.cons_prefix_cons.mp hp).1
    exact h r hr (List.mem_reverse.mp (hrev ▸ List.mem_cons_self))

theorem isTrimmed_ends {a b : UInt8} (ha : IsInk a) (hb : IsInk b) (m : Bytes) :
    IsTrimmed (a :: (m ++ [b])) where
  ne_nil := by simp
  left := ha.not_space_rune _
  right := hb.not_suffix (a :: m)

/-- A space, a tab, a line end. -/
def IsBlank (c : UInt8) : Prop := c = space ∨ c = tab ∨ c = newline

theorem rune_of_blank (hc : IsBlank c) {r : Bytes} (hr : r ∈ spaceRunes.map List.reverse) :
    r ≠ [] ∧ [c] ∈ spaceRunes.map List.reverse ∧ (c ∈ r → r = [c]) := by
  have all : ∀ d ∈ [space, tab, newline], ∀ s ∈ spaceRunes.map List.reverse,
      s ≠ [] ∧ [d] ∈ spaceRunes.map List.reverse ∧ (d ∈ s → s = [d]) := by
    decide +kernel
  exact all c (by simpa [IsBlank] using hc) r hr

theorem dropRunes_blank {b : UInt8} (hb : ∀ r ∈ spaceRunes.map List.reverse, b ∉ r)
    (hx : ∀ c ∈ x, IsBlank c) {fuel : Nat} (hf : x.length ≤ fuel) :
    dropRunes (spaceRunes.map List.reverse) fuel (x ++ b :: y) = b :: y := by
  induction x generalizing fuel with
  | nil =>
    refine dropRunes_of_not (fun r hr hp => ?_) fuel
    cases r with
    | nil => exact (rune_of_blank (c := space) (.inl rfl) hr).1 rfl
    | cons d r =>
      obtain rfl := (List.cons_prefix_cons.mp hp).1
      exact hb _ hr (by simp)
  | cons c x ih =>
    cases fuel with
    | zero => exact absurd hf (by simp)
    | succ fuel =>
      have hc := hx c (by simp)
      have hfind : (spaceRunes.map List.reverse).find? (fun r => r.isPrefixOf (c :: x ++ b :: y)) =
          some [c] := by
        cases hf : (spaceRunes.map List.reverse).find? fun r => r.isPrefixOf (c :: x ++ b :: y) with
        | none =>
          have hmem := (rune_of_blank hc (r := [0x09]) (by decide)).2.1
          exact absurd (List.find?_eq_none.mp hf _ hmem) (by simp [List.isPrefixOf])
        | some r =>
          have hp : r <+: c :: (x ++ b :: y) := by simpa using List.find?_some hf
          have hr := rune_of_blank hc (List.mem_of_find?_eq_some hf)
          cases r with
          | nil => exact absurd rfl hr.1
          | cons d r =>
            obtain rfl := (List.cons_prefix_cons.mp hp).1
            rw [hr.2.2 (by simp)]
      rw [dropRunes, hfind]
      exact ih (fun d hd => hx d (List.mem_cons_of_mem c hd)) (by simpa using hf)

/-- Blanks behind the last ink are trimmed away. -/
theorem trimSpace_blank {a b : UInt8} {m u ws : Bytes} (hs : u ++ b :: ws = a :: m) (ha : IsInk a)
    (hb : IsInk b) (hws : ∀ c ∈ ws, IsBlank c) : Go.trimSpace (u ++ b :: ws) = u ++ [b] := by
  have hb' : ∀ r ∈ spaceRunes.map List.reverse, b ∉ r := by
    intro r' hm
    obtain ⟨r, hmem, rfl⟩ := List.mem_map.mp hm
    simpa using hb r hmem
  have hrev : (u ++ b :: ws).reverse = ws.reverse ++ b :: u.reverse := by simp
  rw [trimSpace_eq (by rw [hs]; exact ha.not_space_rune m), hrev,
    dropRunes_blank hb' (by simpa using hws) (by simp; omega)]
  simp

theorem IsTrimmed.cons (hc : IsInk c) (h : IsTrimmed s) : IsTrimmed (c :: s) where
  ne_nil := by simp
  left := hc.not_space_rune s
  right := by
    intro r hr hs
    rcases List.suffix_cons_iff.mp hs with rfl | hs
    · exact hc _ hr (by simp)
    · exact h.right r hr hs

/-- A space in front of a text is trimmed away, and is none where ink stands before it. -/
theorem IsTrimmed.not_suffix_space (h : IsTrimmed s) : ∀ r ∈ spaceRunes, ¬ r <:+ 0x20 :: s := by
  intro r hr hs
  rcases List.suffix_cons_iff.mp hs with rfl | hs
  · exact h.ne_nil (List.cons.inj ((spaceRunes_spec _ hr).2 (by simp))).2
  · exact h.right r hr hs

theorem IsTrimmed.trimSpace_space (h : IsTrimmed s) : Go.trimSpace (0x20 :: s) = s := by
  have hmem : ([0x20] : Bytes) ∈ spaceRunes := by decide
  have hfind : spaceRunes.find? (fun r => r.isPrefixOf (0x20 :: s)) = some [0x20] := by
    cases hf : spaceRunes.find? fun r => r.isPrefixOf (0x20 :: s) with
    | none => exact absurd (List.find?_eq_none.mp hf _ hmem) (by simp [List.isPrefixOf])
    | some r =>
      have hp : r <+: 0x20 :: s := by simpa using List.find?_some hf
      have hr := List.mem_of_find?_eq_some hf
      cases r with
      | nil => exact absurd rfl (spaceRunes_spec [] hr).1
      | cons b r =>
        obtain rfl := (List.cons_prefix_cons.mp hp).1
        rw [(spaceRunes_spec _ hr).2 (by simp)]
  have hdrop : dropRunes spaceRunes (0x20 :: s).length (0x20 :: s) = s := by
    rw [List.length_cons, dropRunes, hfind]
    exact dropRunes_of_not h.left _
  rw [Go.trimSpace, hdrop, dropRunes_of_not (not_prefix_reverse h.right), List.reverse_reverse]

/-- A list item: ink, a space, a text. -/
theorem IsTrimmed.cons_space (hc : IsInk c) (h : IsTrimmed s) : IsTrimmed (c :: 0x20 :: s) where
  ne_nil := by simp
  left := hc.not_space_rune _
  right := by
    intro r hr hs
    rcases List.suffix_cons_iff.mp hs with rfl | hs
    · exact hc _ hr (by simp)
    · exact h.not_suffix_space r hr hs

end Trim

/-! ### `Trim` -/

/-- `strings.Trim`, for a cutset of ASCII characters. -/
def trim (cutset s : Bytes) : Bytes :=
  ((s.dropWhile (· ∈ cutset)).reverse.dropWhile (· ∈ cutset)).reverse

section Cutset
variable {cutset s : Bytes} {c : UInt8}

theorem trim_cons (h : c ∈ cutset) : trim cutset (c :: s) = trim cutset s := by
  rw [trim, List.dropWhile_cons_of_pos (by simpa using h), trim]

theorem trim_concat (h : c ∈ cutset) : trim cutset (s ++ [c]) = trim cutset s := by
  rw [trim, trim, List.dropWhile_append]
  split
  · rename_i he
    rw [List.isEmpty_iff.mp he, List.dropWhile_cons_of_pos (by simpa using h)]
    rfl
  · rw [List.reverse_append, List.reverse_singleton, List.singleton_append,
      List.dropWhile_cons_of_pos (by simpa using h)]

/-- Nothing is cut where neither end is in the cutset. -/
theorem trim_of_not (hh : ∀ a, s.head? = some a → a ∉ cutset)
    (hl : ∀ a, s.getLast? = some a → a ∉ cutset) : trim cutset s = s := by
  have hkeep : ∀ {t : Bytes}, (∀ a, t.head? = some a → a ∉ cutset) →
      t.dropWhile (· ∈ cutset) = t := by
    intro t ht
    cases t with
    | nil => rfl
    | cons a t => exact List.dropWhile_cons_of_neg (by simpa using ht a rfl)
  have hr : ∀ a, s.reverse.head? = some a → a ∉ cutset := by
    intro a ha
    exact hl a (by rwa [List.head?_reverse] at ha)
  rw [trim, hkeep hh, hkeep hr, List.reverse_reverse]

end Cutset

end Mdock.Go
