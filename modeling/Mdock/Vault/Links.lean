import Mdock.Vault.Tree

/-! Where paths lead: the walk of the kernel as a relation, and what is left of it once
missing directories are made. -/
namespace Mdock.Vault
open Mdock.Go Mdock.Lib

/-- A name that a walk goes one step down for. -/
def Plain (n : Bytes) : Prop := n ≠ [] ∧ n ≠ dot ∧ n ≠ dotdot

instance plainDecidable (n : Bytes) : Decidable (Plain n) :=
  inferInstanceAs (Decidable (_ ∧ _ ∧ _))

namespace Tree

/-- Whatever has a name stands in a directory. -/
structure Rooted (t : Tree) : Prop where
  parent : ∀ {l : Loc} {n : Bytes}, (t.node (l ++ [n])).isSome → t.node l = some .dir
  plain : ∀ {l : Loc} {n : Bytes}, (t.node (l ++ [n])).isSome → Plain n

/-- Where the target of a link in the directory `cur` starts. -/
def start (target : Bytes) (cur : Loc) : Loc := if target.head? = some slash then [] else cur

/-- The names lead from the directory `cur` to the last place, over so many links. -/
inductive Walks (t : Tree) (follow : Bool) : Nat → Loc → List Bytes → Loc → Prop
  | done {cur : Loc} : Walks t follow 0 cur [] cur
  | stay {j : Nat} {cur l : Loc} {n : Bytes} {rest : List Bytes} : t.node cur = some .dir →
      n = [] ∨ n = dot → Walks t follow j cur rest l → Walks t follow j cur (n :: rest) l
  | up {j : Nat} {cur l : Loc} {n : Bytes} {rest : List Bytes} : t.node cur = some .dir →
      n = dotdot → Walks t follow j cur.dropLast rest l → Walks t follow j cur (n :: rest) l
  | down {j : Nat} {cur l : Loc} {n : Bytes} {rest : List Bytes} : t.node cur = some .dir →
      Plain n → (∀ target, t.node (cur ++ [n]) ≠ some (.link target)) →
      Walks t follow j (cur ++ [n]) rest l → Walks t follow j cur (n :: rest) l
  | last {cur : Loc} {n target : Bytes} : t.node cur = some .dir → Plain n →
      t.node (cur ++ [n]) = some (.link target) → follow = false →
      Walks t follow 0 cur [n] (cur ++ [n])
  | link {j : Nat} {cur l : Loc} {n target : Bytes} {rest : List Bytes} :
      t.node cur = some .dir → Plain n → t.node (cur ++ [n]) = some (.link target) →
      ¬ (rest = [] ∧ follow = false) →
      Walks t follow j (start target cur) (split target ++ rest) l →
      Walks t follow (j + 1) cur (n :: rest) l

theorem walk_nil (t : Tree) (follow : Bool) (k : Nat) (cur : Loc) :
    t.walk follow k cur [] = .ok cur := by
  cases k <;> rfl

theorem walk_cons (t : Tree) (follow : Bool) (k : Nat) (cur : Loc) (n : Bytes)
    (rest : List Bytes) : t.walk follow k cur (n :: rest) =
      match t.node cur with
      | none => .error .notExist
      | some (.file _) | some (.link _) => .error .notDir
      | some .dir =>
        if n = [] ∨ n = dot then t.walk follow k cur rest
        else if n = dotdot then t.walk follow k cur.dropLast rest
        else
          match t.node (cur ++ [n]) with
          | some (.link target) =>
            if rest = [] ∧ follow = false then .ok (cur ++ [n])
            else
              match k with
              | 0 => .error .loop
              | k + 1 => t.walk follow k (start target cur) (split target ++ rest)
          | _ => t.walk follow k (cur ++ [n]) rest := by
  cases k <;> rfl

theorem Walks.walk {t : Tree} {follow : Bool} {j : Nat} {cur l : Loc} {ns : List Bytes}
    (h : Walks t follow j cur ns l) {k : Nat} (hk : j ≤ k) : t.walk follow k cur ns = .ok l := by
  induction h generalizing k with
  | done => exact walk_nil t follow k _
  | stay hd hn _ ih => simp only [walk_cons, hd, hn, if_true, ih hk]
  | up hd hn _ ih =>
    have hne : ¬ (dotdot = [] ∨ dotdot = dot) := by decide
    simp only [walk_cons, hd, hn, hne, if_false, if_true, ih hk]
  | down hd hn _ _ ih =>
    simp only [walk_cons, hd, hn.1, hn.2.1, hn.2.2, or_self, if_false, ih hk]
  | last hd hn hl hf =>
    simp only [walk_cons, hd, hn.1, hn.2.1, hn.2.2, or_self, if_false, hl, hf, and_self, if_true]
  | link hd hn hl hf _ ih =>
    obtain ⟨k, rfl⟩ := Nat.exists_eq_add_of_lt (Nat.lt_of_lt_of_le (Nat.lt_succ_self _) hk)
    simp only [walk_cons, hd, hn.1, hn.2.1, hn.2.2, or_self, if_false, hl, hf]
    exact ih (by omega)

theorem walks_of_walk {t : Tree} {follow : Bool} {k : Nat} {cur l : Loc} {ns : List Bytes}
    (h : t.walk follow k cur ns = .ok l) : ∃ j ≤ k, Walks t follow j cur ns l := by
  induction k using Nat.strong_induction_on generalizing cur ns l with
  | _ k ihk =>
    induction ns generalizing cur with
    | nil =>
      rw [walk_nil] at h
      cases h
      exact ⟨0, Nat.zero_le k, .done⟩
    | cons n rest ih =>
      rw [walk_cons] at h
      split at h
      · cases h
      · cases h
      · cases h
      · rename_i hd
        split at h
        · rename_i hn
          obtain ⟨j, hj, hw⟩ := ih h
          exact ⟨j, hj, .stay hd hn hw⟩
        · rename_i hn
          split at h
          · rename_i hup
            obtain ⟨j, hj, hw⟩ := ih h
            exact ⟨j, hj, .up hd hup hw⟩
          · rename_i hup
            have hp : Plain n := ⟨fun he => hn (.inl he), fun he => hn (.inr he), hup⟩
            split at h
            · rename_i target hl
              split at h
              · rename_i hf
                obtain ⟨rfl, hf⟩ := hf
                cases h
                exact ⟨0, Nat.zero_le k, .last hd hp hl hf⟩
              · rename_i hf
                cases k with
                | zero => cases h
                | succ k =>
                  obtain ⟨j, hj, hw⟩ := ihk k (Nat.lt_succ_self k) h
                  exact ⟨j + 1, by omega, .link hd hp hl hf hw⟩
            · rename_i hl
              obtain ⟨j, hj, hw⟩ := ih h
              exact ⟨j, hj, .down hd hp hl hw⟩

/-- The relation is the function, without its bound on links. -/
theorem walk_eq_ok {t : Tree} {follow : Bool} {k : Nat} {cur l : Loc} {ns : List Bytes} :
    t.walk follow k cur ns = .ok l ↔ ∃ j ≤ k, Walks t follow j cur ns l := by
  constructor
  · exact walks_of_walk
  · rintro ⟨j, hj, hw⟩
    exact hw.walk hj

theorem walks_end {t : Tree} {follow : Bool} {j k : Nat} {cur l l' : Loc} {ns : List Bytes}
    (h : Walks t follow j cur ns l) (h' : t.walk follow k cur ns = .ok l') : l = l' := by
  obtain ⟨j', -, hw⟩ := walks_of_walk h'
  have hl := h.walk (Nat.le_max_left j j')
  rw [hw.walk (Nat.le_max_right j j')] at hl
  exact (Except.ok.inj hl).symm

section Paths
variable {t : Tree} {follow : Bool} {i j k : Nat} {cur l m : Loc} {p q ns : List Bytes} {n : Bytes}

/-- A walk along `p ++ q` passes the end of `p`. -/
theorem Walks.passes (h : Walks t follow j cur (p ++ q) l) (hq : q ≠ []) :
    ∃ i m i', Walks t true i cur p m ∧ Walks t follow i' m q l ∧ i + i' = j := by
  generalize hns : p ++ q = ns at h
  induction h generalizing p with
  | done => exact absurd (List.append_eq_nil_iff.mp hns).2 hq
  | @stay j cur l n rest hd hn hw ih =>
    cases p with
    | nil =>
      obtain rfl : q = n :: rest := hns
      exact ⟨0, cur, j, .done, .stay hd hn hw, Nat.zero_add j⟩
    | cons a p =>
      obtain ⟨rfl, rfl⟩ := List.cons.inj hns
      obtain ⟨i, m, i', h₁, h₂, hi⟩ := ih rfl
      exact ⟨i, m, i', .stay hd hn h₁, h₂, hi⟩
  | @up j cur l n rest hd hn hw ih =>
    cases p with
    | nil =>
      obtain rfl : q = n :: rest := hns
      exact ⟨0, cur, j, .done, .up hd hn hw, Nat.zero_add j⟩
    | cons a p =>
      obtain ⟨rfl, rfl⟩ := List.cons.inj hns
      obtain ⟨i, m, i', h₁, h₂, hi⟩ := ih rfl
      exact ⟨i, m, i', .up hd hn h₁, h₂, hi⟩
  | @down j cur l n rest hd hn hl hw ih =>
    cases p with
    | nil =>
      obtain rfl : q = n :: rest := hns
      exact ⟨0, cur, j, .done, .down hd hn hl hw, Nat.zero_add j⟩
    | cons a p =>
      obtain ⟨rfl, rfl⟩ := List.cons.inj hns
      obtain ⟨i, m, i', h₁, h₂, hi⟩ := ih rfl
      exact ⟨i, m, i', .down hd hn hl h₁, h₂, hi⟩
  | @last cur n target hd hn hl hf =>
    cases p with
    | nil =>
      obtain rfl : q = [n] := hns
      exact ⟨0, cur, 0, .done, .last hd hn hl hf, rfl⟩
    | cons a p =>
      obtain ⟨rfl, hpq⟩ := List.cons.inj hns
      exact absurd (List.append_eq_nil_iff.mp hpq).2 hq
  | @link j cur l n target rest hd hn hl hf hw ih =>
    cases p with
    | nil =>
      obtain rfl : q = n :: rest := hns
      exact ⟨0, cur, j + 1, .done, .link hd hn hl hf hw, Nat.zero_add _⟩
    | cons a p =>
      obtain ⟨rfl, rfl⟩ := List.cons.inj hns
      obtain ⟨i, m, i', h₁, h₂, hi⟩ := ih (List.append_assoc ..)
      exact ⟨i + 1, m, i', .link hd hn hl (by simp) h₁, h₂, by omega⟩

theorem Walks.append (h : Walks t true i cur p m) (h' : Walks t follow j m q l) (hq : q ≠ []) :
    Walks t follow (i + j) cur (p ++ q) l := by
  induction h with
  | done => rwa [Nat.zero_add]
  | stay hd hn _ ih => exact .stay hd hn (ih h')
  | up hd hn _ ih => exact .up hd hn (ih h')
  | down hd hn hl _ ih => exact .down hd hn hl (ih h')
  | last _ _ _ hf => cases hf
  | @link i cur m n target rest hd hn hl _ _ ih =>
    rw [show i + 1 + j = (i + j) + 1 by omega]
    refine .link hd hn hl (fun h => hq (List.append_eq_nil_iff.mp h.1).2) ?_
    exact List.append_assoc (split target) rest q ▸ ih h'

/-- A walk that ends on no link did not have to stop at one. -/
theorem Walks.followed (h : Walks t false j cur ns l)
    (hl : ∀ target, t.node l ≠ some (.link target)) : Walks t true j cur ns l := by
  induction h with
  | done => exact .done
  | stay hd hn _ ih => exact .stay hd hn (ih hl)
  | up hd hn _ ih => exact .up hd hn (ih hl)
  | down hd hn hln _ ih => exact .down hd hn hln (ih hl)
  | last _ _ hln _ => exact absurd hln (hl _)
  | link hd hn hln _ _ ih => exact .link hd hn hln (by simp) (ih hl)

/-- The last name of a path, when links there are not followed. -/
theorem walks_last (hn : Plain n) :
    Walks t false j cur (p ++ [n]) l ↔
      ∃ m, Walks t true j cur p m ∧ t.node m = some .dir ∧ l = m ++ [n] := by
  constructor
  · intro h
    obtain ⟨i, m, i', h₁, h₂, hi⟩ := h.passes (by simp)
    cases h₂ with
    | stay _ hs _ => exact absurd hs (not_or.mpr ⟨hn.1, hn.2.1⟩)
    | up _ hs _ => exact absurd hs hn.2.2
    | down hd _ _ hw =>
      cases hw
      exact ⟨m, by rwa [← hi], hd, rfl⟩
    | last hd _ _ _ => exact ⟨m, by rwa [← hi], hd, rfl⟩
    | link _ _ _ hf _ => simp at hf
  · rintro ⟨m, h, hd, rfl⟩
    have hlast : Walks t false 0 m [n] (m ++ [n]) := by
      by_cases hl : ∃ target, t.node (m ++ [n]) = some (.link target)
      · obtain ⟨target, hl⟩ := hl
        exact .last hd hn hl rfl
      · exact .down hd hn (not_exists.mp hl) .done
    exact h.append hlast (by simp)

/-- Where a walk ends there is something, or at least a directory to make it in. -/
theorem Walks.landing (ht : t.Rooted) (h : Walks t follow j cur ns l)
    (hcur : (t.node cur).isSome) :
    (t.node l).isSome ∨ ∃ m n, Plain n ∧ t.node m = some .dir ∧ l = m ++ [n] := by
  induction h with
  | done => exact .inl hcur
  | stay _ _ _ ih => exact ih hcur
  | @up j cur l n rest hd _ _ ih =>
    refine ih ?_
    rcases List.eq_nil_or_concat' cur with rfl | ⟨c, a, rfl⟩
    · exact hcur
    · rw [List.dropLast_concat, ht.parent hcur]
      rfl
  | @down j cur l n rest hd hn hl hw ih =>
    cases hs : t.node (cur ++ [n]) with
    | some _ => exact ih (by rw [hs]; rfl)
    | none =>
      cases hw with
      | done => exact .inr ⟨cur, n, hn, hd, rfl⟩
      | stay h _ _ | up h _ _ | down h _ _ _ | last h _ _ _ | link h _ _ _ _ => rw [hs] at h; cases h
  | @last cur n _ hd hn hl _ => exact .inr ⟨cur, n, hn, hd, rfl⟩
  | @link j cur l n target rest hd _ _ _ _ ih =>
    refine ih ?_
    unfold start
    split
    · rfl
    · exact hcur

theorem Rooted.dir_of_prefix (ht : t.Rooted) (hl : (t.node l).isSome) {p : Loc} (hp : p <+: l)
    (hne : p ≠ l) : t.node p = some .dir := by
  obtain ⟨q, rfl⟩ := hp
  induction q using List.reverseRecOn with
  | nil => simp at hne
  | append_singleton q n ih =>
    rw [← List.append_assoc] at hl
    have hd := ht.parent hl
    by_cases hq : q = []
    · simpa [hq] using hd
    · exact ih (by rw [hd]; rfl) (by simpa using hq)

theorem Rooted.plain_of_mem (ht : t.Rooted) (hl : (t.node l).isSome) {n : Bytes} (hn : n ∈ l) :
    Plain n := by
  obtain ⟨p, q, rfl⟩ := List.append_of_mem hn
  refine ht.plain (l := p) ?_
  by_cases hq : q = []
  · simpa [hq] using hl
  · rw [ht.dir_of_prefix hl (p := p ++ [n]) ⟨q, by simp⟩ (by simpa using hq)]
    rfl

/-- A place is a path without links to itself. -/
theorem Rooted.walks_self (ht : t.Rooted) (hl : t.node l = some .dir) :
    Walks t follow 0 [] l l := by
  suffices h : ∀ q p, p ++ q = l → Walks t follow 0 p q l from h l [] rfl
  intro q
  induction q with
  | nil =>
    intro p hp
    rw [List.append_nil] at hp
    exact hp ▸ .done
  | cons n q ih =>
    intro p hp
    have hs : (t.node l).isSome := by rw [hl]; rfl
    have hpn : p ++ [n] <+: l := ⟨q, by rw [← hp]; simp⟩
    have hd : t.node (p ++ [n]) = some .dir := by
      by_cases he : p ++ [n] = l
      · rw [he, hl]
      · exact ht.dir_of_prefix hs hpn he
    refine .down (ht.parent (by rw [hd]; rfl)) (ht.plain (l := p) (by rw [hd]; rfl)) ?_ ?_
    · intro target
      rw [hd]
      simp
    · exact ih _ (by rw [← hp]; simp)

theorem Walks.dir_of_ne_nil (h : Walks t follow j cur ns l) (hns : ns ≠ []) :
    t.node cur = some .dir := by
  cases h with
  | done => exact absurd rfl hns
  | stay hd _ _ | up hd _ _ | down hd _ _ _ | last hd _ _ _ | link hd _ _ _ _ => exact hd

/-- One more name, which stands for no link. -/
theorem Walks.down_last (hn : Plain n) (hl : t.node (cur ++ [n]) = none)
    (h : Walks t follow j cur [n] l) : l = cur ++ [n] := by
  cases h with
  | stay _ hs _ => exact absurd hs (not_or.mpr ⟨hn.1, hn.2.1⟩)
  | up _ hs _ => exact absurd hs hn.2.2
  | down _ _ _ hw =>
    cases hw
    rfl
  | last _ _ h _ | link _ _ h _ _ => simp [hl] at h

theorem existing_eq_ok {path : Loc} {x : Node} : t.existing follow k path = .ok (l, x) ↔
    t.walk follow k [] path = .ok l ∧ t.node l = some x := by
  unfold existing
  constructor
  · intro h
    split at h
    · cases h
    · rename_i l' hw
      split at h
      · cases h
      · rename_i hn
        cases h
        exact ⟨hw, hn⟩
  · rintro ⟨hw, hn⟩
    simp only [hw, hn]

theorem node_put (hl : l ≠ []) (x : Node) (l' : Loc) :
    (t.put l x).node l' = if l' = l then some x else t.node l' := by
  by_cases h : l' = l
  · subst h
    rw [if_pos rfl, node, if_neg hl, put]
    exact congrArg (Option.map Prod.snd) (Keyed.get?_upsert_self t (l', x))
  · rw [if_neg h, node_of_get? (get?_put_of_ne (Ne.symm h) x)]

/-! ### Making directories -/

/-- Directories were made, and nothing else happened. -/
def Grown (t u : Tree) : Prop :=
  ∀ l, u.node l = t.node l ∨ t.node l = none ∧ u.node l = some .dir

theorem Grown.trans {u v : Tree} (h : Grown t u) (h' : Grown u v) : Grown t v := by
  intro l
  rcases h l with he | ⟨hn, hd⟩
  · rw [← he]
    exact h' l
  · rcases h' l with he | ⟨hn', -⟩
    · exact .inr ⟨hn, he.trans hd⟩
    · rw [hd] at hn'
      cases hn'

theorem Grown.some {u : Tree} (h : Grown t u) {x : Node} (hx : t.node l = some x) :
    u.node l = some x := by
  rcases h l with he | ⟨hn, -⟩
  · rw [he, hx]
  · rw [hx] at hn
    cases hn

/-- What is there stays what it is, but for the contents of files, and no link is new. -/
structure Extends (t u : Tree) : Prop where
  dir : ∀ {l}, t.node l = some .dir → u.node l = some .dir
  file : ∀ {l data}, t.node l = some (.file data) → ∃ data', u.node l = some (.file data')
  link : ∀ {l target}, u.node l = some (.link target) ↔ t.node l = some (.link target)

theorem Extends.refl (t : Tree) : Extends t t := ⟨id, fun h => ⟨_, h⟩, Iff.rfl⟩

theorem Extends.trans {u v : Tree} (h : Extends t u) (h' : Extends u v) : Extends t v := by
  refine ⟨fun hd => h'.dir (h.dir hd), fun hf => ?_, h'.link.trans h.link⟩
  obtain ⟨data, hu⟩ := h.file hf
  exact h'.file hu

theorem Extends.isSome {u : Tree} (h : Extends t u) (hl : (t.node l).isSome) :
    (u.node l).isSome := by
  obtain ⟨x, hx⟩ := Option.isSome_iff_exists.mp hl
  cases x with
  | dir => exact Option.isSome_iff_exists.mpr ⟨_, h.dir hx⟩
  | file data =>
    obtain ⟨data', hu⟩ := h.file hx
    exact Option.isSome_iff_exists.mpr ⟨_, hu⟩
  | link target => exact Option.isSome_iff_exists.mpr ⟨_, h.link.mpr hx⟩

theorem Grown.extends {u : Tree} (h : Grown t u) : Extends t u := by
  refine ⟨h.some, fun hf => ⟨_, h.some hf⟩, ⟨fun hl => ?_, h.some⟩⟩
  rename_i l target
  rcases h l with he | ⟨-, hd⟩
  · rwa [← he]
  · rw [hd] at hl
    cases hl

theorem Walks.kept {u : Tree} (h : Walks t follow j cur ns l) (he : Extends t u) :
    Walks u follow j cur ns l := by
  induction h with
  | done => exact .done
  | stay hd hn _ ih => exact .stay (he.dir hd) hn ih
  | up hd hn _ ih => exact .up (he.dir hd) hn ih
  | down hd hn hl _ ih => exact .down (he.dir hd) hn (fun target h => hl target (he.link.mp h)) ih
  | last hd hn hl hf => exact .last (he.dir hd) hn (he.link.mpr hl) hf
  | link hd hn hl hf _ ih => exact .link (he.dir hd) hn (he.link.mpr hl) hf ih

theorem Walks.grown {u : Tree} (h : Walks t follow j cur ns l) (hg : Grown t u) :
    Walks u follow j cur ns l := h.kept hg.extends

/-- A walk that follows every link ends at none. -/
theorem Walks.no_link (ht : t.Rooted) (h : Walks t true j cur ns l)
    (hcur : ∀ target, t.node cur ≠ some (.link target)) (target : Bytes) :
    t.node l ≠ some (.link target) := by
  generalize hf : true = follow at h
  induction h with
  | done => exact hcur target
  | stay _ _ _ ih => exact ih hcur
  | @up j cur l n rest hd _ _ ih =>
    refine ih fun target => ?_
    rcases List.eq_nil_or_concat' cur with rfl | ⟨c, a, rfl⟩
    · exact hcur target
    · rw [List.dropLast_concat, ht.parent (by rw [hd]; rfl)]
      simp
  | down _ _ hl _ ih => exact ih hl
  | last _ _ _ hf' => rw [← hf] at hf'; cases hf'
  | @link j cur l n target' rest hd _ _ _ _ ih =>
    refine ih fun target => ?_
    unfold start
    split
    · simp [node]
    · rw [hd]
      simp

/-- What `os.Mkdir` finds, or makes. -/
theorem mkdirOne_cases {u : Tree} {path : Loc} (h : t.mkdirOne path = some u) :
    (u = t ∧ ∃ l, t.walk true kernelLinks [] path = .ok l ∧ t.node l = some .dir) ∨
      ∃ l, t.walk false kernelLinks [] path = .ok l ∧ t.node l = none ∧ u = t.put l .dir := by
  unfold mkdirOne at h
  split at h
  · rename_i l hs
    cases h
    exact .inl ⟨rfl, l, existing_eq_ok.mp hs⟩
  · cases h
  · split at h
    · cases h
    · rename_i l hw
      split at h
      · cases h
      · rename_i hn
        cases h
        exact .inr ⟨l, hw, Option.not_isSome_iff_eq_none.mp hn, rfl⟩

theorem ne_nil_of_none (h : t.node l = none) : l ≠ [] := by
  rintro rfl
  cases h

theorem ne_nil_of_not_dir (h : t.node l ≠ some .dir) : l ≠ [] := by
  rintro rfl
  exact h rfl

theorem grown_put (h : t.node l = none) : Grown t (t.put l .dir) := by
  intro l'
  rw [node_put (ne_nil_of_none h)]
  by_cases he : l' = l
  · rw [if_pos he]
    exact .inr ⟨he ▸ h, rfl⟩
  · rw [if_neg he]
    exact .inl rfl

theorem mkdirOne_grown {u : Tree} {path : Loc} (h : t.mkdirOne path = some u) : Grown t u := by
  rcases mkdirOne_cases h with ⟨rfl, -⟩ | ⟨l, -, hn, rfl⟩
  · exact fun l => .inl rfl
  · exact grown_put hn

theorem mkdirAll_grown {u : Tree} {path : Loc} (h : t.mkdirAll path = some u) : Grown t u := by
  unfold mkdirAll at h
  generalize path.inits = ps at h
  induction ps generalizing t with
  | nil =>
    cases h
    exact fun l => .inl rfl
  | cons p ps ih =>
    rw [List.foldlM_cons] at h
    obtain ⟨v, hv, h⟩ := Option.bind_eq_some_iff.mp h
    exact (mkdirOne_grown hv).trans (ih h)

/-- A new entry in a directory; it may stand in the place of anything but a directory. -/
theorem Rooted.put (ht : t.Rooted) (hd : t.node m = some .dir) (hn : Plain n)
    (hne : t.node (m ++ [n]) ≠ some .dir) (x : Node) : (t.put (m ++ [n]) x).Rooted := by
  have hold : ∀ {l a}, ((t.put (m ++ [n]) x).node (l ++ [a])).isSome →
      t.node l = some .dir ∧ Plain a := by
    intro l a hs
    rw [node_put (by simp)] at hs
    split at hs
    · rename_i he
      obtain ⟨rfl, rfl⟩ := List.append_singleton_inj.mp he
      exact ⟨hd, hn⟩
    · exact ⟨ht.parent hs, ht.plain hs⟩
  refine ⟨fun {l a} hs => ?_, fun hs => (hold hs).2⟩
  have hl := (hold hs).1
  rw [node_put (by simp), if_neg, hl]
  rintro rfl
  exact hne hl

theorem mkdirAll_concat (t : Tree) (p : Loc) (n : Bytes) :
    t.mkdirAll (p ++ [n]) = (t.mkdirAll p).bind fun u => u.mkdirOne (p ++ [n]) := by
  simp [mkdirAll, List.inits_append, List.foldlM_append]

/-- The place the longest part of a path that leads anywhere leads to. -/
def leads (t : Tree) (path : Loc) : Loc :=
  (path.inits.reverse.findSome? fun p => (t.walk true kernelLinks [] p).toOption).getD []

theorem leads_of_ok (h : t.walk true kernelLinks [] p = .ok l) : t.leads p = l := by
  rcases List.eq_nil_or_concat' p with rfl | ⟨p, n, rfl⟩
  · rw [walk_nil] at h
    cases h
    simp [leads, walk_nil, Except.toOption]
  · simp [leads, List.inits_append, h, Except.toOption]

theorem leads_of_error {e : WalkErr} (h : t.walk true kernelLinks [] (p ++ [n]) = .error e) :
    t.leads (p ++ [n]) = t.leads p := by
  simp [leads, List.inits_append, h, Except.toOption]

/-- What making a path's missing directories comes to: `q` names what was missing. -/
structure Made (t : Tree) (path : Loc) (u : Tree) (q : Loc) : Prop where
  grown : Grown t u
  rooted : u.Rooted
  new : ∀ {l}, u.node l ≠ t.node l → ∃ p, p <+: q ∧ l = t.leads path ++ p
  missing : q ≠ [] → t.node (t.leads path) = none
  whole : q = [] → t.walk true kernelLinks [] path = .ok (t.leads path)
  walks : ∃ j ≤ kernelLinks, Walks u true j [] path (t.leads path ++ q)
  dir : u.node (t.leads path ++ q) = some .dir

theorem Made.leads_dir {u : Tree} {path : Loc} (h : Made t path u q) :
    u.node (t.leads path) = some .dir := by
  by_cases hq : q = []
  · simpa [hq] using h.dir
  · exact h.rooted.dir_of_prefix (by rw [h.dir]; rfl) (List.prefix_append _ q) (by simpa using hq)

/-- Nothing was missing, so nothing was made. -/
theorem Made.same {u : Tree} {path : Loc} (h : Made t path u q)
    (hs : t.node (t.leads path) ≠ none) : q = [] ∧ ∀ l, u.node l = t.node l := by
  have hq : q = [] := by
    by_contra hq
    exact hs (h.missing hq)
  refine ⟨hq, fun l => ?_⟩
  by_contra hne
  obtain ⟨p, hp, rfl⟩ := h.new hne
  obtain rfl : p = [] := List.prefix_nil.mp (hq ▸ hp)
  rw [List.append_nil] at hne
  rcases h.grown (t.leads path) with he | ⟨hn, -⟩
  · exact hne he
  · exact hs hn

theorem Grown.of_eq {u : Tree} (h : ∀ l, u.node l = t.node l) : Grown t u := fun l => .inl (h l)

/-- The last directory of a path, when all others are there. -/
theorem Made.one {u v : Tree} {path : Loc} (hm : Made t path v q)
    (hn : Plain n) (h : v.mkdirOne (path ++ [n]) = some u)
    (hw : t.walk true kernelLinks [] (path ++ [n]) = .ok l) : Made t (path ++ [n]) u [] := by
  obtain ⟨j, hj, hW⟩ := walks_of_walk hw
  obtain ⟨i, m, i', h₁, h₂, hi⟩ := hW.passes (by simp)
  have hmd : t.node m = some .dir := h₂.dir_of_ne_nil (by simp)
  have hleads : t.leads path = m := leads_of_ok (h₁.walk (by omega))
  obtain ⟨rfl, hsame⟩ := hm.same (by rw [hleads, hmd]; simp)
  have hWv := hW.grown (Grown.of_eq hsame)
  have hl : t.leads (path ++ [n]) = l := leads_of_ok hw
  rcases mkdirOne_cases h with ⟨rfl, l', hw', hd⟩ | ⟨l', hw', hnone, rfl⟩
  · obtain rfl := walks_end hWv hw'
    exact ⟨hm.grown, hm.rooted, fun hne => absurd (hsame _) hne, fun h => absurd rfl h,
      fun _ => by rw [hl, hw], ⟨j, hj, by rwa [List.append_nil, hl]⟩, by rwa [List.append_nil, hl]⟩
  · obtain ⟨j', hj', hW'⟩ := walks_of_walk hw'
    have hfollow := hW'.followed fun target => by rw [hnone]; simp
    obtain rfl := walks_end hWv (hfollow.walk hj')
    obtain ⟨m', h₁', hd', rfl⟩ := (walks_last hn).mp hW'
    have hg := grown_put hnone
    refine ⟨hm.grown.trans hg, hm.rooted.put hd' hn (by rw [hnone]; simp) .dir,
      fun {l'} hne => ⟨[], by simp, ?_⟩,
      fun h => absurd rfl h, fun _ => by rw [hl, hw], ⟨j, hj, ?_⟩, ?_⟩
    · rw [node_put (by simp), ← hsame] at hne
      by_contra he
      rw [List.append_nil, hl] at he
      exact hne (if_neg he)
    · rw [List.append_nil, hl]
      exact hWv.grown hg
    · rw [List.append_nil, hl, node_put (by simp), if_pos rfl]

/-- In a directory that was missing there is nothing yet. -/
theorem Made.fresh {u : Tree} {path : Loc} (ht : t.Rooted) (hm : Made t path u q)
    (hD : t.node (t.leads path) = none) (n : Bytes) :
    u.node (t.leads path ++ q ++ [n]) = none := by
  have htx : t.node (t.leads path ++ q ++ [n]) = none := by
    by_contra hx
    have hd := ht.dir_of_prefix (Option.isSome_iff_ne_none.mpr hx) (p := t.leads path)
      ⟨q ++ [n], by simp⟩ (by simp)
    rw [hD] at hd
    cases hd
  by_contra hx
  obtain ⟨p, hp, he⟩ := hm.new (l := t.leads path ++ q ++ [n]) (by rwa [htx])
  have hlen := hp.length_le
  rw [List.append_assoc, List.append_cancel_left_eq] at he
  rw [← he, List.length_append, List.length_singleton] at hlen
  omega

/-- The last directory of a path, when one before it had been missing too. -/
theorem Made.next {u v : Tree} {path : Loc} (ht : t.Rooted) (hm : Made t path v q) (hn : Plain n)
    (hD : t.node (t.leads path) = none)
    (hvw : ∃ j ≤ kernelLinks, ∃ l, Walks v true j [] (path ++ [n]) l)
    (h : v.mkdirOne (path ++ [n]) = some u) (hleads : t.leads (path ++ [n]) = t.leads path) :
    Made t (path ++ [n]) u (q ++ [n]) := by
  obtain ⟨jm, hjm, hwm⟩ := hm.walks
  have hvx := hm.fresh ht hD n
  obtain ⟨j, hj, l, hW⟩ := hvw
  have hl : l = t.leads path ++ q ++ [n] := by
    obtain ⟨i, m, i', h₁, h₂, hi⟩ := hW.passes (by simp)
    obtain rfl := walks_end h₁ (hwm.walk hjm)
    exact h₂.down_last hn hvx
  rcases mkdirOne_cases h with ⟨-, l', hw', hd⟩ | ⟨l', hw', hnone, rfl⟩
  · obtain rfl := walks_end hW hw'
    rw [hl, hvx] at hd
    cases hd
  · obtain ⟨j', hj', hW'⟩ := walks_of_walk hw'
    obtain ⟨m, h₁, hmd, rfl⟩ := (walks_last hn).mp hW'
    obtain rfl := walks_end h₁ (hwm.walk hjm)
    have hg := grown_put hnone
    have hassoc : t.leads (path ++ [n]) ++ (q ++ [n]) = t.leads path ++ q ++ [n] := by
      rw [hleads, List.append_assoc]
    refine ⟨hm.grown.trans hg, hm.rooted.put hmd hn (by rw [hnone]; simp) .dir, fun {l'} hne => ?_,
      fun _ => by rw [hleads, hD], by simp, ⟨j, hj, ?_⟩, ?_⟩
    · rw [hleads]
      by_cases he : l' = t.leads path ++ q ++ [n]
      · exact ⟨q ++ [n], List.prefix_rfl, by rw [he, List.append_assoc]⟩
      · rw [node_put (by simp), if_neg he] at hne
        obtain ⟨p, hp, rfl⟩ := hm.new hne
        exact ⟨p, hp.trans (List.prefix_append q [n]), rfl⟩
    · have hWu := hW.grown hg
      rw [hl] at hWu
      rwa [hassoc]
    · rw [hassoc, node_put (by simp), if_pos rfl]

theorem mkdirAll_made {u : Tree} {path : Loc} (ht : t.Rooted) (hp : ∀ n ∈ path, Plain n)
    (h : t.mkdirAll path = some u) : ∃ q, Made t path u q := by
  induction path using List.reverseRecOn generalizing u with
  | nil =>
    have hw : t.walk true kernelLinks [] [] = .ok [] := walk_nil t true _ []
    have hst : t.stat [] = .ok ([], .dir) := existing_eq_ok.mpr ⟨hw, rfl⟩
    obtain rfl : t = u := by simpa [mkdirAll, mkdirOne, hst] using h
    exact ⟨[], fun l => .inl rfl, ht, fun hne => absurd rfl hne, fun hne => absurd rfl hne,
      fun _ => by rw [leads_of_ok hw, hw], ⟨0, by decide, by rw [leads_of_ok hw]; exact .done⟩,
      by rw [leads_of_ok hw]; rfl⟩
  | append_singleton p n ih =>
    rw [mkdirAll_concat] at h
    obtain ⟨v, hv, h⟩ := Option.bind_eq_some_iff.mp h
    obtain ⟨q, hm⟩ := ih (fun a ha => hp a (by simp [ha])) hv
    have hn : Plain n := hp n (by simp)
    cases hw : t.walk true kernelLinks [] (p ++ [n]) with
    | ok l => exact ⟨[], hm.one hn h hw⟩
    | error e =>
      have hleads := leads_of_error hw
      -- in `v` the path leads somewhere, so a directory on the way to it had been missing
      have hvw : ∃ j ≤ kernelLinks, ∃ l, Walks v true j [] (p ++ [n]) l := by
        rcases mkdirOne_cases h with ⟨-, l, hw', -⟩ | ⟨l, hw', hnone, -⟩
        · obtain ⟨j, hj, hW⟩ := walks_of_walk hw'
          exact ⟨j, hj, l, hW⟩
        · obtain ⟨j, hj, hW⟩ := walks_of_walk hw'
          exact ⟨j, hj, l, hW.followed fun target => by rw [hnone]; simp⟩
      have hD : t.node (t.leads p) = none := by
        by_contra hD
        obtain ⟨j, hj, l, hW⟩ := hvw
        have hback : Grown v t := Grown.of_eq fun l => ((hm.same hD).2 l).symm
        rw [(hW.grown hback).walk hj] at hw
        cases hw
      exact ⟨q ++ [n], hm.next ht hn hD hvw h hleads⟩

/-- Where the directory is there, `os.MkdirAll` does nothing. -/
theorem mkdirAll_of_dir {path : Loc} (hw : t.walk true kernelLinks [] path = .ok l)
    (hd : t.node l = some .dir) : t.mkdirAll path = some t := by
  induction path using List.reverseRecOn generalizing l with
  | nil =>
    have hst : t.stat [] = .ok (l, .dir) := existing_eq_ok.mpr ⟨hw, hd⟩
    simp [mkdirAll, mkdirOne, hst]
  | append_singleton p n ih =>
    obtain ⟨j, hj, hW⟩ := walks_of_walk hw
    obtain ⟨i, m, i', h₁, h₂, hi⟩ := hW.passes (by simp)
    have hst : t.stat (p ++ [n]) = .ok (l, .dir) := existing_eq_ok.mpr ⟨hw, hd⟩
    rw [mkdirAll_concat, ih (h₁.walk (by omega)) (h₂.dir_of_ne_nil (by simp))]
    simp [mkdirOne, hst]

/-! ### What the calls of `os` leave -/

theorem mem_of_node (hl : l ≠ []) {x : Node} (hx : t.node l = some x) : (l, x) ∈ t.rows := by
  rw [node, if_neg hl] at hx
  obtain ⟨e, he, rfl⟩ := Option.map_eq_some_iff.mp hx
  obtain ⟨hm, rfl⟩ := Keyed.get?_eq_some_iff.mp he
  exact hm

theorem node_of_mem {e : Loc × Node} (he : e ∈ t.rows) (hl : e.1 ≠ []) :
    t.node e.1 = some e.2 := by
  rw [node, if_neg hl]
  exact congrArg (Option.map Prod.snd) (Keyed.get?_of_mem he)

theorem node_eq_some (hl : l ≠ []) {x : Node} : t.node l = some x ↔ (l, x) ∈ t.rows :=
  ⟨mem_of_node hl, fun h => node_of_mem h hl⟩

/-- `os.WriteFile` writes one file. -/
theorem writeFile_cases {t' : Tree} {path : Loc} {data : Bytes}
    (h : t.writeFile path data = some t') : ∃ x, t.walk true kernelLinks [] path = .ok x ∧
      t.node x ≠ some .dir ∧ t' = t.put x (.file data) := by
  unfold writeFile at h
  split at h
  · cases h
  · rename_i x hw
    split at h
    · cases h
    · rename_i hd
      exact ⟨x, hw, hd, (Option.some.inj h).symm⟩

/-- What is left when everything at and below a place is removed. -/
theorem node_removed {p : Loc} : (node (t.deleteWhere fun e => p.isPrefixOf e.1) l) =
    if p <+: l ∧ l ≠ [] then none else t.node l := by
  by_cases hl : l = []
  · simp [hl, node]
  · by_cases hp : p <+: l
    · rw [if_pos ⟨hp, hl⟩, node, if_neg hl, Keyed.get?_deleteWhere]
      cases hg : t.get? l with
      | none => rfl
      | some e =>
        obtain rfl : e.1 = l := Keyed.key_of_get? hg
        simp [Option.filter, hp]
    · rw [if_neg fun h => hp h.1]
      exact node_of_get? (get?_deleteWhere_of_not fun _ => isPrefixOf_eq_false hp)

/-- `RemoveAll` finds nothing, or removes what is at and below one place. -/
theorem removeAll_cases {u : Tree} {path : Loc} (h : t.removeAll path = some u) :
    t.walk false kernelLinks [] path = .error .notExist ∧ u = t ∨
      ∃ p, t.walk false kernelLinks [] path = .ok p ∧
        ∀ l, u.node l = if p <+: l ∧ l ≠ [] then none else t.node l := by
  unfold removeAll at h
  split at h
  · rename_i hw
    cases h
    exact .inl ⟨hw, rfl⟩
  · cases h
  · rename_i p hw
    cases h
    exact .inr ⟨p, hw, fun l => node_removed⟩

/-- What a rename that goes through had found, and what it does. -/
theorem rename_cases {u : Tree} {old new : Loc} (h : t.rename old new = some u) :
    ∃ src k dst, t.lstat old = .ok (src, k) ∧ t.walk false kernelLinks [] new = .ok dst ∧
      (t.node dst = some .dir → src = dst ∧ old ≠ new) ∧
      (src = dst ∧ u = t ∨ src ≠ dst ∧ t.node dst ≠ some .dir ∧
        (k = .dir → ¬ src <+: dst ∧ t.node dst = none) ∧ u = t.relocate src dst) := by
  unfold rename at h
  split at h
  · cases h
  · rename_i src k hsrc
    split at h
    · cases h
    · rename_i dst hdst
      refine ⟨src, k, dst, hsrc, hdst, fun hd => ?_, ?_⟩
      · rw [if_pos hd] at h
        split at h
        · assumption
        · cases h
      · by_cases he : src = dst
        · rw [if_pos he] at h
          refine .inl ⟨he, ?_⟩
          split at h
          · split at h
            · exact (Option.some.inj h).symm
            · cases h
          · exact (Option.some.inj h).symm
        · have hnd : t.node dst ≠ some .dir := by
            intro hd
            rw [if_pos hd, if_neg fun h' => he h'.1] at h
            cases h
          rw [if_neg hnd, if_neg he] at h
          split at h
          · cases h
          · rename_i hk
            refine .inr ⟨he, hnd, fun hdir => ?_, (Option.some.inj h).symm⟩
            obtain ⟨hsub, hsome⟩ := not_or.mp fun h' => hk ⟨hdir, h'⟩
            exact ⟨fun hp => hsub (List.isPrefixOf_iff_prefix.mpr hp),
              Option.not_isSome_iff_eq_none.mp hsome⟩

end Paths
end Tree
end Mdock.Vault
