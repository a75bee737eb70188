import Mdock.Vault.Found

/-! What a page depends on: the places the kernel passes on the way to its file. A call of the
vault service that leaves them alone leaves the page as it was. -/
namespace Mdock.Vault
open Mdock.Go Mdock.Lib

namespace Tree

/-- The places looked at on a walk that follows every link, as `walkNames` does. -/
def trailNames (t : Tree) (next : Loc → List Bytes → List Loc) : Loc → List Bytes → List Loc
  | cur, [] => [cur]
  | cur, n :: rest =>
    cur ::
      if n = [] ∨ n = dot then trailNames t next cur rest
      else if n = dotdot then trailNames t next cur.dropLast rest
      else
        match t.node (cur ++ [n]) with
        | some (.link target) => (cur ++ [n]) :: next (start target cur) (split target ++ rest)
        | _ => trailNames t next (cur ++ [n]) rest

def trail (t : Tree) : Nat → Loc → List Bytes → List Loc
  | 0 => trailNames t fun _ _ => []
  | links + 1 => trailNames t (trail t links)

section Trail
variable {t t' : Tree} {i j k : Nat} {cur l m : Loc} {p q ns : List Bytes} {n : Bytes}

theorem trail_nil (t : Tree) (k : Nat) (cur : Loc) : t.trail k cur [] = [cur] := by
  cases k <;> rfl

theorem trail_cons (t : Tree) (k : Nat) (cur : Loc) (n : Bytes) (rest : List Bytes) :
    t.trail k cur (n :: rest) = cur ::
      if n = [] ∨ n = dot then t.trail k cur rest
      else if n = dotdot then t.trail k cur.dropLast rest
      else
        match t.node (cur ++ [n]) with
        | some (.link target) => (cur ++ [n]) ::
          match k with
          | 0 => []
          | k + 1 => t.trail k (start target cur) (split target ++ rest)
        | _ => t.trail k (cur ++ [n]) rest := by
  cases k <;> rfl

theorem mem_trail_head (t : Tree) (k : Nat) (cur : Loc) (ns : List Bytes) :
    cur ∈ t.trail k cur ns := by
  cases ns with
  | nil => simp [trail_nil]
  | cons n rest => simp [trail_cons]

/-- A path passes what its beginning passes. -/
theorem trail_append (t : Tree) (k : Nat) (cur : Loc) (p q : List Bytes) :
    t.trail k cur p ⊆ t.trail k cur (p ++ q) := by
  induction k using Nat.strong_induction_on generalizing cur p with
  | _ k ihk =>
    induction p generalizing cur with
    | nil =>
      intro x hx
      rw [trail_nil, List.mem_singleton] at hx
      exact hx ▸ mem_trail_head t k cur _
    | cons n p ih =>
      rw [List.cons_append, trail_cons, trail_cons]
      refine List.cons_subset_cons cur ?_
      split
      · exact ih cur
      · split
        · exact ih cur.dropLast
        · split
          · refine List.cons_subset_cons _ ?_
            cases k with
            | zero => exact List.Subset.refl _
            | succ k =>
              rw [← List.append_assoc]
              exact ihk k (Nat.lt_succ_self k) _ _
          · exact ih (cur ++ [n])

/-- A walk to something that is there goes on in every tree that keeps its trail. -/
theorem Walks.kept_along (h : Walks t true j cur ns l) (hl : (t.node l).isSome) (hk : j ≤ k)
    (hkeep : ∀ x ∈ t.trail k cur ns, ∀ y, t.node x = some y → t'.node x = some y) :
    Walks t' true j cur ns l := by
  generalize hf : true = follow at h
  induction h generalizing k with
  | done => exact .done
  | @stay j cur l n rest hd hn hw ih =>
    rw [trail_cons, if_pos hn] at hkeep
    exact .stay (hkeep cur List.mem_cons_self _ hd) hn
      (ih hl hk fun x hx => hkeep x (List.mem_cons_of_mem _ hx))
  | @up j cur l n rest hd hn hw ih =>
    have hne : ¬ (n = [] ∨ n = dot) := by
      rw [hn]
      decide
    rw [trail_cons, if_neg hne, if_pos hn] at hkeep
    exact .up (hkeep cur List.mem_cons_self _ hd) hn
      (ih hl hk fun x hx => hkeep x (List.mem_cons_of_mem _ hx))
  | @down j cur l n rest hd hn hlink hw ih =>
    have hne : ¬ (n = [] ∨ n = dot) := not_or.mpr ⟨hn.1, hn.2.1⟩
    -- the next place exists: it is the last one, or a directory on the way
    obtain ⟨y, hy⟩ : ∃ y, t.node (cur ++ [n]) = some y := by
      by_cases hrest : rest = []
      · subst hrest
        cases hw
        exact Option.isSome_iff_exists.mp hl
      · exact ⟨_, hw.dir_of_ne_nil hrest⟩
    have htrail : t.trail k cur (n :: rest) = cur :: t.trail k (cur ++ [n]) rest := by
      rw [trail_cons, if_neg hne, if_neg hn.2.2]
      split
      · rename_i target ht
        exact absurd ht (hlink target)
      · rfl
    rw [htrail] at hkeep
    refine .down (hkeep cur List.mem_cons_self _ hd) hn (fun target => ?_)
      (ih hl hk fun x hx => hkeep x (List.mem_cons_of_mem _ hx))
    rw [hkeep _ (List.mem_cons_of_mem _ (mem_trail_head t k _ rest)) _ hy, ← hy]
    exact hlink target
  | last _ _ _ hf' => rw [← hf] at hf'; cases hf'
  | @link j cur l n target rest hd hn hlink hlast hw ih =>
    have hne : ¬ (n = [] ∨ n = dot) := not_or.mpr ⟨hn.1, hn.2.1⟩
    obtain ⟨k, rfl⟩ := Nat.exists_eq_add_of_lt (Nat.lt_of_lt_of_le (Nat.lt_succ_self _) hk)
    rw [trail_cons, if_neg hne, if_neg hn.2.2, hlink] at hkeep
    have hj : j ≤ j + k := Nat.le_add_right j k
    refine .link (hkeep cur List.mem_cons_self _ hd) hn
      (hkeep _ (List.mem_cons_of_mem _ List.mem_cons_self) _ hlink) hlast
      (ih hl hj fun x hx => hkeep x ?_)
    exact List.mem_cons_of_mem _ (List.mem_cons_of_mem _ hx)

/-- The end of a walk is on its trail. -/
theorem Walks.mem_trail (h : Walks t true j cur ns l) (hk : j ≤ k) : l ∈ t.trail k cur ns := by
  generalize hf : true = follow at h
  induction h generalizing k with
  | done => exact mem_trail_head t k _ []
  | stay _ hn _ ih =>
    rw [trail_cons, if_pos hn]
    exact List.mem_cons_of_mem _ (ih hk)
  | up _ hn _ ih =>
    have hne : ¬ (dotdot = [] ∨ dotdot = dot) := by decide
    rw [trail_cons, hn, if_neg hne, if_pos rfl]
    exact List.mem_cons_of_mem _ (ih hk)
  | @down j cur l n rest _ hn hlink _ ih =>
    rw [trail_cons, if_neg (not_or.mpr ⟨hn.1, hn.2.1⟩), if_neg hn.2.2]
    split
    · rename_i target ht
      exact absurd ht (hlink target)
    · exact List.mem_cons_of_mem _ (ih hk)
  | last _ _ _ hf' => rw [← hf] at hf'; cases hf'
  | @link j cur l n target rest _ hn hlink _ _ ih =>
    obtain ⟨k, rfl⟩ := Nat.exists_eq_add_of_lt (Nat.lt_of_lt_of_le (Nat.lt_succ_self _) hk)
    rw [trail_cons, if_neg (not_or.mpr ⟨hn.1, hn.2.1⟩), if_neg hn.2.2, hlink]
    exact List.mem_cons_of_mem _ (List.mem_cons_of_mem _ (ih (Nat.le_add_right j k)))

end Trail
end Tree

/-! ### Reading a page -/

/-- A path of the vault reads a file: the walks of `Resolve` and of `os.ReadFile`. -/
structure Service.Reads (s : Service) (t : Tree) (v rel : Bytes) (root r : Loc) (p : Bytes)
    (m l : Loc) (data : Bytes) : Prop where
  vault : s.vaultRoot v = .ok root
  rel_eq : safeRelPath rel = .ok p
  root_walk : t.walk true Tree.kernelLinks [] root = .ok r
  root_dir : t.node r = some .dir
  parent_walk : t.walk true Tree.kernelLinks [] (r ++ names p).dropLast = .ok m
  parent_dir : t.node m = some .dir
  parent_inside : r <+: m
  walk : t.walk true Tree.kernelLinks [] (r ++ names p) = .ok l
  file : t.node l = some (.file data)
  inside : r <+: l

/-- The places that are looked at when a path of the vault is read. -/
def Service.trail (s : Service) (t : Tree) (v rel : Bytes) : List Loc :=
  match s.vaultRoot v, safeRelPath rel with
  | .ok root, .ok p =>
    t.trail Tree.kernelLinks [] root ++
      match t.walk true Tree.kernelLinks [] root with
      | .ok r => t.trail Tree.kernelLinks [] (r ++ names p)
      | .error _ => []
  | _, _ => []

section Reading
variable {s : Service} {t t' : Tree} {v rel data : Bytes} {root r m l : Loc} {p : Bytes}

/-- The vault of a page that reads was there before `Resolve` made sure of it. -/
theorem Service.Resolves.same {r : Service.Resolved} {root q ns : Loc} {n : Bytes} {x : Node}
    (h : s.Resolves t v r root q (n :: ns)) (ht : t.Rooted)
    (hw : r.tree.walk true Tree.kernelLinks [] r.full = .ok l) (hl : r.tree.node l = some x)
    (l' : Loc) : r.tree.node l' = t.node l' := by
  obtain ⟨j, hj, hW⟩ := Tree.walks_of_walk hw
  rw [h.full_eq] at hW
  obtain ⟨i, c, i', h₁, h₂, -⟩ := hW.passes (List.cons_ne_nil n ns)
  obtain rfl : c = r.root := Tree.walks_end h₁ h.self
  have hplain := (h.plain n List.mem_cons_self).1
  -- something stands under the root, so the root is not one that was just made
  have hchild : (r.tree.node (r.root ++ [n])).isSome := by
    cases h₂ with
    | stay _ hn _ => exact absurd hn (not_or.mpr ⟨hplain.1, hplain.2.1⟩)
    | up _ hn _ => exact absurd hn hplain.2.2
    | last _ _ hlink _ =>
      rw [hlink]
      rfl
    | down _ _ _ hw' =>
      by_cases hrest : ns = []
      · subst hrest
        cases hw'
        rw [hl]
        rfl
      · rw [hw'.dir_of_ne_nil hrest]
        rfl
    | link _ _ hlink _ _ =>
      rw [hlink]
      rfl
  have hnew : ¬ r.root ++ [n] <+: r.root := fun hp => by
    have hlen := hp.length_le
    rw [List.length_append, List.length_singleton] at hlen
    omega
  rw [h.old hnew] at hchild
  have hroot := ht.parent hchild
  refine (h.made.same ?_).2 l'
  by_cases hq : q = []
  · rw [h.root_eq, hq, List.append_nil] at hroot
    rw [hroot]
    simp
  · rw [ht.dir_of_prefix (by rw [hroot]; rfl) (h.root_eq ▸ List.prefix_append _ q)
      (by rw [h.root_eq]; simpa using hq)]
    simp

theorem reads_of_readFile (hs : ∀ n ∈ s.root, Plain n) (ht : t.Rooted)
    (h : s.readFile t v rel = .ok data) : ∃ root r p m l, s.Reads t v rel root r p m l data := by
  unfold Service.readFile at h
  split at h
  · cases h
  · rename_i r hr
    split at h
    · rename_i l d hst
      cases h
      obtain ⟨hw, hl⟩ := Tree.existing_eq_ok.mp hst
      obtain ⟨root, q, ns, hR, -⟩ := resolve_resolves hs ht hr
      obtain ⟨p, hp, hfull⟩ := resolve_full hr
      obtain rfl : ns = names p := List.append_cancel_left (hR.full_eq.symm.trans hfull)
      cases hns : names p with
      | nil =>
        rw [hfull, hns, List.append_nil, hR.self] at hw
        cases hw
        rw [hR.dir] at hl
        cases hl
      | cons n ns =>
        have hsame := (hns ▸ hR : s.Resolves t v r root q (n :: ns)).same ht hw hl
        have hext : Tree.Extends r.tree t :=
          ⟨fun h => hsame _ ▸ h, fun h => ⟨_, hsame _ ▸ h⟩, by simp [hsame]⟩
        have hwalk : ∀ {ns x}, r.tree.walk true Tree.kernelLinks [] ns = .ok x →
            t.walk true Tree.kernelLinks [] ns = .ok x := fun h => by
          obtain ⟨j, hj, hW⟩ := Tree.walks_of_walk h
          exact (hW.kept hext).walk hj
        have hne : names p ≠ [] := by simp [hns]
        -- the parent is passed on the way to the file
        have hcat : r.root ++ names p =
            (r.root ++ names p).dropLast ++ [(names p).getLast hne] := by
          rw [List.dropLast_append_of_ne_nil hne, List.append_assoc, List.dropLast_append_getLast]
        obtain ⟨j, hj, hW⟩ := Tree.walks_of_walk hw
        rw [hfull, hcat] at hW
        obtain ⟨i, m, i', h₁, h₂, hi⟩ := hW.passes (by simp)
        have hm := h₂.dir_of_ne_nil (by simp)
        have hwm := h₁.walk (show i ≤ Tree.kernelLinks by omega)
        obtain ⟨j', hj', hW'⟩ := hR.made.walks
        rw [← hR.root_eq] at hW'
        refine ⟨root, r.root, p, m, l, hR.vault, hp, hwalk (hW'.walk hj'), hsame _ ▸ hR.dir,
          hwalk hwm, hsame _ ▸ hm, ?_, hwalk (hfull ▸ hw), hsame _ ▸ hl,
          hR.inside hw (by rw [hl]; rfl)⟩
        exact hR.parent hne m (by rw [hfull]; exact evalSymlinks_of_walk hwm (by rw [hm]; rfl))
    · cases h

theorem Service.Reads.readFile (h : s.Reads t v rel root r p m l data) :
    s.readFile t v rel = .ok data := by
  have hensure : s.ensureVault t v = .ok (root, t) := by
    simp only [Service.ensureVault, h.vault, Tree.mkdirAll_of_dir h.root_walk h.root_dir]
  have hroot : t.evalSymlinks root = .ok r :=
    evalSymlinks_of_walk h.root_walk (by rw [h.root_dir]; rfl)
  have hparent : t.evalSymlinks (r ++ names p).dropLast = .ok m :=
    evalSymlinks_of_walk h.parent_walk (by rw [h.parent_dir]; rfl)
  have hfull : t.evalSymlinks (r ++ names p) = .ok l :=
    evalSymlinks_of_walk h.walk (by rw [h.file]; rfl)
  have hst : t.stat (r ++ names p) = .ok (l, .file data) :=
    Tree.existing_eq_ok.mpr ⟨h.walk, h.file⟩
  have hlinks : Service.checkLinks t r (r ++ names p) = .ok () := by
    simp only [Service.checkLinks, hparent, hfull, ensureInside,
      List.isPrefixOf_iff_prefix.mpr h.parent_inside, List.isPrefixOf_iff_prefix.mpr h.inside,
      if_true]
  have hresolve : s.resolve t v rel = .ok ⟨r, r ++ names p, t⟩ := by
    simp only [Service.resolve, hensure, hroot, h.rel_eq, hlinks, ite_self]
  simp only [Service.readFile, hresolve, hst]

/-- A page whose trail is kept reads as before. -/
theorem Service.Reads.kept (h : s.Reads t v rel root r p m l data)
    (hkeep : ∀ x ∈ s.trail t v rel, ∀ y, t.node x = some y → t'.node x = some y) :
    s.Reads t' v rel root r p m l data := by
  have htrail : s.trail t v rel = t.trail Tree.kernelLinks [] root ++
      t.trail Tree.kernelLinks [] (r ++ names p) := by
    simp only [Service.trail, h.vault, h.rel_eq, h.root_walk]
  rw [htrail] at hkeep
  have hwalk : ∀ {ns x y}, t.trail Tree.kernelLinks [] ns ⊆ t.trail Tree.kernelLinks [] root ++
      t.trail Tree.kernelLinks [] (r ++ names p) → t.walk true Tree.kernelLinks [] ns = .ok x →
      t.node x = some y → t'.walk true Tree.kernelLinks [] ns = .ok x ∧ t'.node x = some y := by
    intro ns x y hsub hw hx
    obtain ⟨j, hj, hW⟩ := Tree.walks_of_walk hw
    exact ⟨(hW.kept_along (by rw [hx]; rfl) hj fun z hz => hkeep z (hsub hz)).walk hj,
      hkeep x (hsub (hW.mem_trail hj)) y hx⟩
  have hfull := hwalk (List.subset_append_right _ _) h.walk h.file
  have hroot := hwalk (List.subset_append_left _ _) h.root_walk h.root_dir
  have hdrop : t.trail Tree.kernelLinks [] (r ++ names p).dropLast ⊆
      t.trail Tree.kernelLinks [] (r ++ names p) := by
    rcases List.eq_nil_or_concat' (r ++ names p) with he | ⟨q, n, he⟩
    · rw [he]
      exact List.Subset.refl _
    · rw [he, List.dropLast_concat]
      exact Tree.trail_append t _ _ q [n]
  have hparent := hwalk (List.Subset.trans hdrop (List.subset_append_right _ _)) h.parent_walk
    h.parent_dir
  exact ⟨h.vault, h.rel_eq, hroot.1, hroot.2, hparent.1, hparent.2, h.parent_inside, hfull.1,
    hfull.2, h.inside⟩

/-- A page reads as before in every tree that keeps the places on its trail. -/
theorem readFile_kept (hs : ∀ n ∈ s.root, Plain n) (ht : t.Rooted)
    (h : s.readFile t v rel = .ok data)
    (hkeep : ∀ x ∈ s.trail t v rel, ∀ y, t.node x = some y → t'.node x = some y) :
    s.readFile t' v rel = .ok data := by
  obtain ⟨root, r, p, m, l, hR⟩ := reads_of_readFile hs ht h
  exact (hR.kept hkeep).readFile

/-- Where nothing but contents is replaced, a page still reads. -/
theorem readFile_extends (hs : ∀ n ∈ s.root, Plain n) (ht : t.Rooted) (he : Tree.Extends t t')
    (h : s.readFile t v rel = .ok data) : ∃ data', s.readFile t' v rel = .ok data' := by
  obtain ⟨root, r, p, m, l, hR⟩ := reads_of_readFile hs ht h
  have hwalk : ∀ {ns x}, t.walk true Tree.kernelLinks [] ns = .ok x →
      t'.walk true Tree.kernelLinks [] ns = .ok x := fun hw => by
    obtain ⟨j, hj, hW⟩ := Tree.walks_of_walk hw
    exact (hW.kept he).walk hj
  obtain ⟨data', hl⟩ := he.file hR.file
  refine ⟨data', Service.Reads.readFile ⟨hR.vault, hR.rel_eq, hwalk hR.root_walk,
    he.dir hR.root_dir, hwalk hR.parent_walk, he.dir hR.parent_dir, hR.parent_inside,
    hwalk hR.walk, hl, hR.inside⟩⟩

/-- What a page reads after it was written is what was written. -/
theorem readFile_written {c : Bytes} (hs : ∀ n ∈ s.root, Plain n) (ht : t.Rooted)
    (h : s.writeFile t v rel data = (.ok (), t')) (hc : s.readFile t' v rel = .ok c) :
    c = data := by
  have ht' : t'.Rooted := by
    have hw : (s.writeFile t v rel data).2.Rooted := Service.writeFile_rooted ht data
    rwa [h] at hw
  obtain ⟨r, hr, h⟩ := Service.run_ok h
  obtain ⟨u, hu, h⟩ := Option.bind_eq_some_iff.mp h
  obtain ⟨x, hw, hd, rfl⟩ := Tree.writeFile_cases h
  obtain ⟨root, q, ns, hR, -⟩ := resolve_resolves hs ht hr
  obtain ⟨p, hp, hfull⟩ := resolve_full hr
  obtain ⟨j, hj, hW⟩ := Tree.walks_of_walk hw
  have hgrown := Tree.mkdirAll_grown hu
  have hput := put_extends (d := data) (Tree.mkdirAll_rooted hR.made.rooted hu) hW hd
  obtain ⟨i, hi, hroot⟩ := hR.made.walks
  obtain ⟨root', r', p', m, l, hread⟩ := reads_of_readFile hs ht' hc
  -- both walks end where the write did
  obtain rfl : root = root' := Except.ok.inj (hR.vault.symm.trans hread.vault)
  obtain rfl : p = p' := Except.ok.inj (hp.symm.trans hread.rel_eq)
  obtain rfl : r.root = r' := hR.root_eq ▸
    Tree.walks_end (hroot.kept (hgrown.extends.trans hput)) hread.root_walk
  obtain rfl : x = l := Tree.walks_end (hW.kept hput) (hfull ▸ hread.walk)
  have hx := hread.file
  rw [Tree.node_put (Tree.ne_nil_of_not_dir hd), if_pos rfl] at hx
  cases hx
  rfl

/-- The path ends on a file, and not on a link to one. -/
def Service.ownFile (s : Service) (t : Tree) (v rel : Bytes) : Prop :=
  ∃ r l d, s.resolve t v rel = .ok r ∧ r.tree.lstat r.full = .ok (l, .file d)

/-- The new path of a rename leads into the vault, over places that the rename leaves alone. -/
def Service.Lands (s : Service) (t : Tree) (v old new : Bytes) : Prop :=
  ∀ o n u, s.resolve t v old = .ok o → s.resolve o.tree v new = .ok n →
    n.tree.mkdirAll n.full.dropLast = some u →
    (∀ m, u.walk true Tree.kernelLinks [] n.full.dropLast = .ok m → n.root <+: m) ∧
    ∀ root, s.vaultRoot v = .ok root →
      ∀ l ∈ u.trail Tree.kernelLinks [] root ++ u.trail Tree.kernelLinks [] n.full.dropLast,
        ¬ s.Moves t v old new l

/-- A file that was renamed is found at its new place. -/
theorem node_renamed {u : Tree} {old new src dst : Loc} (hu : u.Rooted)
    (h : u.rename old new = some t') (hsrc : u.lstat old = .ok (src, .file data))
    (hdst : u.walk false Tree.kernelLinks [] new = .ok dst) : t'.node dst = some (.file data) := by
  have hfile := (Tree.existing_eq_ok.mp hsrc).2
  obtain ⟨src', k, dst', hsrc', hdst', -, hres⟩ := Tree.rename_cases h
  obtain ⟨rfl, rfl⟩ := Prod.mk.inj (Except.ok.inj (hsrc.symm.trans hsrc'))
  obtain rfl := Except.ok.inj (hdst.symm.trans hdst')
  rcases hres with ⟨rfl, rfl⟩ | ⟨-, hnd, -, rfl⟩
  · exact hfile
  · have hne : src ≠ [] := Tree.ne_nil_of_not_dir (by rw [hfile]; simp)
    rw [Tree.node_relocate hne (Tree.ne_nil_of_not_dir hnd), if_pos List.prefix_rfl,
      List.drop_length, List.append_nil, hfile]

/-- A page that is moved reads the same under its new path. -/
theorem readFile_moved {old new : Bytes} (hs : ∀ n ∈ s.root, Plain n) (ht : t.Rooted)
    (h : s.rename t v old new = (.ok (), t')) (hc : s.readFile t v old = .ok data)
    (hown : s.ownFile t v old) (hlands : s.Lands t v old new) :
    s.readFile t' v new = .ok data := by
  unfold Service.rename at h
  split at h
  · cases h
  rename_i o ho
  obtain ⟨n, hn, h⟩ := Service.run_ok h
  obtain ⟨u, hu, h⟩ := Option.bind_eq_some_iff.mp h
  obtain ⟨hinside, haway⟩ := hlands o n u ho hn hu
  obtain ⟨root, q, ns, hO, -⟩ := resolve_resolves hs ht ho
  obtain ⟨htree, hroot, ns', hN⟩ := hO.again hs hn
  have hgrown := Tree.mkdirAll_grown hu
  -- the page is a file itself, so the rename moves it
  have hsrc : ∃ src, u.lstat o.full = .ok (src, .file data) := by
    obtain ⟨o', l, d, ho', hl⟩ := hown
    obtain rfl := Except.ok.inj (ho'.symm.trans ho)
    obtain ⟨l', hl'⟩ := readFile_stat hc ho
    obtain ⟨hw, hfile⟩ := Tree.existing_eq_ok.mp hl
    obtain ⟨hw', hfile'⟩ := Tree.existing_eq_ok.mp hl'
    obtain ⟨j, hj, hW⟩ := Tree.walks_of_walk hw
    obtain rfl := Tree.walks_end (hW.followed fun target => by rw [hfile]; simp) hw'
    rw [hfile] at hfile'
    cases hfile'
    refine ⟨l, Tree.existing_eq_ok.mpr ⟨?_, hgrown.some (htree ▸ hfile)⟩⟩
    exact ((htree ▸ hW : Tree.Walks n.tree false j [] o'.full l).grown hgrown).walk hj
  obtain ⟨src, hsrc⟩ := hsrc
  obtain ⟨ns₁, a, rfl⟩ : ∃ ns₁ a, ns' = ns₁ ++ [a] := by
    rcases List.eq_nil_or_concat' ns' with he | he
    · exact absurd he (hN.rename_below hO htree.symm hroot.symm hu h)
    · exact he
  have hfull : n.full = n.full.dropLast ++ [a] := by
    rw [hN.full_eq, ← List.append_assoc, List.dropLast_concat]
  obtain ⟨-, -, dst, -, hdst, -, -⟩ := Tree.rename_cases h
  obtain ⟨j, hj, hW⟩ := Tree.walks_of_walk (hfull ▸ hdst)
  obtain ⟨m, hm, hmd, rfl⟩ := (Tree.walks_last (hN.plain a (by simp)).1).mp hW
  have hfile := node_renamed (Tree.mkdirAll_rooted hN.made.rooted hu) h hsrc hdst
  -- the way to the new path is kept
  have hkeep : ∀ l ∈ u.trail Tree.kernelLinks [] root ++
      u.trail Tree.kernelLinks [] n.full.dropLast, ∀ y, u.node l = some y →
      t'.node l = some y := by
    intro l hl y hy
    have hl := haway root hN.vault l hl
    rw [Tree.rename_node h (fun p k hp hpl => hl ⟨o, n, u, ho, hn, hu, .inl ⟨p, k, hp, hpl⟩⟩)
      fun p hp hpl => hl ⟨o, n, u, ho, hn, hu, .inr ⟨p, hp, hpl⟩⟩, hy]
  obtain ⟨i, hi, hr⟩ := hN.made.walks
  rw [← hN.root_eq] at hr
  have hru := hr.grown hgrown
  have hrd := hgrown.some hN.dir
  have hparent := hm.kept_along (by rw [hmd]; rfl) hj fun l hl =>
    hkeep l (List.mem_append_right _ hl)
  have hmd' := hkeep m (List.mem_append_right _ (hm.mem_trail hj)) _ hmd
  obtain ⟨p, hp, hfull'⟩ := resolve_full hn
  have hwhole : Tree.Walks t' true (j + 0) [] (n.full.dropLast ++ [a]) (m ++ [a]) :=
    hparent.append (.down hmd' (hN.plain a (by simp)).1 (by rw [hfile]; simp) .done) (by simp)
  rw [← hfull, hfull'] at hwhole
  have hwr := (hru.kept_along (by rw [hrd]; rfl) hi fun l hl =>
    hkeep l (List.mem_append_left _ hl)).walk hi
  have hrd' := hkeep _ (List.mem_append_left _ (hru.mem_trail hi)) _ hrd
  have hpre := hinside m (hm.walk hj)
  have hreads : s.Reads t' v new root n.root p m (m ++ [a]) data :=
    ⟨hN.vault, hp, hwr, hrd', hfull' ▸ hparent.walk hj, hmd', hpre, hwhole.walk hj, hfile,
      hpre.trans (List.prefix_append m [a])⟩
  exact hreads.readFile

end Reading
end Mdock.Vault
