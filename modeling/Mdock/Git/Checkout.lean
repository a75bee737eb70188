import Mdock.Git.Pathspec
import Mdock.Vault.Links

/-! `git checkout commit -- pathspec`: every file of the commit that the pathspec selects is
written to the working tree, whatever stands there or in its way. Submodules, modes and
filters are left out, and so is what git keeps below `.git`. Once git has met the very path
that a pathspec names it looks no further for it; that is not documented and left out too. -/
namespace Mdock.Git.Checkout
open Mdock.Go Mdock.Lib Mdock.Vault Mdock.Vault.Tree

/-- What stands at a place, but for directories. -/
def leaf (t : Tree) (l : Loc) : Option Node := (t.node l).filter (· ≠ .dir)

/-- A file or link of a commit. -/
structure Blob where
  names : Loc
  node : Node
  ne_nil : names ≠ []
  named : ∀ n ∈ names, IsName n
  not_dir : node ≠ .dir

structure Commit where
  blobs : List Blob
  flat : blobs.Pairwise fun a b => ¬ a.names <+: b.names ∧ ¬ b.names <+: a.names

/-- The commit that a hash names in the repository whose working tree is at a place, and the
attributes of its paths. -/
structure Repositories where
  commit : Loc → Bytes → Option Commit
  attr : Loc → Bytes → Option (Bytes → Bool)

/-- The directories a file needs. -/
def Blob.dirs (root : Loc) (b : Blob) : List Loc :=
  (b.names.dropLast.inits.filter (· ≠ [])).map (root ++ ·)

/-- Remove what stands at the place of a file, make its directories, and write it. -/
def checkoutBlob (root : Loc) (t : Tree) (b : Blob) : Tree :=
  let cleared : Tree := t.deleteWhere fun e => (root ++ b.names).isPrefixOf e.1
  let made : Tree := (b.dirs root).foldl (fun t l => Tree.put t l .dir) cleared
  made.put (root ++ b.names) b.node

def Commit.selected (c : Commit) (f : Bytes → Bool) : List Blob :=
  c.blobs.filter fun b => f (join b.names)

/-- `git checkout hash -- spec`, run in `root`. -/
def Repositories.checkout (g : Repositories) (t : Tree) (root : Loc) (hash spec : Bytes) :
    Option Tree :=
  match t.stat root with
  | .ok (place, .dir) => do
    let c ← g.commit place hash
    let f ← Pathspec.read (g.attr place) place spec
    if c.selected f = [] then none else some ((c.selected f).foldl (checkoutBlob place) t)
  | _ => none

/-! ### What is written -/

variable {root rel l : Loc} {t : Tree} {a b : Blob}

/-- A place that must hold no file for `b` to be written. -/
def Blob.InWay (root : Loc) (b : Blob) (l : Loc) : Prop :=
  l ≠ root ++ b.names ∧ (root ++ b.names <+: l ∨ ∃ p, p ≠ [] ∧ p <+: b.names ∧ l = root ++ p)

theorem mem_dirs : l ∈ b.dirs root ↔ ∃ p, p ≠ [] ∧ p <+: b.names ∧ p ≠ b.names ∧ l = root ++ p := by
  have hproper : ∀ p, p <+: b.names.dropLast ↔ p <+: b.names ∧ p ≠ b.names := by
    intro p
    constructor
    · intro hp
      refine ⟨hp.trans (List.dropLast_prefix _), fun he => ?_⟩
      have hlen := hp.length_le
      have hpos := List.length_pos_iff.mpr b.ne_nil
      rw [he, List.length_dropLast] at hlen
      omega
    · rintro ⟨hp, hne⟩
      have hlt := lt_of_le_of_ne hp.length_le fun hlen => hne (hp.eq_of_length hlen)
      refine List.prefix_of_prefix_length_le hp (List.dropLast_prefix _) ?_
      rw [List.length_dropLast]
      omega
  simp only [Blob.dirs, List.mem_map, List.mem_filter, List.mem_inits, decide_eq_true_eq, hproper]
  constructor
  · rintro ⟨p, ⟨⟨hp, hne⟩, hnil⟩, rfl⟩
    exact ⟨p, hnil, hp, hne, rfl⟩
  · rintro ⟨p, hnil, hp, hne, rfl⟩
    exact ⟨p, ⟨⟨hp, hne⟩, hnil⟩, rfl⟩

theorem inWay_iff : b.InWay root l ↔ l ≠ root ++ b.names ∧ (root ++ b.names <+: l ∨ l ∈ b.dirs root) := by
  unfold Blob.InWay
  rw [mem_dirs]
  constructor
  · rintro ⟨hne, h | ⟨p, hnil, hp, rfl⟩⟩
    · exact ⟨hne, .inl h⟩
    · exact ⟨hne, .inr ⟨p, hnil, hp, fun he => hne (by rw [he]), rfl⟩⟩
  · rintro ⟨hne, h | ⟨p, hnil, hp, -, rfl⟩⟩
    · exact ⟨hne, .inl h⟩
    · exact ⟨hne, .inr ⟨p, hnil, hp, rfl⟩⟩

theorem node_foldl_put {dirs : List Loc} (h : ∀ d ∈ dirs, d ≠ []) (t : Tree) (l : Loc) :
    (dirs.foldl (fun t d => Tree.put t d .dir) t).node l =
      if l ∈ dirs then some .dir else t.node l := by
  induction dirs generalizing t with
  | nil => simp
  | cons d dirs ih =>
    rw [List.foldl_cons, ih fun e he => h e (List.mem_cons_of_mem d he),
      node_put (h d (by simp))]
    by_cases hl : l ∈ dirs <;> by_cases hd : l = d <;> simp [hl, hd]

/-- The file is where it belongs, nothing is in its way, and the rest stays. -/
theorem leaf_checkoutBlob (root : Loc) (t : Tree) (b : Blob) (l : Loc) :
    (l = root ++ b.names → leaf (checkoutBlob root t b) l = some b.node) ∧
    (b.InWay root l → leaf (checkoutBlob root t b) l = none) ∧
    (l ≠ root ++ b.names → ¬ b.InWay root l → leaf (checkoutBlob root t b) l = leaf t l) := by
  have hplace : root ++ b.names ≠ [] := by simp [b.ne_nil]
  have hdirs : ∀ d ∈ b.dirs root, d ≠ [] := by
    intro d hd
    obtain ⟨p, hnil, -, -, rfl⟩ := mem_dirs.mp hd
    simp [hnil]
  have hnode : (checkoutBlob root t b).node l =
      if l = root ++ b.names then some b.node
      else if l ∈ b.dirs root then some .dir
      else if root ++ b.names <+: l ∧ l ≠ [] then none else t.node l := by
    rw [checkoutBlob, node_put hplace, node_foldl_put hdirs, node_removed]
  refine ⟨fun h => ?_, fun h => ?_, fun hne h => ?_⟩
  · rw [leaf, hnode, if_pos h]
    simp [b.not_dir]
  · obtain ⟨hne, hway⟩ := inWay_iff.mp h
    rw [leaf, hnode, if_neg hne]
    by_cases hd : l ∈ b.dirs root
    · simp [hd]
    · have hp := hway.resolve_right hd
      have hnil : l ≠ [] := by
        rintro rfl
        exact hplace (List.prefix_nil.mp hp)
      simp [hd, hp, hnil]
  · rw [inWay_iff] at h
    have hway : ¬ root ++ b.names <+: l ∧ l ∉ b.dirs root :=
      ⟨fun hp => h ⟨hne, .inl hp⟩, fun hd => h ⟨hne, .inr hd⟩⟩
    rw [leaf, hnode, if_neg hne, if_neg hway.2, if_neg fun hp => hway.1 hp.1, leaf]

/-- What a file asks of a place, if anything. -/
def Asks (root : Loc) (b : Blob) (l : Loc) (x : Option Node) : Prop :=
  l = root ++ b.names ∧ x = some b.node ∨ b.InWay root l ∧ x = none

theorem leaf_of_asks {x : Option Node} (h : Asks root b l x) (t : Tree) :
    leaf (checkoutBlob root t b) l = x := by
  rcases h with ⟨hl, rfl⟩ | ⟨hw, rfl⟩
  · exact (leaf_checkoutBlob root t b l).1 hl
  · exact (leaf_checkoutBlob root t b l).2.1 hw

/-- A place keeps what it has if that is all that is asked of it. -/
theorem leaf_checkoutBlob_of {y : Option Node} (h : ∀ x, Asks root b l x → x = y)
    (ht : leaf t l = y) : leaf (checkoutBlob root t b) l = y := by
  by_cases hl : l = root ++ b.names
  · have hask : Asks root b l (some b.node) := .inl ⟨hl, rfl⟩
    rw [leaf_of_asks hask, h _ hask]
  · by_cases hw : b.InWay root l
    · have hask : Asks root b l none := .inr ⟨hw, rfl⟩
      rw [leaf_of_asks hask, h _ hask]
    · rw [(leaf_checkoutBlob root t b l).2.2 hl hw, ht]

theorem leaf_foldl_of {blobs : List Blob} {y : Option Node}
    (h : ∀ b ∈ blobs, ∀ x, Asks root b l x → x = y) (ht : leaf t l = y) :
    leaf (blobs.foldl (checkoutBlob root) t) l = y := by
  induction blobs generalizing t with
  | nil => exact ht
  | cons b blobs ih =>
    exact ih (fun c hc => h c (List.mem_cons_of_mem b hc))
      (leaf_checkoutBlob_of (h b (by simp)) ht)

/-- Two files of a commit ask the same of a place. -/
theorem Asks.agree {x y : Option Node} (hflat : ¬ a.names <+: b.names ∧ ¬ b.names <+: a.names)
    (ha : Asks root a l x) (hb : Asks root b l y) : x = y := by
  have hclash : ∀ {a b : Blob}, ¬ a.names <+: b.names → ¬ b.names <+: a.names →
      l = root ++ a.names → ¬ b.InWay root l := by
    rintro a b hab hba rfl ⟨-, hp | ⟨p, -, hp, he⟩⟩
    · exact hba ((List.prefix_append_right_inj root).mp hp)
    · rw [List.append_cancel_left he] at hab
      exact hab hp
  rcases ha with ⟨hla, rfl⟩ | ⟨hwa, rfl⟩
  · rcases hb with ⟨hlb, rfl⟩ | ⟨hwb, rfl⟩
    · have he := List.append_cancel_left (hla.symm.trans hlb)
      exact absurd (he ▸ List.prefix_rfl) hflat.1
    · exact absurd hwb (hclash hflat.1 hflat.2 hla)
  · rcases hb with ⟨hlb, rfl⟩ | ⟨-, rfl⟩
    · exact absurd hwa (hclash hflat.2 hflat.1 hlb)
    · rfl

theorem Asks.unique {x y : Option Node} (ha : Asks root b l x) (hb : Asks root b l y) : x = y := by
  rcases ha with ⟨hl, rfl⟩ | ⟨hw, rfl⟩
  · rcases hb with ⟨-, rfl⟩ | ⟨hw, -⟩
    · rfl
    · exact absurd hl hw.1
  · rcases hb with ⟨hl, -⟩ | ⟨-, rfl⟩
    · exact absurd hl hw.1
    · rfl


theorem asks_agree {blobs : List Blob}
    (hflat : blobs.Pairwise fun a b => ¬ a.names <+: b.names ∧ ¬ b.names <+: a.names)
    (ha : a ∈ blobs) (hb : b ∈ blobs) {x y : Option Node} (hx : Asks root a l x)
    (hy : Asks root b l y) : x = y :=
  List.Pairwise.forall_of_forall_of_flip
    (R := fun a b => ∀ x y, Asks root a l x → Asks root b l y → x = y)
    (fun _ _ _ _ hx hy => hx.unique hy)
    (hflat.imp fun h _ _ hx hy => hx.agree h hy)
    (hflat.imp fun h _ _ hx hy => hx.agree h.symm hy) ha hb x y hx hy

/-- After the checkout a place holds what is asked of it. -/
theorem leaf_foldl_asks {blobs : List Blob}
    (hflat : blobs.Pairwise fun a b => ¬ a.names <+: b.names ∧ ¬ b.names <+: a.names)
    (hb : b ∈ blobs) {x : Option Node} (hx : Asks root b l x) :
    leaf (blobs.foldl (checkoutBlob root) t) l = x := by
  obtain ⟨pre, post, rfl⟩ := List.append_of_mem hb
  rw [List.foldl_append, List.foldl_cons]
  exact leaf_foldl_of (fun c hc y hy => asks_agree hflat (by simp [hc]) hb hy hx) (leaf_of_asks hx _)

/-- A place is as before exactly where it has all that the files ask of it. -/
theorem leaf_foldl_eq_iff {blobs : List Blob}
    (hflat : blobs.Pairwise fun a b => ¬ a.names <+: b.names ∧ ¬ b.names <+: a.names) :
    leaf (blobs.foldl (checkoutBlob root) t) l = leaf t l ↔
      ∀ b ∈ blobs, ∀ x, Asks root b l x → x = leaf t l := by
  constructor
  · intro heq b hb x hx
    rw [← heq, leaf_foldl_asks hflat hb hx]
  · exact fun h => leaf_foldl_of h rfl

/-! ### A path and the rest -/

/-- Nothing outside the path `rel` has to change for the file: it stands there already or
belongs to the path, and no other file is in its way. -/
structure Spared (root rel : Loc) (t : Tree) (b : Blob) : Prop where
  there : ¬ rel <+: b.names → leaf t (root ++ b.names) = some b.node
  free : ∀ l, b.InWay root l → ¬ root ++ rel <+: l → leaf t l = none

/-- Files change below the path alone exactly where every file written spares the rest. -/
theorem frame_iff (root rel : Loc) (t : Tree) {blobs : List Blob}
    (hflat : blobs.Pairwise fun a b => ¬ a.names <+: b.names ∧ ¬ b.names <+: a.names) :
    (∀ l, ¬ root ++ rel <+: l → leaf (blobs.foldl (checkoutBlob root) t) l = leaf t l) ↔
      ∀ b ∈ blobs, Spared root rel t b := by
  simp only [leaf_foldl_eq_iff hflat]
  constructor
  · intro h b hb
    refine ⟨fun hrel => ?_, fun l hw hl => (h l hl b hb none (.inr ⟨hw, rfl⟩)).symm⟩
    have hl : ¬ root ++ rel <+: root ++ b.names := by rwa [List.prefix_append_right_inj]
    exact (h _ hl b hb _ (.inl ⟨rfl, rfl⟩)).symm
  · rintro h l hl b hb x (⟨rfl, rfl⟩ | ⟨hw, rfl⟩)
    · rw [List.prefix_append_right_inj] at hl
      exact ((h b hb).there hl).symm
    · exact ((h b hb).free l hw hl).symm

theorem leaf_eq_some {n : Node} : leaf t l = some n ↔ t.node l = some n ∧ n ≠ .dir := by
  simp [leaf, Option.filter_eq_some_iff]

theorem leaf_of_dir (h : t.node l = some .dir) : leaf t l = none := by
  simp [leaf, h]

/-- In a tree whose files stand in directories, what is there has nothing in its way. -/
theorem spared_iff (ht : t.Rooted) : Spared root rel t b ↔
    (¬ rel <+: b.names → leaf t (root ++ b.names) = some b.node) ∧
      (rel <+: b.names → ∀ p, p ≠ [] → p <+: rel → p ≠ rel → leaf t (root ++ p) = none) := by
  constructor
  · rintro ⟨hthere, hfree⟩
    refine ⟨hthere, fun hrel p hnil hp hne => hfree _ ⟨?_, .inr ⟨p, hnil, hp.trans hrel, rfl⟩⟩ ?_⟩
    · intro he
      have heq := List.append_cancel_left he
      exact hne (hp.eq_of_length_le (heq ▸ hrel.length_le))
    · rw [List.prefix_append_right_inj]
      exact fun hp' => hne (hp.eq_of_length_le hp'.length_le)
  · rintro ⟨hthere, hfree⟩
    refine ⟨hthere, fun l ⟨hne, hway⟩ hl => ?_⟩
    by_cases hrel : rel <+: b.names
    · rcases hway with hp | ⟨p, hnil, hp, rfl⟩
      · exact absurd (((List.prefix_append_right_inj root).mpr hrel).trans hp) hl
      · rw [List.prefix_append_right_inj] at hl
        rcases List.prefix_or_prefix_of_prefix hp hrel with hpr | hpr
        · exact hfree hrel p hnil hpr fun he => hl (he ▸ List.prefix_rfl)
        · exact absurd hpr hl
    · obtain ⟨hnode, hdir⟩ := leaf_eq_some.mp (hthere hrel)
      rcases hway with hp | ⟨p, hnil, hp, rfl⟩
      · cases hx : t.node l with
        | none => simp [leaf, hx]
        | some x =>
          have hd := ht.dir_of_prefix (by rw [hx]; rfl) hp (Ne.symm hne)
          rw [hnode] at hd
          exact absurd (Option.some.inj hd) hdir
      · exact leaf_of_dir (ht.dir_of_prefix (by rw [hnode]; rfl)
          ((List.prefix_append_right_inj root).mpr hp) hne)

/-- A checkout that succeeds. -/
theorem checkout_some {g : Repositories} {t u : Tree} {root : Loc} {hash spec : Bytes}
    (h : g.checkout t root hash spec = some u) :
    ∃ place c f, t.stat root = .ok (place, .dir) ∧ g.commit place hash = some c ∧
      Pathspec.read (g.attr place) place spec = some f ∧ c.selected f ≠ [] ∧
      u = (c.selected f).foldl (checkoutBlob place) t := by
  unfold Repositories.checkout at h
  split at h
  · rename_i place hs
    obtain ⟨c, hc, h⟩ := Option.bind_eq_some_iff.mp h
    obtain ⟨f, hf, h⟩ := Option.bind_eq_some_iff.mp h
    split at h
    · cases h
    · rename_i hne
      exact ⟨place, c, f, hs, hc, hf, hne, (Option.some.inj h).symm⟩
  · cases h

end Mdock.Git.Checkout
