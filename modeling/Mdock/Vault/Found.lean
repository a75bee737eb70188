import Mdock.Vault.Containment
import Mdock.Vault.FileTree

/-! What `Stat` finds under a path, and what a call of the vault service leaves of it. -/
namespace Mdock.Vault
open Mdock.Go Mdock.Lib

namespace Service

/-- `Stat` finds a file. -/
def isFile (s : Service) (t : Tree) (v rel : Bytes) : Bool :=
  match s.stat t v rel with
  | .ok info => !info.isDir
  | .error _ => false

/-- The file a path of the vault leads to, whether `Resolve` lets it pass or not. -/
def fileAt (s : Service) (t : Tree) (v rel : Bytes) : Option Loc :=
  match s.vaultRoot v, safeRelPath rel with
  | .ok root, .ok rel =>
    match t.evalSymlinks root with
    | .error _ => none
    | .ok root =>
      match t.stat (root ++ names rel) with
      | .ok (l, .file _) => some l
      | _ => none
  | _, _ => none

end Service

section Found
variable {s : Service} {t t' u : Tree} {v rel data : Bytes} {x : Loc}

theorem fileAt_eq_some : s.fileAt t v rel = some x ↔ ∃ root p l d, s.vaultRoot v = .ok root ∧
    safeRelPath rel = .ok p ∧ t.evalSymlinks root = .ok l ∧
    t.walk true Tree.kernelLinks [] (l ++ names p) = .ok x ∧ t.node x = some (.file d) := by
  unfold Service.fileAt
  constructor
  · intro h
    split at h
    · rename_i root p hv hp
      split at h
      · cases h
      · rename_i l hl
        split at h
        · rename_i y d hst
          cases h
          obtain ⟨hw, hn⟩ := Tree.existing_eq_ok.mp hst
          exact ⟨root, p, l, d, hv, hp, hl, hw, hn⟩
        · cases h
    · cases h
  · rintro ⟨root, p, l, d, hv, hp, hl, hw, hn⟩
    have hst : t.stat (l ++ names p) = .ok (x, .file d) := Tree.existing_eq_ok.mpr ⟨hw, hn⟩
    simp only [hv, hp, hl, hst]

theorem evalSymlinks_extends {path l : Loc} (he : Tree.Extends t u)
    (h : t.evalSymlinks path = .ok l) : u.evalSymlinks path = .ok l := by
  unfold Tree.evalSymlinks at h ⊢
  cases hx : t.existing true Tree.evalLinks path with
  | error e =>
    rw [hx] at h
    cases h
  | ok a =>
    obtain ⟨l', n⟩ := a
    rw [hx] at h
    obtain rfl : l' = l := Except.ok.inj h
    obtain ⟨hw, hn⟩ := Tree.existing_eq_ok.mp hx
    obtain ⟨j, hj, hW⟩ := Tree.walks_of_walk hw
    obtain ⟨n', hn'⟩ := Option.isSome_iff_exists.mp (he.isSome (Option.isSome_iff_exists.mpr ⟨n, hn⟩))
    rw [Tree.existing_eq_ok.mpr ⟨(hW.kept he).walk hj, hn'⟩]
    rfl

/-- A file stays under its path where nothing but contents is replaced. -/
theorem fileAt_extends (he : Tree.Extends t u) (h : s.fileAt t v rel = some x) :
    s.fileAt u v rel = some x := by
  obtain ⟨root, p, l, d, hv, hp, hl, hw, hn⟩ := fileAt_eq_some.mp h
  obtain ⟨j, hj, hW⟩ := Tree.walks_of_walk hw
  obtain ⟨d', hn'⟩ := he.file hn
  exact fileAt_eq_some.mpr
    ⟨root, p, l, d', hv, hp, evalSymlinks_extends he hl, (hW.kept he).walk hj, hn'⟩

theorem stat_of_resolve {r : Service.Resolved} {n : Node} (hr : s.resolve t v rel = .ok r)
    (hst : r.tree.stat r.full = .ok (x, n)) :
    ∃ info, s.stat t v rel = .ok info ∧ info.isDir = decide (n = .dir) := by
  unfold Service.stat
  rw [hr]
  simp only [hst]
  exact ⟨_, rfl, rfl⟩

theorem isFile_of_resolve {r : Service.Resolved} {d : Bytes} (hr : s.resolve t v rel = .ok r)
    (hst : r.tree.stat r.full = .ok (x, .file d)) : s.isFile t v rel = true := by
  obtain ⟨info, hi, hd⟩ := stat_of_resolve hr hst
  unfold Service.isFile
  rw [hi]
  simp [hd]

theorem isFile_of_readFile (h : s.readFile t v rel = .ok data) : s.isFile t v rel = true := by
  cases hr : s.resolve t v rel with
  | error e => simp [Service.readFile, hr] at h
  | ok r =>
    obtain ⟨l, hst⟩ := readFile_stat h hr
    exact isFile_of_resolve hr hst

theorem resolve_full {r : Service.Resolved} (h : s.resolve t v rel = .ok r) :
    ∃ p, safeRelPath rel = .ok p ∧ r.full = r.root ++ names p := by
  unfold Service.resolve at h
  split at h
  · cases h
  · split at h
    · cases h
    · cases h
    · simp only at h
      split at h
      · cases h
      · rename_i p hp
        split at h
        · cases h
          exact ⟨p, hp, rfl⟩
        · split at h
          · cases h
          · cases h
            exact ⟨p, hp, rfl⟩

/-- `Resolve` depends on the tree through `EnsureVault` only. -/
theorem resolve_congr (h : s.ensureVault t v = s.ensureVault u v) :
    s.resolve t v rel = s.resolve u v rel := by
  unfold Service.resolve
  rw [h]

/-- A path resolves in a vault that was made just before as it does by itself. -/
theorem Service.Resolves.resolve_eq {o r : Service.Resolved} {new : Bytes} {root q ns : Loc}
    (h : s.Resolves t v o root q ns) (hs : ∀ n ∈ s.root, Plain n)
    (hr : s.resolve o.tree v new = .ok r) : s.resolve o.tree v new = s.resolve t v new := by
  obtain ⟨htree, -, ns', hR⟩ := h.again hs hr
  obtain ⟨root', q', ns'', hR', -⟩ := resolve_resolves hs h.made.rooted hr
  obtain rfl : root = root' := Except.ok.inj (h.vault.symm.trans hR'.vault)
  apply resolve_congr
  unfold Service.ensureVault
  simp only [h.vault, hR.make, hR'.make]

/-- A path that resolves and leads to a file is one that `Stat` finds. -/
theorem isFile_of_fileAt {r : Service.Resolved} (hs : ∀ n ∈ s.root, Plain n) (ht : t.Rooted)
    (hr : s.resolve t v rel = .ok r) (h : s.fileAt t v rel = some x) :
    s.isFile t v rel = true := by
  obtain ⟨root, p, l, d, hv, hp, hl, hw, hn⟩ := fileAt_eq_some.mp h
  obtain ⟨root', q, ns, hR, -⟩ := resolve_resolves hs ht hr
  obtain rfl : root = root' := Except.ok.inj (hv.symm.trans hR.vault)
  obtain ⟨p', hp', hfull⟩ := resolve_full hr
  obtain rfl : p = p' := Except.ok.inj (hp.symm.trans hp')
  have hg := hR.made.grown
  have hroot : r.tree.evalSymlinks root = .ok r.root := hR.root_eq ▸ made_eval hR.made
  obtain rfl : l = r.root :=
    Except.ok.inj ((evalSymlinks_extends hg.extends hl).symm.trans hroot)
  obtain ⟨j, hj, hW⟩ := Tree.walks_of_walk hw
  refine isFile_of_resolve hr (x := x) (d := d) (Tree.existing_eq_ok.mpr ⟨?_, hg.some hn⟩)
  rw [hfull]
  exact (hW.grown hg).walk hj

/-- An existing file at the place a path leads to was there to be found, whatever directories
were made in between. -/
theorem Service.Resolves.isFile {r : Service.Resolved} {root q ns : Loc}
    (h : s.Resolves t v r root q ns) (hr : s.resolve t v rel = .ok r)
    (hu : r.tree.mkdirAll r.full.dropLast = some u)
    (hw : u.walk true Tree.kernelLinks [] r.full = .ok x) (hx : t.node x = some (.file data)) :
    s.isFile t v rel = true := by
  have hrx := h.made.grown.some hx
  obtain ⟨hlead, hplace, -⟩ := write_place h.made.rooted (fun n => h.full_plain) hu hw
  rcases hplace with hT | ⟨hnone, -⟩
  · exact isFile_of_resolve hr (Tree.existing_eq_ok.mpr ⟨hT, hrx⟩)
  · by_cases he : r.tree.leads r.full = x
    · rw [he, hrx] at hnone
      cases hnone
    · rw [h.made.rooted.dir_of_prefix (by rw [hrx]; rfl) hlead he] at hnone
      cases hnone

theorem file_eq_some {l : Loc} : t.file l = some data ↔ t.node l = some (.file data) := by
  unfold Tree.file
  split
  · rename_i d hd
    simp [hd]
  · rename_i hno
    constructor
    · intro h
      cases h
    · intro h
      exact absurd h (hno data)

/-- A write where `Stat` finds no file replaces none. -/
theorem writeFile_keeps_files (hs : ∀ n ∈ s.root, Plain n) (ht : t.Rooted)
    (hfree : s.isFile t v rel = false) (h : s.writeFile t v rel data = (.ok (), t')) {l : Loc}
    {d : Bytes} (hl : t.file l = some d) : t'.file l = some d := by
  rw [file_eq_some] at hl ⊢
  obtain ⟨r, hr, h⟩ := Service.run_ok h
  obtain ⟨u, hu, h⟩ := Option.bind_eq_some_iff.mp h
  obtain ⟨x, hw, hd, rfl⟩ := Tree.writeFile_cases h
  obtain ⟨root, q, ns, hR, -⟩ := resolve_resolves hs ht hr
  rw [Tree.node_put (Tree.ne_nil_of_not_dir hd)]
  by_cases he : l = x
  · subst he
    rw [hR.isFile hr hu hw hl] at hfree
    cases hfree
  · rw [if_neg he]
    exact Tree.mkdirAll_node hu (hR.made.grown.some hl)

/-- A rename to where `Stat` finds no file moves files, and replaces none. -/
theorem rename_keeps_files {new : Bytes} (hs : ∀ n ∈ s.root, Plain n) (ht : t.Rooted)
    (hfree : s.isFile t v new = false) (h : s.rename t v rel new = (.ok (), t')) {l : Loc}
    {d : Bytes} (hl : t.file l = some d) : t'.file l = some d ∨ t'.node l = none := by
  rw [file_eq_some] at hl ⊢
  unfold Service.rename at h
  split at h
  · cases h
  · rename_i o ho
    obtain ⟨r, hr, h⟩ := Service.run_ok h
    obtain ⟨u, hu, h⟩ := Option.bind_eq_some_iff.mp h
    obtain ⟨root, q, ns, hO, -⟩ := resolve_resolves hs ht ho
    obtain ⟨htree, -, ns', hR⟩ := hO.again hs hr
    have hul : u.node l = some (.file d) := Tree.mkdirAll_node hu (hR.made.grown.some hl)
    obtain ⟨src, k, dst, hsrc, hdst, -, ⟨-, rfl⟩ | ⟨-, hnd, hdir, rfl⟩⟩ := Tree.rename_cases h
    · exact .inl hul
    · have hur : u.Rooted := Tree.mkdirAll_rooted hR.made.rooted hu
      have hsrc0 : src ≠ [] := by
        rintro rfl
        obtain rfl : k = .dir := (Option.some.inj (Tree.existing_eq_ok.mp hsrc).2).symm
        exact (hdir rfl).1 List.nil_prefix
      rw [Tree.node_relocate hsrc0 (Tree.ne_nil_of_not_dir hnd)]
      split
      · rename_i hp
        exfalso
        have hdl : dst = l := by
          by_contra hdl
          exact hnd (hur.dir_of_prefix (by rw [hul]; rfl) hp hdl)
        subst hdl
        obtain ⟨j, hj, hW⟩ := Tree.walks_of_walk hdst
        have hfollow := hW.followed fun target => by rw [hul]; simp
        rw [hR.isFile (hO.resolve_eq hs hr ▸ hr) hu (hfollow.walk hj) hl] at hfree
        cases hfree
      · split
        · exact .inr rfl
        · exact .inl hul

/-! ### What is left in its place -/

theorem put_extends {d : Bytes} (ht : t.Rooted) {j : Nat} {ns : List Bytes}
    (hW : Tree.Walks t true j [] ns x) (hd : t.node x ≠ some .dir) :
    Tree.Extends t (t.put x (.file d)) := by
  have hlink := hW.no_link ht (by simp [Tree.node])
  refine ⟨fun {l} hl => ?_, fun {l d'} hl => ?_, fun {l target} => ?_⟩ <;>
    rw [Tree.node_put (Tree.ne_nil_of_not_dir hd)]
  · rw [if_neg, hl]
    rintro rfl
    exact hd hl
  · split
    · exact ⟨d, rfl⟩
    · exact ⟨d', hl⟩
  · split
    · rename_i he
      subst he
      simp [hlink]
    · rfl

/-- A write leaves every other file, and the one it writes under its path. -/
theorem writeFile_extends (hs : ∀ n ∈ s.root, Plain n) (ht : t.Rooted)
    (h : s.writeFile t v rel data = (.ok (), t')) :
    Tree.Extends t t' ∧ (s.fileAt t' v rel).isSome := by
  obtain ⟨r, hr, h⟩ := Service.run_ok h
  obtain ⟨u, hu, h⟩ := Option.bind_eq_some_iff.mp h
  obtain ⟨x, hw, hd, rfl⟩ := Tree.writeFile_cases h
  obtain ⟨root, q, ns, hR, -⟩ := resolve_resolves hs ht hr
  obtain ⟨q', hq'⟩ := Tree.mkdirAll_made hR.made.rooted
    (fun n hn => hR.full_plain (List.dropLast_subset r.full hn)) hu
  obtain ⟨j, hj, hW⟩ := Tree.walks_of_walk hw
  have hput := put_extends (d := data) hq'.rooted hW hd
  have hext := hq'.grown.extends.trans hput
  obtain ⟨p, hp, hfull⟩ := resolve_full hr
  refine ⟨hR.made.grown.extends.trans hext, Option.isSome_iff_exists.mpr ⟨x, fileAt_eq_some.mpr
    ⟨root, p, r.root, data, hR.vault, hp, ?_, ?_, ?_⟩⟩⟩
  · exact evalSymlinks_extends hext (hR.root_eq ▸ made_eval hR.made)
  · rw [← hfull]
    exact (hW.kept hput).walk hj
  · rw [Tree.node_put (Tree.ne_nil_of_not_dir hd), if_pos rfl]

theorem mkdir_extends (hs : ∀ n ∈ s.root, Plain n) (ht : t.Rooted)
    (h : s.mkdir t v rel = (.ok (), t')) : Tree.Extends t t' := by
  obtain ⟨r, hr, h⟩ := Service.run_ok h
  obtain ⟨root, q, ns, hR, -⟩ := resolve_resolves hs ht hr
  exact hR.made.grown.extends.trans
    (Tree.mkdirAll_grown h).extends

theorem ensureVault_grown {root : Loc} (h : s.ensureVault t v = .ok (root, u)) : Tree.Grown t u :=
  Tree.mkdirAll_grown (ensureVault_ok h).2

theorem FileTree.ensureVault_extends {t u : FileTree}
    (h : t.ensureVault s v = some u) : Tree.Extends t.tree u.tree := by
  unfold FileTree.ensureVault at h
  split at h
  · cases h
  · rename_i he
    cases h
    exact (ensureVault_grown he).extends

end Found
end Mdock.Vault
