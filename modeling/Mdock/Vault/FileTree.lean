import Mdock.Vault.Links
import Mdock.Vault.Service

/-! File trees: whatever has a name stands in a directory. What the vault service does to a
file tree leaves one. -/
namespace Mdock.Vault
open Mdock.Go Mdock.Lib

structure FileTree where
  tree : Tree
  rooted : tree.Rooted

namespace Tree

section Rooted
variable {t u : Tree} {src dst l : Loc} {n : Bytes} {path : Loc}

theorem mkdirOne_rooted (ht : t.Rooted) (h : t.mkdirOne path = some u) : u.Rooted := by
  rcases mkdirOne_cases h with ⟨rfl, -⟩ | ⟨l, hw, hnone, rfl⟩
  · exact ht
  · obtain ⟨j, -, hW⟩ := walks_of_walk hw
    rcases hW.landing ht rfl with hs | ⟨m, n, hn, hd, rfl⟩
    · rw [hnone] at hs
      cases hs
    · exact ht.put hd hn (by rw [hnone]; simp) .dir

theorem mkdirAll_rooted (ht : t.Rooted) (h : t.mkdirAll path = some u) : u.Rooted := by
  unfold mkdirAll at h
  generalize path.inits = ps at h
  induction ps generalizing t with
  | nil =>
    cases h
    exact ht
  | cons p ps ih =>
    rw [List.foldlM_cons] at h
    obtain ⟨v, hv, h⟩ := Option.bind_eq_some_iff.mp h
    exact ih (mkdirOne_rooted ht hv) h

/-- Where a walk ends, unless it is at a directory, is a name in a directory. -/
theorem Walks.named {follow : Bool} {j : Nat} {cur : Loc} {ns : List Bytes} (ht : t.Rooted)
    (h : Walks t follow j cur ns l) (hcur : (t.node cur).isSome) (hl : t.node l ≠ some .dir) :
    ∃ m n, Plain n ∧ t.node m = some .dir ∧ l = m ++ [n] := by
  rcases h.landing ht hcur with hs | hm
  · rcases List.eq_nil_or_concat' l with rfl | ⟨m, n, rfl⟩
    · exact absurd rfl hl
    · exact ⟨m, n, ht.plain hs, ht.parent hs, rfl⟩
  · exact hm

theorem writeFile_rooted (ht : t.Rooted) {data : Bytes} (h : t.writeFile path data = some u) :
    u.Rooted := by
  obtain ⟨x, hw, hd, rfl⟩ := writeFile_cases h
  obtain ⟨j, -, hW⟩ := walks_of_walk hw
  obtain ⟨m, n, hn, hm, rfl⟩ := hW.named ht rfl hd
  exact ht.put hm hn hd _

theorem rooted_of_node (h : ∀ l n, (t.node (l ++ [n])).isSome → t.node l = some .dir ∧ Plain n) :
    t.Rooted := ⟨fun hs => (h _ _ hs).1, fun hs => (h _ _ hs).2⟩

theorem removeAll_rooted (ht : t.Rooted) (h : t.removeAll path = some u) : u.Rooted := by
  rcases removeAll_cases h with ⟨-, rfl⟩ | ⟨p, -, hu⟩
  · exact ht
  · refine rooted_of_node fun l n hs => ?_
    rw [hu] at hs
    split at hs
    · cases hs
    · rename_i hp
      refine ⟨?_, ht.plain hs⟩
      rw [hu, if_neg fun h => hp ⟨h.1.trans (List.prefix_append l [n]), by simp⟩]
      exact ht.parent hs

theorem mem_moved {q : Loc} {x : Node} :
    (dst ++ q, x) ∈ t.moved src dst ↔ (src ++ q, x) ∈ t.rows := by
  simp only [moved, List.mem_map, List.mem_filter, List.isPrefixOf_iff_prefix]
  constructor
  · rintro ⟨⟨k, y⟩, ⟨he, q', rfl⟩, h⟩
    simp only [List.drop_left, Prod.mk.injEq, List.append_cancel_left_eq] at h
    obtain ⟨rfl, rfl⟩ := h
    exact he
  · exact fun h => ⟨(src ++ q, x), ⟨h, List.prefix_append src q⟩, by simp⟩

theorem moved_keys (t : Tree) (src dst : Loc) : ((t.moved src dst).map entryLoc).Nodup := by
  have hn : (t.rows.filter fun e => src.isPrefixOf e.1).Nodup :=
    List.Nodup.of_map entryLoc ((List.filter_sublist.map entryLoc).nodup t.nodup)
  rw [moved, List.map_map]
  refine hn.map_on ?_
  rintro ⟨k, x⟩ hk ⟨k', x'⟩ hk' h
  obtain ⟨hm, hp⟩ := List.mem_filter.mp hk
  obtain ⟨hm', hp'⟩ := List.mem_filter.mp hk'
  obtain ⟨q, rfl⟩ := List.isPrefixOf_iff_prefix.mp hp
  obtain ⟨q', rfl⟩ := List.isPrefixOf_iff_prefix.mp hp'
  simp only [Function.comp, entryLoc, List.drop_left, List.append_cancel_left_eq] at h
  subst h
  exact List.inj_on_of_nodup_map t.nodup hm hm' rfl

/-- Everything below the old place is below the new one, and nothing else is there. -/
theorem node_relocate (hs : src ≠ []) (hd : dst ≠ []) (l : Loc) :
    (t.relocate src dst).node l =
      if dst <+: l then t.node (src ++ l.drop dst.length)
      else if src <+: l then none else t.node l := by
  by_cases hp : dst <+: l
  · obtain ⟨q, rfl⟩ := hp
    rw [if_pos (List.prefix_append dst q), List.drop_left]
    apply Option.ext
    intro x
    rw [node_eq_some (by simp [hd]), node_eq_some (by simp [hs]), relocate,
      Keyed.mem_foldl_upsert (moved_keys t src dst), mem_moved, Keyed.mem_deleteWhere]
    simp
  · rw [if_neg hp]
    by_cases hsl : src <+: l
    · have hl : l ≠ [] := by
        rintro rfl
        exact hs (List.prefix_nil.mp hsl)
      rw [if_pos hsl, Option.eq_none_iff_forall_ne_some]
      intro x hx
      rw [node_eq_some hl, relocate, Keyed.mem_foldl_upsert (moved_keys t src dst)] at hx
      rcases hx with hx | ⟨hx, -⟩
      · obtain ⟨e, -, he⟩ := List.mem_map.mp hx
        exact hp ⟨_, congrArg Prod.fst he⟩
      · rw [Keyed.mem_deleteWhere, List.isPrefixOf_iff_prefix.mpr hsl] at hx
        simp at hx
    · rw [if_neg hsl, relocate_node hsl hp]

/-- A directory is not moved below itself, so what is renamed hangs in the tree again. -/
theorem rename_rooted {old new : Loc} (ht : t.Rooted) (h : t.rename old new = some u) :
    u.Rooted := by
  obtain ⟨src, k, dst, hsrc, hdst, -, ⟨-, rfl⟩ | ⟨hne, hnd, hdir, rfl⟩⟩ := rename_cases h
  · exact ht
  · obtain ⟨-, hk⟩ := existing_eq_ok.mp hsrc
    obtain ⟨j, -, hW⟩ := walks_of_walk hdst
    obtain ⟨m, n, hn, hm, rfl⟩ := hW.named ht rfl hnd
    have hs : src ≠ [] := by
      rintro rfl
      obtain rfl : k = .dir := (Option.some.inj hk).symm
      exact (hdir rfl).1 List.nil_prefix
    have hsm : ¬ src <+: m := by
      intro hp
      have hkd : k = .dir := by
        by_cases he : src = m
        · rw [he, hm] at hk
          exact (Option.some.inj hk).symm
        · rw [ht.dir_of_prefix (by rw [hm]; rfl) hp he] at hk
          exact (Option.some.inj hk).symm
      exact (hdir hkd).1 (hp.trans (List.prefix_append m [n]))
    refine rooted_of_node fun l a hsome => ?_
    rw [node_relocate hs (by simp)] at hsome ⊢
    split at hsome
    · rename_i hp
      obtain ⟨q, hq⟩ := hp
      rcases List.eq_nil_or_concat' q with rfl | ⟨q, b, rfl⟩
      · rw [List.append_nil] at hq
        obtain ⟨rfl, rfl⟩ := List.append_singleton_inj.mp hq
        refine ⟨?_, hn⟩
        rw [if_neg, if_neg hsm, hm]
        intro hle
        have := hle.length_le
        rw [List.length_append, List.length_singleton] at this
        omega
      · rw [← List.append_assoc] at hq
        obtain ⟨rfl, rfl⟩ := List.append_singleton_inj.mp hq
        rw [List.append_assoc, List.drop_left, ← List.append_assoc] at hsome
        rw [if_pos (List.prefix_append _ q), List.drop_left]
        exact ⟨ht.parent hsome, ht.plain hsome⟩
    · rename_i hp
      split at hsome
      · cases hsome
      · rename_i hsl
        refine ⟨?_, ht.plain hsome⟩
        rw [if_neg fun h => hp (h.trans (List.prefix_append l [a])),
          if_neg fun h => hsl (h.trans (List.prefix_append l [a])), ht.parent hsome]

end Rooted
end Tree

/-! ### What the service leaves -/

namespace Service
variable {s : Service} {t t' : Tree} {v rel : Bytes}

theorem ensureVault_rooted {root : Loc} {u : Tree} (ht : t.Rooted)
    (h : s.ensureVault t v = .ok (root, u)) : u.Rooted := by
  unfold ensureVault at h
  split at h
  · cases h
  · split at h
    · cases h
    · rename_i hm
      cases h
      exact Tree.mkdirAll_rooted ht hm

theorem resolve_rooted {r : Resolved} (ht : t.Rooted) (h : s.resolve t v rel = .ok r) :
    r.tree.Rooted := by
  unfold resolve at h
  split at h
  · cases h
  · rename_i root u he
    have hu : u.Rooted := ensureVault_rooted ht he
    split at h
    · cases h
    · cases h
    · simp only at h
      split at h
      · cases h
      · split at h
        · cases h
          exact hu
        · split at h
          · cases h
          · cases h
            exact hu

theorem run_rooted {x : Except Err Resolved} {f : Resolved → Option Tree} {res : Except Err Unit}
    (ht : t.Rooted) (h : run t x f = (res, t'))
    (hf : ∀ r u, x = .ok r → f r = some u → u.Rooted) : t'.Rooted := by
  cases res with
  | error e =>
    rw [run_error h]
    exact ht
  | ok a =>
    obtain ⟨r, hx, hr⟩ := run_ok h
    exact hf r t' hx hr

theorem writeFile_rooted (ht : t.Rooted) (data : Bytes) :
    (s.writeFile t v rel data).2.Rooted := by
  refine run_rooted ht rfl fun r u hr hu => ?_
  obtain ⟨w, hw, hu⟩ := Option.bind_eq_some_iff.mp hu
  exact Tree.writeFile_rooted (Tree.mkdirAll_rooted (resolve_rooted ht hr) hw) hu

theorem mkdir_rooted (ht : t.Rooted) : (s.mkdir t v rel).2.Rooted :=
  run_rooted ht rfl fun _ _ hr hu => Tree.mkdirAll_rooted (resolve_rooted ht hr) hu

theorem delete_rooted (ht : t.Rooted) : (s.delete t v rel).2.Rooted :=
  run_rooted ht rfl fun _ _ hr hu => Tree.removeAll_rooted (resolve_rooted ht hr) hu

theorem rename_rooted (ht : t.Rooted) (newRel : Bytes) : (s.rename t v rel newRel).2.Rooted := by
  unfold rename
  split
  · exact ht
  · rename_i o ho
    refine run_rooted ht rfl fun r u hr hu => ?_
    obtain ⟨w, hw, hu⟩ := Option.bind_eq_some_iff.mp hu
    exact Tree.rename_rooted
      (Tree.mkdirAll_rooted (resolve_rooted (resolve_rooted ht ho) hr) hw) hu

end Service

namespace FileTree
variable (s : Service) (t : FileTree) (v rel : Bytes)

def ensureVault : Option FileTree :=
  match h : s.ensureVault t.tree v with
  | .error _ => none
  | .ok (_, u) => some ⟨u, Service.ensureVault_rooted t.rooted h⟩

def writeFile (data : Bytes) : Except Err Unit × FileTree :=
  ((s.writeFile t.tree v rel data).1,
    ⟨(s.writeFile t.tree v rel data).2, Service.writeFile_rooted t.rooted data⟩)

def mkdir : Except Err Unit × FileTree :=
  ((s.mkdir t.tree v rel).1, ⟨(s.mkdir t.tree v rel).2, Service.mkdir_rooted t.rooted⟩)

def rename (newRel : Bytes) : Except Err Unit × FileTree :=
  ((s.rename t.tree v rel newRel).1,
    ⟨(s.rename t.tree v rel newRel).2, Service.rename_rooted t.rooted newRel⟩)

def delete : Except Err Unit × FileTree :=
  ((s.delete t.tree v rel).1, ⟨(s.delete t.tree v rel).2, Service.delete_rooted t.rooted⟩)

end FileTree
end Mdock.Vault
