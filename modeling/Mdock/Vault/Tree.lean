import Mathlib.Data.List.Lex
import Mathlib.Data.List.Sort
import Mdock.Go.Strings
import Mdock.Lib.Keyed

/-! File trees with symbolic links, and the calls of `os` the vault service makes. Paths
are resolved by the kernel: every name but perhaps the last is followed through links. -/
namespace Mdock.Vault
open Mdock.Go Mdock.Lib

/-- A place in the file system: the names from the root down, none of them a link. -/
abbrev Loc := List Bytes

inductive Node
  | file (data : Bytes)
  | dir
  | link (target : Bytes)
  deriving DecidableEq

def entryLoc (e : Loc × Node) : Loc := e.1

/-- One entry a place; the root is a directory without an entry. -/
abbrev Tree := Keyed entryLoc

namespace Tree

def node (t : Tree) (l : Loc) : Option Node := if l = [] then some .dir else (t.get? l).map Prod.snd

/-- The content of the file at a place. -/
def file (t : Tree) (l : Loc) : Option Bytes :=
  match t.node l with
  | some (.file data) => some data
  | _ => none

inductive WalkErr
  | notExist | notDir | loop
  deriving DecidableEq

/-- Follow names from the directory `cur`. A link goes on with `next`, unless it is the last
name and `follow` is off; the last name need not exist. -/
def walkNames (t : Tree) (follow : Bool) (next : Loc → List Bytes → Except WalkErr Loc) :
    Loc → List Bytes → Except WalkErr Loc
  | cur, [] => .ok cur
  | cur, n :: rest =>
    match t.node cur with
    | none => .error .notExist
    | some (.file _) | some (.link _) => .error .notDir
    | some .dir =>
      if n = [] ∨ n = dot then walkNames t follow next cur rest
      else if n = dotdot then walkNames t follow next cur.dropLast rest
      else
        match t.node (cur ++ [n]) with
        | some (.link target) =>
          if rest = [] ∧ follow = false then .ok (cur ++ [n])
          else next (if target.head? = some slash then [] else cur) (split target ++ rest)
        | _ => walkNames t follow next (cur ++ [n]) rest

/-- Resolve a path, following as many links as `links` allows. -/
def walk (t : Tree) (follow : Bool) : Nat → Loc → List Bytes → Except WalkErr Loc
  | 0 => walkNames t follow fun _ _ => .error .loop
  | links + 1 => walkNames t follow (walk t follow links)

/-- Links the kernel follows before it answers `ELOOP`. -/
def kernelLinks : Nat := 40

/-- Links `filepath.EvalSymlinks` follows. -/
def evalLinks : Nat := 255

/-- The place an existing path leads to. -/
def existing (t : Tree) (follow : Bool) (links : Nat) (path : Loc) : Except WalkErr (Loc × Node) :=
  match t.walk follow links [] path with
  | .error e => .error e
  | .ok l =>
    match t.node l with
    | none => .error .notExist
    | some n => .ok (l, n)

/-- `os.Stat`. -/
def stat (t : Tree) (path : Loc) : Except WalkErr (Loc × Node) := t.existing true kernelLinks path

/-- `os.Lstat`. -/
def lstat (t : Tree) (path : Loc) : Except WalkErr (Loc × Node) :=
  t.existing false kernelLinks path

/-- `filepath.EvalSymlinks`. -/
def evalSymlinks (t : Tree) (path : Loc) : Except WalkErr Loc :=
  (t.existing true evalLinks path).map Prod.fst

/-- The names in a directory, and what they stand for. -/
def children (t : Tree) (l : Loc) : List (Bytes × Node) :=
  t.rows.filterMap fun e =>
    if e.1.dropLast = l then e.1.getLast?.map fun n => (n, e.2) else none

/-- `os.ReadDir`, which sorts by name. -/
def readDir (t : Tree) (path : Loc) : Except WalkErr (List (Bytes × Node)) :=
  match t.stat path with
  | .error e => .error e
  | .ok (l, .dir) => .ok ((t.children l).insertionSort fun a b => a.1 ≤ b.1)
  | .ok _ => .error .notDir

def put (t : Tree) (l : Loc) (n : Node) : Tree := t.upsert (l, n)

/-- `os.Mkdir` at a path that leads to no directory yet. -/
def mkdirOne (t : Tree) (path : Loc) : Option Tree :=
  match t.stat path with
  | .ok (_, .dir) => some t
  | .ok _ => none
  | .error _ =>
    match t.walk false kernelLinks [] path with
    | .error _ => none
    | .ok l => if (t.node l).isSome then none else some (t.put l .dir)

/-- `os.MkdirAll`: the path and its parents, outermost first. -/
def mkdirAll (t : Tree) (path : Loc) : Option Tree := path.inits.foldlM mkdirOne t

/-- `os.WriteFile`. -/
def writeFile (t : Tree) (path : Loc) (data : Bytes) : Option Tree :=
  match t.walk true kernelLinks [] path with
  | .error _ => none
  | .ok l =>
    match t.node l with
    | some .dir => none
    | _ => some (t.put l (.file data))

/-- `os.RemoveAll`; a path that leads nowhere is no error. -/
def removeAll (t : Tree) (path : Loc) : Option Tree :=
  match t.walk false kernelLinks [] path with
  | .error .notExist => some t
  | .error _ => none
  | .ok l => some (t.deleteWhere fun e => l.isPrefixOf e.1)

/-- The entries at or under `src`, as entries at or under `dst`. -/
def moved (t : Tree) (src dst : Loc) : List (Loc × Node) :=
  (t.rows.filter fun e => src.isPrefixOf e.1).map fun e => (dst ++ e.1.drop src.length, e.2)

def relocate (t : Tree) (src dst : Loc) : Tree :=
  (t.moved src dst).foldl Keyed.upsert
    (t.deleteWhere fun e => src.isPrefixOf e.1 || dst.isPrefixOf e.1)

/-- `os.Rename`, which refuses a directory as the new name unless both names are one file. -/
def rename (t : Tree) (old new : Loc) : Option Tree :=
  match t.lstat old with
  | .error _ => none
  | .ok (src, n) =>
    match t.walk false kernelLinks [] new with
    | .error _ => none
    | .ok dst =>
      if t.node dst = some .dir then if src = dst ∧ old ≠ new then some t else none
      else if src = dst then some t
      else if n = .dir ∧ (src.isPrefixOf dst ∨ (t.node dst).isSome) then none
      else some (t.relocate src dst)

theorem mem_children {t : Tree} {l : Loc} {n : Bytes} {x : Node} :
    (n, x) ∈ t.children l ↔ t.node (l ++ [n]) = some x := by
  simp only [children, List.mem_filterMap, node, List.append_eq_nil_iff, List.cons_ne_nil,
    and_false, if_false, Option.map_eq_some_iff, Keyed.get?_eq_some_iff]
  constructor
  · rintro ⟨e, he, h⟩
    split at h
    · rename_i hd
      obtain ⟨a, ha, hx⟩ := Option.map_eq_some_iff.mp h
      cases hx
      refine ⟨e, ⟨he, ?_⟩, rfl⟩
      rw [← hd]
      exact (List.dropLast_append_getLast? n ha).symm
    · cases h
  · rintro ⟨e, ⟨he, hk⟩, rfl⟩
    have hk' : e.1 = l ++ [n] := hk
    exact ⟨e, he, by simp [hk']⟩

/-! ### What a call leaves alone -/

theorem node_of_get? {t u : Tree} {l : Loc} (h : t.get? l = u.get? l) : t.node l = u.node l := by
  rw [node, node, h]

theorem get?_put_of_ne {t : Tree} {l l' : Loc} (h : l ≠ l') (n : Node) :
    (t.put l n).get? l' = t.get? l' := by
  rw [put, Keyed.get?_upsert, if_neg (by exact h)]

theorem mkdirOne_node {t u : Tree} {path l : Loc} (h : t.mkdirOne path = some u) {n : Node}
    (hn : t.node l = some n) : u.node l = some n := by
  unfold mkdirOne at h
  split at h
  · cases h
    exact hn
  · cases h
  · split at h
    · cases h
    · split at h
      · cases h
      · rename_i p _ hp
        cases h
        have hne : p ≠ l := by
          rintro rfl
          simp [hn] at hp
        rw [← hn]
        exact node_of_get? (get?_put_of_ne hne _)

/-- Making directories changes nothing that is there. -/
theorem mkdirAll_node {t u : Tree} {path l : Loc} (h : t.mkdirAll path = some u) {n : Node}
    (hn : t.node l = some n) : u.node l = some n := by
  unfold mkdirAll at h
  generalize path.inits = ps at h
  induction ps generalizing t with
  | nil =>
    cases h
    exact hn
  | cons p ps ih =>
    rw [List.foldlM_cons] at h
    obtain ⟨v, hv, h⟩ := Option.bind_eq_some_iff.mp h
    exact ih (mkdirOne_node hv hn) h

theorem writeFile_node {t u : Tree} {path : Loc} {data : Bytes}
    (h : t.writeFile path data = some u) {l : Loc}
    (hl : t.walk true kernelLinks [] path ≠ .ok l) : u.node l = t.node l := by
  unfold writeFile at h
  split at h
  · cases h
  · rename_i p hp
    have hne : p ≠ l := by
      rintro rfl
      exact hl hp
    split at h
    · cases h
    · cases h
      exact node_of_get? (get?_put_of_ne hne _)

theorem get?_deleteWhere_of_not {t : Tree} {l : Loc} {p : Loc × Node → Bool}
    (h : ∀ n, p (l, n) = false) : (t.deleteWhere p).get? l = t.get? l := by
  rw [Keyed.get?_deleteWhere]
  cases hg : t.get? l with
  | none => rfl
  | some e =>
    obtain ⟨k, n⟩ := e
    obtain rfl : k = l := Keyed.key_of_get? hg
    simp [Option.filter, h n]

theorem isPrefixOf_eq_false {p l : Loc} (h : ¬ p <+: l) : p.isPrefixOf l = false := by
  rw [← Bool.not_eq_true, List.isPrefixOf_iff_prefix]
  exact h

theorem removeAll_node {t u : Tree} {path : Loc} (h : t.removeAll path = some u) {l : Loc}
    (hl : ∀ p, t.walk false kernelLinks [] path = .ok p → ¬ p <+: l) : u.node l = t.node l := by
  unfold removeAll at h
  split at h
  · cases h
    rfl
  · cases h
  · rename_i p hp
    cases h
    exact node_of_get? (get?_deleteWhere_of_not fun n => isPrefixOf_eq_false (hl p hp))

theorem get?_foldl_upsert (es : List (Loc × Node)) (t : Tree) {l : Loc} (h : ∀ e ∈ es, e.1 ≠ l) :
    (es.foldl Keyed.upsert t : Tree).get? l = t.get? l := by
  induction es generalizing t with
  | nil => rfl
  | cons e es ih =>
    rw [List.foldl_cons, ih _ fun e' he' => h e' (List.mem_cons_of_mem e he')]
    exact get?_put_of_ne (h e (by simp)) e.2

theorem relocate_node {t : Tree} {src dst l : Loc} (hs : ¬ src <+: l) (hd : ¬ dst <+: l) :
    (t.relocate src dst).node l = t.node l := by
  apply node_of_get?
  rw [relocate, get?_foldl_upsert]
  · exact get?_deleteWhere_of_not fun n => by simp [isPrefixOf_eq_false, hs, hd]
  · intro e he hl
    obtain ⟨e', -, rfl⟩ := List.mem_map.mp he
    exact hd ⟨_, hl⟩

theorem rename_node {t u : Tree} {old new : Loc} (h : t.rename old new = some u) {l : Loc}
    (hs : ∀ p n, t.lstat old = .ok (p, n) → ¬ p <+: l)
    (hd : ∀ p, t.walk false kernelLinks [] new = .ok p → ¬ p <+: l) : u.node l = t.node l := by
  unfold rename at h
  split at h
  · cases h
  · rename_i src n hsrc
    split at h
    · cases h
    · rename_i dst hdst
      split at h
      · split at h
        · cases h
          rfl
        · cases h
      · split at h
        · cases h
          rfl
        · split at h
          · cases h
          · cases h
            exact relocate_node (hs src n hsrc) (hd dst hdst)

end Tree
end Mdock.Vault
