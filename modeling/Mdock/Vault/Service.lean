import Mdock.Vault.Path
import Mdock.Vault.Tree

/-! `vault.Service`: paths relative to a vault, resolved to places below its root and
handed to the file system. A method that fails leaves the tree as it found it. -/
namespace Mdock.Vault
open Mdock.Go Mdock.Lib

structure Service where
  root : Loc
  deriving DecidableEq

/-- `ensureInside`, for absolute clean paths. -/
def ensureInside (root path : Loc) : Except Err Unit :=
  if root.isPrefixOf path then .ok () else .error .escapes

namespace Service

/-- `VaultRoot`. -/
def vaultRoot (s : Service) (vaultPath : Bytes) : Except Err Loc :=
  match safeRelPath vaultPath with
  | .error e => .error (.path e)
  | .ok rel => .ok (s.root ++ names rel)

/-- `EnsureVault`. -/
def ensureVault (s : Service) (t : Tree) (vaultPath : Bytes) : Except Err (Loc × Tree) :=
  match s.vaultRoot vaultPath with
  | .error e => .error e
  | .ok root =>
    match t.mkdirAll root with
    | none => .error .io
    | some t => .ok (root, t)

/-- What `Resolve` answers: the root and the full path, and the tree in which the root exists. -/
structure Resolved where
  root : Loc
  full : Loc
  tree : Tree

/-- The checks of `Resolve` on the links below the root. -/
def checkLinks (t : Tree) (root full : Loc) : Except Err Unit :=
  let inside : Except Err Unit :=
    match t.evalSymlinks full with
    | .ok eval => ensureInside root eval
    | .error _ => .ok ()
  match t.evalSymlinks full.dropLast with
  | .error .notExist => inside
  | .error _ => .error .io
  | .ok parent =>
    match ensureInside root parent with
    | .error e => .error e
    | .ok () => inside

def resolve (s : Service) (t : Tree) (vaultPath relPath : Bytes) : Except Err Resolved :=
  match s.ensureVault t vaultPath with
  | .error e => .error e
  | .ok (root, t) =>
    match t.evalSymlinks root with
    | .error .notDir | .error .loop => .error .io
    | evaluated =>
      let root := match evaluated with
        | .ok eval => eval
        | .error _ => root
      match safeRelPath relPath with
      | .error e => .error (.path e)
      | .ok rel =>
        let full := root ++ names rel
        if rel = dot then .ok ⟨root, full, t⟩
        else
          match checkLinks t root full with
          | .error e => .error e
          | .ok () => .ok ⟨root, full, t⟩

/-- Whether there is something, and of which kind. The root it may have to create is not
kept. -/
def stat (s : Service) (t : Tree) (vaultPath relPath : Bytes) : Except Err Info :=
  match s.resolve t vaultPath relPath with
  | .error e => .error e
  | .ok r =>
    match r.tree.stat r.full with
    | .error _ => .error .io
    | .ok (_, n) =>
      .ok ⟨if r.full = r.root then dot else join (r.full.drop r.root.length), decide (n = .dir)⟩

def readFile (s : Service) (t : Tree) (vaultPath relPath : Bytes) : Except Err Bytes :=
  match s.resolve t vaultPath relPath with
  | .error e => .error e
  | .ok r =>
    match r.tree.stat r.full with
    | .ok (_, .file data) => .ok data
    | _ => .error .io

def list (s : Service) (t : Tree) (vaultPath relPath : Bytes) : Except Err (List Entry) :=
  match s.resolve t vaultPath relPath with
  | .error e => .error e
  | .ok r =>
    match r.tree.readDir r.full with
    | .error _ => .error .io
    | .ok items =>
      .ok ((items.filter fun item => item.1 ≠ dotGit).map fun item =>
        ⟨item.1, join (r.full.drop r.root.length ++ [item.1]), decide (item.2 = .dir)⟩)

/-- A call of `os` on a resolved path. -/
def run (t : Tree) (r : Except Err Resolved) (f : Resolved → Option Tree) :
    Except Err Unit × Tree :=
  match r with
  | .error e => (.error e, t)
  | .ok r =>
    match f r with
    | none => (.error .io, t)
    | some t => (.ok (), t)

def writeFile (s : Service) (t : Tree) (vaultPath relPath data : Bytes) :
    Except Err Unit × Tree :=
  run t (s.resolve t vaultPath relPath) fun r =>
    (r.tree.mkdirAll r.full.dropLast).bind fun t => t.writeFile r.full data

def mkdir (s : Service) (t : Tree) (vaultPath relPath : Bytes) : Except Err Unit × Tree :=
  run t (s.resolve t vaultPath relPath) fun r => r.tree.mkdirAll r.full

/-- The second path is resolved on its own, against the same tree. -/
def rename (s : Service) (t : Tree) (vaultPath oldRelPath newRelPath : Bytes) :
    Except Err Unit × Tree :=
  match s.resolve t vaultPath oldRelPath with
  | .error e => (.error e, t)
  | .ok old =>
    run t (s.resolve old.tree vaultPath newRelPath) fun new =>
      (new.tree.mkdirAll new.full.dropLast).bind fun t => t.rename old.full new.full

def delete (s : Service) (t : Tree) (vaultPath relPath : Bytes) : Except Err Unit × Tree :=
  run t (s.resolve t vaultPath relPath) fun r => r.tree.removeAll r.full

theorem run_error {t t' : Tree} {r : Except Err Resolved} {f : Resolved → Option Tree} {e : Err}
    (h : run t r f = (.error e, t')) : t' = t := by
  unfold run at h
  split at h
  · cases h
    rfl
  · split at h
    · cases h
      rfl
    · cases h

theorem run_ok {t t' : Tree} {r : Except Err Resolved} {f : Resolved → Option Tree}
    (h : run t r f = (.ok (), t')) : ∃ v, r = .ok v ∧ f v = some t' := by
  unfold run at h
  split at h
  · cases h
  · split at h
    · cases h
    · rename_i v _ u hu
      cases h
      exact ⟨v, rfl, hu⟩

theorem rename_error {s : Service} {t t' : Tree} {v old new : Bytes} {e : Err}
    (h : s.rename t v old new = (.error e, t')) : t' = t := by
  unfold rename at h
  split at h
  · cases h
    rfl
  · exact run_error h

/-! ### The places a method writes, removes or moves -/

theorem ensureVault_node {s : Service} {t t' : Tree} {v : Bytes} {root : Loc}
    (h : s.ensureVault t v = .ok (root, t')) {l : Loc} {n : Node} (hn : t.node l = some n) :
    t'.node l = some n := by
  unfold ensureVault at h
  split at h
  · cases h
  · split at h
    · cases h
    · rename_i hm
      cases h
      exact Tree.mkdirAll_node hm hn

theorem resolve_node {s : Service} {t : Tree} {v rel : Bytes} {r : Resolved}
    (h : s.resolve t v rel = .ok r) {l : Loc} {n : Node} (hn : t.node l = some n) :
    r.tree.node l = some n := by
  unfold resolve at h
  split at h
  · cases h
  · rename_i root t' he
    have hn' := ensureVault_node he hn
    split at h
    · cases h
    · cases h
    · simp only at h
      split at h
      · cases h
      · split at h
        · cases h
          exact hn'
        · split at h
          · cases h
          · cases h
            exact hn'

/-- The place `WriteFile` writes to. -/
def Writes (s : Service) (t : Tree) (v rel : Bytes) (l : Loc) : Prop :=
  ∃ r u, s.resolve t v rel = .ok r ∧ r.tree.mkdirAll r.full.dropLast = some u ∧
    u.walk true Tree.kernelLinks [] r.full = .ok l

/-- The places `Delete` removes. -/
def Removes (s : Service) (t : Tree) (v rel : Bytes) (l : Loc) : Prop :=
  ∃ r p, s.resolve t v rel = .ok r ∧ r.tree.walk false Tree.kernelLinks [] r.full = .ok p ∧ p <+: l

/-- The places `Rename` moves, or moves something to. -/
def Moves (s : Service) (t : Tree) (v old new : Bytes) (l : Loc) : Prop :=
  ∃ o n u, s.resolve t v old = .ok o ∧ s.resolve o.tree v new = .ok n ∧
    n.tree.mkdirAll n.full.dropLast = some u ∧
    ((∃ p k, u.lstat o.full = .ok (p, k) ∧ p <+: l) ∨
      ∃ p, u.walk false Tree.kernelLinks [] n.full = .ok p ∧ p <+: l)

theorem writeFile_keeps {s : Service} {t t' : Tree} {v rel data : Bytes}
    (h : s.writeFile t v rel data = (.ok (), t')) {l : Loc} {n : Node} (hn : t.node l = some n)
    (hl : ¬ s.Writes t v rel l) : t'.node l = some n := by
  obtain ⟨r, hr, h⟩ := run_ok h
  obtain ⟨u, hu, h⟩ := Option.bind_eq_some_iff.mp h
  rw [Tree.writeFile_node h fun hw => hl ⟨r, u, hr, hu, hw⟩]
  exact Tree.mkdirAll_node hu (resolve_node hr hn)

theorem delete_keeps {s : Service} {t t' : Tree} {v rel : Bytes}
    (h : s.delete t v rel = (.ok (), t')) {l : Loc} {n : Node} (hn : t.node l = some n)
    (hl : ¬ s.Removes t v rel l) : t'.node l = some n := by
  obtain ⟨r, hr, h⟩ := run_ok h
  rw [Tree.removeAll_node h fun p hp hpl => hl ⟨r, p, hr, hp, hpl⟩]
  exact resolve_node hr hn

theorem rename_keeps {s : Service} {t t' : Tree} {v old new : Bytes}
    (h : s.rename t v old new = (.ok (), t')) {l : Loc} {n : Node} (hn : t.node l = some n)
    (hl : ¬ s.Moves t v old new l) : t'.node l = some n := by
  unfold rename at h
  split at h
  · cases h
  · rename_i o ho
    obtain ⟨r, hr, h⟩ := run_ok h
    obtain ⟨u, hu, h⟩ := Option.bind_eq_some_iff.mp h
    rw [Tree.rename_node h
      (fun p k hp hpl => hl ⟨o, r, u, ho, hr, hu, .inl ⟨p, k, hp, hpl⟩⟩)
      fun p hp hpl => hl ⟨o, r, u, ho, hr, hu, .inr ⟨p, hp, hpl⟩⟩]
    exact Tree.mkdirAll_node hu (resolve_node hr (resolve_node ho hn))

end Service

/-! ### A vault with two notes -/

def notes : Tree :=
  [([utf8 "srv"], .dir), ([utf8 "srv", utf8 "v"], .dir),
    ([utf8 "srv", utf8 "v", utf8 "a.md"], .file (utf8 "new")),
    ([utf8 "srv", utf8 "v", utf8 "b.md"], .file (utf8 "old"))].foldl Keyed.upsert Keyed.empty

def noteService : Service := ⟨[utf8 "srv"]⟩

def note (name : String) : Loc := [utf8 "srv", utf8 "v", utf8 name]

end Mdock.Vault
