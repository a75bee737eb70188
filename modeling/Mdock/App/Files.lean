import Mdock.Go.Url
import Mdock.Lib.Op
import Mdock.Locks.Service
import Mdock.Store.Slug
import Mdock.Vault.Service

/-! The operations of `app.Service` that change the files of a vault. They work on the tree
and the lock table; what the page index and the git queue keep is not part of the state. -/
namespace Mdock.App
open Mdock.Go Mdock.Lib Mdock.Vault Mdock.Locks Mdock.Store

structure World where
  tree : Tree
  locks : FileLocks

inductive Err
  | noVault | invalidFilePath | invalidCommitHash | binaryFile | git | queue
  | vault (e : Vault.Err)
  | lock (e : Locks.Err)
  deriving DecidableEq

/-- `vaultFor` is `VaultForUserBySlug`, `checkout` is `git checkout hash -- path` in a
repository, `queueOk` whether the git queue takes the change. -/
structure Service where
  vaultService : Vault.Service
  lockTTL : Int
  vaultFor : Int → Bytes → Option VaultRow
  checkout : Tree → Loc → Bytes → Bytes → Option Tree
  queueOk : Bool

def webSource : Bytes := utf8 "web"

def formatInt (n : Int) : Bytes :=
  if n = 0 then utf8 "0"
  else if n < 0 then utf8 "-" ++ decimal n.natAbs n.natAbs
  else decimal n.natAbs n.natAbs

def cleanFilePath (relPath : Bytes) (allowRoot : Bool) : Except Err Bytes :=
  match safeRelPath relPath with
  | .error _ => .error .invalidFilePath
  | .ok rel => if rel = dot ∧ allowRoot = false then .error .invalidFilePath else .ok rel

def liftLock {α : Type} (f : FileLocks → Except Locks.Err α × FileLocks) : Op Err World α :=
  fun w =>
    match f w.locks with
    | (.ok a, t) => (.ok a, { w with locks := t })
    | (.error e, t) => (.error (.lock e), { w with locks := t })

def liftVault (f : Tree → Except Vault.Err Unit × Tree) : Op Err World Unit := fun w =>
  match f w.tree with
  | (.ok (), t) => (.ok (), { w with tree := t })
  | (.error e, t) => (.error (.vault e), { w with tree := t })

namespace Service
variable (s : Service) (now : Nat → Instant) (userID : Int) (vaultSlug : Bytes)

def stat (item : VaultRow) (rel : Bytes) : Op Err World Info := fun w =>
  match s.vaultService.stat w.tree item.path rel with
  | .ok info => (.ok info, w)
  | .error e => (.error (.vault e), w)

/-- Whether `Stat` finds something. -/
def found (item : VaultRow) (rel : Bytes) (w : World) : Bool :=
  (s.vaultService.stat w.tree item.path rel).isOk

def fileMutationContext (relPath : Bytes) (allowRoot : Bool) : Except Err (VaultRow × Bytes) :=
  match s.vaultFor userID vaultSlug with
  | none => .error .noVault
  | some item => (cleanFilePath relPath allowRoot).map fun rel => (item, rel)

/-- The owner of a lock that nobody asked for by name. -/
def transientOwner (n : Instant) : Bytes := utf8 "web:transient:" ++ formatInt n

/-- Run `fn`, then the deferred release. -/
def releasing (item : VaultRow) (rel owner : Bytes) (release : Bool) (fn : Op Err World Unit) :
    Op Err World Unit := fun w =>
  let r := fn w
  (r.1, if release then { r.2 with locks := Locks.release r.2.locks item.id rel owner } else r.2)

/-- The owner of the mutation, and whether its lock is given back afterwards. -/
def mutationOwner (item : VaultRow) (rel owner : Bytes) : Op Err World (Bytes × Bool) :=
  if owner = [] then pure (transientOwner (now 0), true)
  else do
    let existing ← liftLock fun t => Locks.get t (now 1) item.id rel
    pure (owner, decide (existing.map Lock.owner ≠ some owner))

/-- The readings of the clock are `now 0` to `now 2`; `now 3` belongs to `ensureMoveUnlocked`. -/
def withFileMutationLock (item : VaultRow) (rel owner : Bytes) (fn : Op Err World Unit) :
    Op Err World Unit := do
  let (owner, release) ← mutationOwner now item rel owner
  let _ ← liftLock fun t => Locks.acquire t (now 2) item.id rel owner webSource s.lockTTL
  releasing item rel owner release fn

def enqueueVaultChange : Op Err World Unit := Op.require (s.queueOk = true) .queue

def writeTextFile (relPath content owner : Bytes) : Op Err World (VaultRow × Info) := do
  let (item, rel) ← Op.ofExcept (s.fileMutationContext userID vaultSlug relPath false)
  s.withFileMutationLock now item rel owner
    (liftVault fun t => s.vaultService.writeFile t item.path rel content)
  s.enqueueVaultChange
  let info ← s.stat item rel
  pure (item, info)

def createTextFile (relPath content owner : Bytes) : Op Err World (VaultRow × Info) := do
  let (item, rel) ← Op.ofExcept (s.fileMutationContext userID vaultSlug relPath false)
  let w ← Op.get
  Op.require (s.found item rel w = false) .invalidFilePath
  s.withFileMutationLock now item rel owner
    (liftVault fun t => s.vaultService.writeFile t item.path rel content)
  s.enqueueVaultChange
  let info ← s.stat item rel
  pure (item, info)

def createDir (relPath owner : Bytes) : Op Err World (VaultRow × Info) := do
  let (item, rel) ← Op.ofExcept (s.fileMutationContext userID vaultSlug relPath false)
  s.withFileMutationLock now item rel owner
    (liftVault fun t => s.vaultService.mkdir t item.path rel)
  s.enqueueVaultChange
  let info ← s.stat item rel
  pure (item, info)

def ensureMoveUnlocked (item : VaultRow) (rel : Bytes) (isDir : Bool) : Op Err World Unit :=
  if isDir then do
    let items ← liftLock fun t => Locks.activeUnder t (now 3) item.id rel
    Op.require (items = []) (.lock .locked)
  else do
    let existing ← liftLock fun t => Locks.get t (now 3) item.id rel
    Op.require (existing = none) (.lock .locked)

def movePath (fromPath toPath owner : Bytes) : Op Err World VaultRow := do
  let (item, src) ← Op.ofExcept (s.fileMutationContext userID vaultSlug fromPath false)
  let dst ← Op.ofExcept (cleanFilePath toPath false)
  let w ← Op.get
  Op.require (s.found item dst w = false) .invalidFilePath
  let info ← s.stat item src
  ensureMoveUnlocked now item src info.isDir
  s.withFileMutationLock now item src owner
    (liftVault fun t => s.vaultService.rename t item.path src dst)
  s.enqueueVaultChange
  pure item

def deletePath (relPath owner : Bytes) : Op Err World VaultRow := do
  let (item, rel) ← Op.ofExcept (s.fileMutationContext userID vaultSlug relPath false)
  s.withFileMutationLock now item rel owner
    (liftVault fun t => s.vaultService.delete t item.path rel)
  s.enqueueVaultChange
  pure item

def validCommitHash (hash : Bytes) : Prop :=
  7 ≤ hash.length ∧ hash.length ≤ 40 ∧ hash.all ishex = true

instance (hash : Bytes) : Decidable (validCommitHash hash) :=
  inferInstanceAs (Decidable (_ ∧ _ ∧ _))

/-- `Client.RestoreFile`; the service turns its `ErrInvalidHash` into its own error. -/
def restoreFile (root : Loc) (hash relPath : Bytes) : Op Err World Unit := do
  Op.require (validCommitHash hash) .invalidCommitHash
  Op.require (relPath ≠ [] ∧ relPath ≠ dot) .invalidCommitHash
  fun w =>
    match s.checkout w.tree root hash relPath with
    | none => (.error .git, w)
    | some t => (.ok (), { w with tree := t })

def ensureVault (item : VaultRow) : Op Err World Loc := fun w =>
  match s.vaultService.ensureVault w.tree item.path with
  | .error e => (.error (.vault e), w)
  | .ok (root, t) => (.ok root, { w with tree := t })

def restoreFileFromCommit (hash relPath owner : Bytes) : Op Err World (VaultRow × Info) := do
  let (item, rel) ← Op.ofExcept (s.fileMutationContext userID vaultSlug relPath false)
  let root ← s.ensureVault item
  s.withFileMutationLock now item rel owner (s.restoreFile root hash rel)
  s.enqueueVaultChange
  let info ← s.stat item rel
  pure (item, info)

end Service

/-! ### What a success tells -/

theorem liftLock_ok {α : Type} {f : FileLocks → Except Locks.Err α × FileLocks} {w w' : World}
    {a : α} : liftLock f w = (.ok a, w') ↔
      ∃ t, f w.locks = (.ok a, t) ∧ w' = { w with locks := t } := by
  unfold liftLock
  cases hf : f w.locks with
  | mk res t =>
    cases res with
    | error e => simp
    | ok b =>
      simp only [Prod.mk.injEq, Except.ok.injEq]
      constructor
      · rintro ⟨rfl, rfl⟩
        exact ⟨t, ⟨rfl, rfl⟩, rfl⟩
      · rintro ⟨_, ⟨rfl, rfl⟩, rfl⟩
        exact ⟨rfl, rfl⟩

theorem liftLock_of_ok {α : Type} {f : FileLocks → Except Locks.Err α × FileLocks} {w : World}
    {a : α} {t : FileLocks} (h : f w.locks = (.ok a, t)) :
    liftLock f w = (.ok a, { w with locks := t }) := liftLock_ok.mpr ⟨t, h, rfl⟩

theorem liftLock_of_error {α : Type} {f : FileLocks → Except Locks.Err α × FileLocks} {w : World}
    {e : Locks.Err} {t : FileLocks} (h : f w.locks = (.error e, t)) :
    liftLock f w = (.error (.lock e), { w with locks := t }) := by
  unfold liftLock
  rw [h]

theorem liftVault_ok {f : Tree → Except Vault.Err Unit × Tree} {w w' : World}
    (h : liftVault f w = (.ok (), w')) : f w.tree = (.ok (), w'.tree) := by
  unfold liftVault at h
  split at h
  · rename_i t hf
    cases h
    exact hf
  · cases h

theorem liftVault_locks (f : Tree → Except Vault.Err Unit × Tree) (w : World) :
    (liftVault f w).2.locks = w.locks := by
  unfold liftVault
  split <;> rfl

namespace Service
variable {s : Service} {now : Nat → Instant} {item : VaultRow} {rel owner : Bytes}

theorem stat_ok {w w' : World} {info : Info} (h : s.stat item rel w = (.ok info, w')) :
    s.vaultService.stat w.tree item.path rel = .ok info ∧ w' = w := by
  unfold stat at h
  split at h
  · rename_i i hi
    cases h
    exact ⟨hi, rfl⟩
  · cases h

theorem releasing_ok {release : Bool} {fn : Op Err World Unit} {w w' : World}
    (h : releasing item rel owner release fn w = (.ok (), w')) :
    ∃ u, fn w = (.ok (), u) ∧ w'.tree = u.tree ∧
      w'.locks = if release then Locks.release u.locks item.id rel owner else u.locks := by
  simp only [releasing, Prod.mk.injEq] at h
  obtain ⟨hres, rfl⟩ := h
  refine ⟨(fn w).2, Prod.ext hres rfl, ?_⟩
  cases release <;> exact ⟨rfl, rfl⟩

/-- The owner a mutation works for. -/
def effectiveOwner (now : Nat → Instant) (owner : Bytes) : Bytes :=
  if owner = [] then transientOwner (now 0) else owner

/-- The times at which the lock service cleans up before the mutation. -/
def lockReadings (now : Nat → Instant) (owner : Bytes) : List Instant :=
  if owner = [] then [now 2] else [now 1, now 2]

/-- The mutation ran, and no lock of another owner on its own path was in force. -/
theorem withFileMutationLock_ok {fn : Op Err World Unit} {w w' : World}
    (h : s.withFileMutationLock now item rel owner fn w = (.ok (), w')) :
    (∀ r ∈ w.locks.rows, r.key = (item.id, rel) → (∀ n ∈ lockReadings now owner, InForce r n) →
      r.owner = effectiveOwner now owner) ∧
    ∃ locks u, fn ⟨w.tree, locks⟩ = (.ok (), u) ∧ w'.tree = u.tree := by
  obtain ⟨⟨o, release⟩, w₁, ho, h⟩ := Op.bind_ok.mp h
  obtain ⟨l, w₂, hlift, h⟩ := Op.bind_ok.mp h
  obtain ⟨t, hacq, rfl⟩ := liftLock_ok.mp hlift
  obtain ⟨u, hfn, hu, -⟩ := releasing_ok h
  unfold mutationOwner at ho
  by_cases hnil : owner = []
  · rw [if_pos hnil] at ho
    obtain ⟨he, rfl⟩ := Op.pure_ok.mp ho
    cases he
    refine ⟨fun r hr hk hf => ?_, t, u, hfn, hu⟩
    rw [effectiveOwner, if_pos hnil]
    exact acquire_owner hacq hr hk (hf (now 2) (by simp [lockReadings, hnil]))
  · rw [if_neg hnil] at ho
    obtain ⟨existing, w₃, hlift', ho⟩ := Op.bind_ok.mp ho
    obtain ⟨t', hget, rfl⟩ := liftLock_ok.mp hlift'
    obtain ⟨he, rfl⟩ := Op.pure_ok.mp ho
    cases he
    refine ⟨fun r hr hk hf => ?_, t, u, hfn, hu⟩
    have ht' : t' = cleanupExpired w.locks (now 1) := by
      rw [← get_table w.locks (now 1) item.id rel, hget]
    have hr' := mem_cleanupExpired hr (hf (now 1) (by simp [lockReadings, hnil]))
    rw [← ht'] at hr'
    rw [effectiveOwner, if_neg hnil]
    exact acquire_owner hacq hr' hk (hf (now 2) (by simp [lockReadings, hnil]))

theorem enqueueVaultChange_ok {w w' : World} (h : s.enqueueVaultChange w = (.ok (), w')) :
    w' = w := (Op.require_ok.mp h).2

/-- What every operation that ends with a queued change and a `Stat` has in common. -/
theorem writing_ok {fn : Op Err World Unit} {w w' : World} {a : VaultRow × Info}
    (h : (do
      s.withFileMutationLock now item rel owner fn
      s.enqueueVaultChange
      let info ← s.stat item rel
      pure (item, info) : Op Err World (VaultRow × Info)) w = (.ok a, w')) :
    a.1 = item ∧ s.withFileMutationLock now item rel owner fn w = (.ok (), w') := by
  obtain ⟨⟨⟩, w₁, hfn, h⟩ := Op.bind_ok.mp h
  obtain ⟨⟨⟩, w₂, hq, h⟩ := Op.bind_ok.mp h
  obtain ⟨info, w₃, hs, h⟩ := Op.bind_ok.mp h
  obtain ⟨rfl, hw⟩ := Op.pure_ok.mp h
  rw [← hw, (stat_ok hs).2, enqueueVaultChange_ok hq]
  exact ⟨rfl, hfn⟩

section Operations
variable {userID : Int} {vaultSlug relPath : Bytes} {w w' : World}

theorem writeTextFile_ok {content : Bytes} {a : VaultRow × Info}
    (h : s.writeTextFile now userID vaultSlug relPath content owner w = (.ok a, w')) :
    ∃ item rel, s.fileMutationContext userID vaultSlug relPath false = .ok (item, rel) ∧
      s.withFileMutationLock now item rel owner
        (liftVault fun t => s.vaultService.writeFile t item.path rel content) w = (.ok (), w') := by
  obtain ⟨⟨item, rel⟩, w₁, hlift, h₁⟩ := Op.bind_ok.mp h
  obtain ⟨hc, rfl⟩ := Op.ofExcept_ok.mp hlift
  exact ⟨item, rel, hc, (writing_ok h₁).2⟩

theorem createTextFile_ok {content : Bytes} {a : VaultRow × Info}
    (h : s.createTextFile now userID vaultSlug relPath content owner w = (.ok a, w')) :
    ∃ item rel, s.fileMutationContext userID vaultSlug relPath false = .ok (item, rel) ∧
      s.withFileMutationLock now item rel owner
        (liftVault fun t => s.vaultService.writeFile t item.path rel content) w = (.ok (), w') := by
  obtain ⟨⟨item, rel⟩, w₁, hlift, h₁⟩ := Op.bind_ok.mp h
  obtain ⟨hc, rfl⟩ := Op.ofExcept_ok.mp hlift
  obtain ⟨v, w₂, hget, h₂⟩ := Op.bind_ok.mp h₁
  obtain ⟨-, rfl⟩ := Op.get_ok.mp hget
  obtain ⟨⟨⟩, w₃, hreq, h₃⟩ := Op.bind_ok.mp h₂
  obtain ⟨-, rfl⟩ := Op.require_ok.mp hreq
  exact ⟨item, rel, hc, (writing_ok h₃).2⟩

theorem deletePath_ok {a : VaultRow}
    (h : s.deletePath now userID vaultSlug relPath owner w = (.ok a, w')) :
    ∃ item rel, s.fileMutationContext userID vaultSlug relPath false = .ok (item, rel) ∧
      s.withFileMutationLock now item rel owner
        (liftVault fun t => s.vaultService.delete t item.path rel) w = (.ok (), w') := by
  obtain ⟨⟨item, rel⟩, w₁, hlift, h₁⟩ := Op.bind_ok.mp h
  obtain ⟨hc, rfl⟩ := Op.ofExcept_ok.mp hlift
  obtain ⟨⟨⟩, w₂, hfn, h₂⟩ := Op.bind_ok.mp h₁
  obtain ⟨⟨⟩, w₃, hq, h₃⟩ := Op.bind_ok.mp h₂
  obtain ⟨-, rfl⟩ := Op.pure_ok.mp h₃
  obtain rfl := enqueueVaultChange_ok hq
  exact ⟨item, rel, hc, hfn⟩

theorem movePath_ok {toPath : Bytes} {a : VaultRow}
    (h : s.movePath now userID vaultSlug relPath toPath owner w = (.ok a, w')) :
    ∃ item src dst info u, s.fileMutationContext userID vaultSlug relPath false = .ok (item, src) ∧
      cleanFilePath toPath false = .ok dst ∧
      s.vaultService.stat w.tree item.path src = .ok info ∧
      ensureMoveUnlocked now item src info.isDir w = (.ok (), u) ∧
      s.withFileMutationLock now item src owner
        (liftVault fun t => s.vaultService.rename t item.path src dst) u = (.ok (), w') := by
  obtain ⟨⟨item, src⟩, w₁, hlift, h₁⟩ := Op.bind_ok.mp h
  obtain ⟨hc, rfl⟩ := Op.ofExcept_ok.mp hlift
  obtain ⟨dst, w₂, hlift', h₂⟩ := Op.bind_ok.mp h₁
  obtain ⟨hdst, rfl⟩ := Op.ofExcept_ok.mp hlift'
  obtain ⟨v, w₃, hget, h₃⟩ := Op.bind_ok.mp h₂
  obtain ⟨-, rfl⟩ := Op.get_ok.mp hget
  obtain ⟨⟨⟩, w₄, hreq, h₄⟩ := Op.bind_ok.mp h₃
  obtain ⟨-, rfl⟩ := Op.require_ok.mp hreq
  obtain ⟨info, w₅, hst, h₅⟩ := Op.bind_ok.mp h₄
  obtain ⟨hinfo, rfl⟩ := stat_ok hst
  obtain ⟨⟨⟩, u, hun, h₆⟩ := Op.bind_ok.mp h₅
  obtain ⟨⟨⟩, w₇, hfn, h₇⟩ := Op.bind_ok.mp h₆
  obtain ⟨⟨⟩, w₈, hq, h₈⟩ := Op.bind_ok.mp h₇
  obtain ⟨-, rfl⟩ := Op.pure_ok.mp h₈
  obtain rfl := enqueueVaultChange_ok hq
  exact ⟨item, src, dst, info, u, hc, hdst, hinfo, hun, hfn⟩

theorem restoreFileFromCommit_ok {hash : Bytes} {a : VaultRow × Info}
    (h : s.restoreFileFromCommit now userID vaultSlug hash relPath owner w = (.ok a, w')) :
    ∃ rel root u, s.fileMutationContext userID vaultSlug relPath false = .ok (a.1, rel) ∧
      s.ensureVault a.1 w = (.ok root, u) ∧
      s.withFileMutationLock now a.1 rel owner (s.restoreFile root hash rel) u = (.ok (), w') := by
  obtain ⟨⟨item, rel⟩, w₁, hlift, h₁⟩ := Op.bind_ok.mp h
  obtain ⟨hc, rfl⟩ := Op.ofExcept_ok.mp hlift
  obtain ⟨root, u, hens, h₂⟩ := Op.bind_ok.mp h₁
  obtain ⟨rfl, hlock⟩ := writing_ok h₂
  exact ⟨rel, root, u, hc, hens, hlock⟩

end Operations

end Service
end Mdock.App
