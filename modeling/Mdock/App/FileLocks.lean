import Mdock.App.Files

/-! The operations of `app.Service` an editor calls: reading a file, and its lock. -/
namespace Mdock.App
open Mdock.Go Mdock.Lib Mdock.Vault Mdock.Locks Mdock.Store
namespace Service
variable (s : Service) (now : Nat → Instant) (userID : Int) (vaultSlug : Bytes)

def readFile (item : VaultRow) (rel : Bytes) : Op Err World Bytes := fun w =>
  match s.vaultService.readFile w.tree item.path rel with
  | .ok data => (.ok data, w)
  | .error e => (.error (.vault e), w)

def readTextFile (relPath : Bytes) : Op Err World (VaultRow × Info × Bytes) := do
  let (item, rel) ← Op.ofExcept (s.fileMutationContext userID vaultSlug relPath false)
  let info ← s.stat item rel
  Op.require (info.isDir = false) .invalidFilePath
  let data ← s.readFile item rel
  Op.require (ByteArray.validateUTF8 ⟨data.toArray⟩ = true) .binaryFile
  pure (item, info, data)

def acquireFileLock (relPath owner : Bytes) : Op Err World Lock := do
  let (item, rel) ← Op.ofExcept (s.fileMutationContext userID vaultSlug relPath false)
  liftLock fun t => acquire t (now 0) item.id rel owner webSource s.lockTTL

def heartbeatFileLock (relPath owner : Bytes) : Op Err World Unit := do
  let (item, rel) ← Op.ofExcept (s.fileMutationContext userID vaultSlug relPath false)
  liftLock fun t => heartbeat t (now 0) item.id rel owner s.lockTTL

def releaseFileLock (relPath owner : Bytes) : Op Err World Unit := do
  let (item, rel) ← Op.ofExcept (s.fileMutationContext userID vaultSlug relPath false)
  liftLock fun t => (.ok (), release t item.id rel owner)

/-! ### Who has the lock after a write -/

variable {s now userID vaultSlug} {item : VaultRow} {rel owner : Bytes} {w w' : World}

/-- The owner of the row of a file, whether its time has come or not. -/
def holder (t : FileLocks) (k : Int × Bytes) : Option Bytes := (t.get? k).map Row.owner

theorem holder_acquire {t t' : FileLocks} {n : Instant} {source : Bytes} {ttl : Int} {l : Lock}
    (h : acquire t n item.id rel owner source ttl = (.ok l, t')) :
    holder t' (item.id, rel) = some owner := by
  rw [(acquire_ok h).2.2.1, holder]
  exact congrArg (Option.map Row.owner) (Keyed.get?_upsert_self _ _)

theorem holder_release (t : FileLocks) (h : holder t (item.id, rel) = some owner) :
    holder (Locks.release t item.id rel owner) (item.id, rel) = none := by
  cases hget : (Locks.release t item.id rel owner).get? (item.id, rel) with
  | none => rw [holder, hget]; rfl
  | some r =>
    obtain ⟨hr, hno⟩ := get?_release_some.mp hget
    rw [holder, hr] at h
    exact absurd ⟨rfl, Option.some.inj h⟩ hno

/-- A mutation under a lock of its own leaves that lock, or none. -/
theorem withFileMutationLock_holder {f : Tree → Except Vault.Err Unit × Tree}
    (howner : owner ≠ [])
    (h : s.withFileMutationLock now item rel owner (liftVault f) w = (.ok (), w')) :
    holder w'.locks (item.id, rel) = some owner ∨ holder w'.locks (item.id, rel) = none := by
  obtain ⟨⟨o, release⟩, w₁, ho, h₁⟩ := Op.bind_ok.mp h
  obtain ⟨l, w₂, hlift, h₂⟩ := Op.bind_ok.mp h₁
  obtain ⟨t, hacq, rfl⟩ := liftLock_ok.mp hlift
  obtain ⟨u, hfn, -, hlocks⟩ := releasing_ok h₂
  have hu : (liftVault f ⟨w₁.tree, t⟩).2.locks = t := liftVault_locks f _
  rw [hfn] at hu
  obtain rfl : o = owner := by
    unfold mutationOwner at ho
    rw [if_neg howner] at ho
    obtain ⟨existing, w₄, -, ho⟩ := Op.bind_ok.mp ho
    exact (congrArg Prod.fst (Op.pure_ok.mp ho).1).symm
  have hheld := holder_acquire hacq
  rw [hlocks, hu]
  cases release with
  | false => exact .inl hheld
  | true => exact .inr (holder_release t hheld)

/-- A text that was written met no lock in force but the owner's. -/
theorem writeTextFile_holder {relPath content : Bytes} {a : VaultRow × Info}
    (hfile : s.fileMutationContext userID vaultSlug relPath false = .ok (item, rel))
    (howner : owner ≠ [])
    (h : s.writeTextFile now userID vaultSlug relPath content owner w = (.ok a, w')) :
    (∀ r ∈ w.locks.rows, r.key = (item.id, rel) → InForce r (now 1) → InForce r (now 2) →
      r.owner = owner) ∧
    (holder w'.locks (item.id, rel) = some owner ∨ holder w'.locks (item.id, rel) = none) := by
  obtain ⟨item', rel', hc, hlock⟩ := writeTextFile_ok h
  rw [hfile] at hc
  cases hc
  refine ⟨fun r hr hk h1 h2 => ?_, withFileMutationLock_holder howner hlock⟩
  have hfree := (withFileMutationLock_ok hlock).1 r hr hk
  rw [effectiveOwner, if_neg howner, lockReadings, if_neg howner] at hfree
  refine hfree fun n hn => ?_
  rcases List.mem_cons.mp hn with rfl | hn
  · exact h1
  · rw [List.mem_singleton.mp hn]
    exact h2

end Service
end Mdock.App
