import Mdock.App.FileLocks
import Mdock.Vault.Apart

/-! The operations on the files of one vault, as calls on its shelf. One that fails has made the
first of its calls, or none. -/
namespace Mdock.App
open Mdock.Go Mdock.Lib Mdock.Vault Mdock.Locks Mdock.Store

/-- The vault at `r` holds what is on the shelf, and the tree is elsewhere what it was. -/
def Holding (t : Tree) (r : Loc) (w : World) (F : Shelf) : Prop := Left t r w.tree F

/-- What an operation does to the shelf of the vault at `r`. -/
abbrev Works {α : Type} (t : Tree) (r : Loc) (calls : List Call) (op : Op Err World α) : Prop :=
  Carries (Holding t r) Shelf.Does Op.Ends calls op

/-- The calls on a path, once it is cleaned. -/
def atPath (relPath : Bytes) (calls : Bytes → List Call) : List Call :=
  (cleanFilePath relPath false).toOption.elim [] calls

section Lifts
variable {t : Tree} {r : Loc} {α : Type} {calls : List Call}

/-- What leaves the tree alone. -/
theorem works_of_tree {op : Op Err World α} (h : ∀ w, (op w).2.tree = w.tree) :
    Works t r [] op := .idle fun w F hw => by
  rw [Holding, h]
  exact hw

theorem liftLock_works (f : FileLocks → Except Locks.Err α × FileLocks) :
    Works t r [] (liftLock f) := works_of_tree fun w => by
  unfold liftLock
  split <;> rfl

theorem liftVault_works {g : Tree → Except Vault.Err Unit × Tree}
    (hg : Carries (Left t r) Shelf.Does (fun x => x = .ok ()) calls g) :
    Works t r calls (liftVault g) := by
  intro w F hw
  have h := hg w.tree F hw
  rcases hx : g w.tree with ⟨e | ⟨⟩, u⟩
  · rw [hx] at h
    simp only [liftVault, hx]
    exact h.answer (fun _ hb => hb) fun hend => absurd hend (Op.not_ends _)
  · rw [hx] at h
    simp only [liftVault, hx]
    exact h.answer (fun _ hb => hb) fun _ => rfl

end Lifts

namespace Service
section Ops
variable {s : Service} {now : Nat → Instant} {userID : Int} {vaultSlug : Bytes} {item : VaultRow}
  {t : Tree} {r : Loc} {fn : Op Err World Unit} {calls : List Call}

theorem releasing_works (rel owner : Bytes) (release : Bool) (hfn : Works t r calls fn) :
    Works t r calls (releasing item rel owner release fn) := fun w F hw =>
  (hfn w F hw).answer (fun _ hb => by cases release <;> exact hb) id

theorem withFileMutationLock_works (rel owner : Bytes) (hfn : Works t r calls fn) :
    Works t r calls (s.withFileMutationLock now item rel owner fn) := by
  have howner : Works t r [] (mutationOwner now item rel owner) := by
    unfold mutationOwner
    split
    · exact .pure _
    · exact (liftLock_works _).then_idle fun _ => .pure _
  exact howner.after_idle fun _ => (liftLock_works _).after_idle fun _ => releasing_works _ _ _ hfn

theorem atPath_of_ok {relPath rel : Bytes} (h : cleanFilePath relPath false = .ok rel)
    (calls : Bytes → List Call) : atPath relPath calls = calls rel := by
  rw [atPath, h]
  rfl

/-- What an operation does once it knows its vault and its path. -/
theorem context_works {α : Type} {relPath : Bytes} {f : VaultRow × Bytes → Op Err World α}
    {calls : Bytes → List Call} (hv : ∀ item, s.vaultFor userID vaultSlug = some item →
      s.vaultService.vaultRoot item.path = .ok r)
    (hf : ∀ item rel, s.vaultService.vaultRoot item.path = .ok r →
      Works t r (calls rel) (f (item, rel))) :
    Works t r (atPath relPath calls)
      (Op.ofExcept (s.fileMutationContext userID vaultSlug relPath false) >>= f) := by
  refine Carries.ofExcept fun v hc => ?_
  unfold fileMutationContext at hc
  split at hc
  · cases hc
  · rename_i item hitem
    cases hrel : cleanFilePath relPath false with
    | error e =>
      rw [hrel] at hc
      cases hc
    | ok rel =>
      rw [hrel] at hc
      cases hc
      rw [atPath_of_ok hrel]
      exact hf item rel (hv item hitem)

theorem stat_works (rel : Bytes) : Works t r [] (s.stat item rel) := works_of_tree fun w => by
  unfold stat
  split <;> rfl

theorem readFile_works (rel : Bytes) : Works t r [] (s.readFile item rel) :=
  works_of_tree fun w => by
    unfold readFile
    split <;> rfl

/-- How the operations that write end. -/
theorem tail_works (rel : Bytes) : Works t r []
    (s.enqueueVaultChange >>= fun _ => s.stat item rel >>= fun info => pure (item, info)) :=
  (Carries.require _ _).after_idle fun _ => (stat_works rel).after_idle fun _ => .pure _

/-- A path must still be free. -/
theorem free_works {α : Type} (rel : Bytes) {f : Unit → Op Err World α}
    (hf : ∀ a, Works t r calls (f a)) : Works t r calls
      (Op.get >>= fun w => Op.require (s.found item rel w = false) .invalidFilePath >>= f) :=
  fun w F h => (Carries.require _ _).after_idle hf w F h

theorem readTextFile_works (relPath : Bytes) :
    Works t r [] (s.readTextFile userID vaultSlug relPath) :=
  Carries.ofExcept fun v _ => (stat_works v.2).after_idle fun _ =>
    (Carries.require _ _).after_idle fun _ => (readFile_works v.2).after_idle fun _ =>
      (Carries.require _ _).after_idle fun _ => .pure _

theorem acquireFileLock_works (relPath owner : Bytes) :
    Works t r [] (s.acquireFileLock now userID vaultSlug relPath owner) :=
  Carries.ofExcept fun _ _ => liftLock_works _

theorem heartbeatFileLock_works (relPath owner : Bytes) :
    Works t r [] (s.heartbeatFileLock now userID vaultSlug relPath owner) :=
  Carries.ofExcept fun _ _ => liftLock_works _

theorem releaseFileLock_works (relPath owner : Bytes) :
    Works t r [] (s.releaseFileLock userID vaultSlug relPath owner) :=
  Carries.ofExcept fun _ _ => liftLock_works _

section Calls
variable (hv : ∀ item, s.vaultFor userID vaultSlug = some item →
    s.vaultService.vaultRoot item.path = .ok r) (hr : ∀ a ∈ r, Plain a)
include hv hr

theorem writeTextFile_works (relPath content owner : Bytes) :
    Works t r (atPath relPath fun rel => [.writeFile rel content])
      (s.writeTextFile now userID vaultSlug relPath content owner) :=
  context_works hv fun _ rel hi => (withFileMutationLock_works rel owner
    (liftVault_works ((writeFile_performs _ _ rel content).carries hi hr))).then_idle
      fun _ => tail_works rel

theorem createTextFile_works (relPath content owner : Bytes) :
    Works t r (atPath relPath fun rel => [.writeFile rel content])
      (s.createTextFile now userID vaultSlug relPath content owner) :=
  context_works hv fun _ rel hi => free_works rel fun _ => (withFileMutationLock_works rel owner
    (liftVault_works ((writeFile_performs _ _ rel content).carries hi hr))).then_idle
      fun _ => tail_works rel

theorem createDir_works (relPath owner : Bytes) :
    Works t r (atPath relPath fun rel => [.mkdir rel])
      (s.createDir now userID vaultSlug relPath owner) :=
  context_works hv fun _ rel hi => (withFileMutationLock_works rel owner
    (liftVault_works ((mkdir_performs _ _ rel).carries hi hr))).then_idle fun _ => tail_works rel

theorem deletePath_works (relPath owner : Bytes) :
    Works t r (atPath relPath fun rel => [.delete rel])
      (s.deletePath now userID vaultSlug relPath owner) :=
  context_works hv fun _ rel hi => (withFileMutationLock_works rel owner
    (liftVault_works ((delete_performs _ _ rel).carries hi hr))).then_idle
      fun _ => (Carries.require _ _).then_idle fun _ => .pure _

omit hv hr in
theorem ensureMoveUnlocked_works (rel : Bytes) (isDir : Bool) :
    Works t r [] (ensureMoveUnlocked now item rel isDir) := by
  unfold ensureMoveUnlocked
  split
  · exact (liftLock_works _).after_idle fun _ => .require _ _
  · exact (liftLock_works _).after_idle fun _ => .require _ _

theorem movePath_works (fromPath toPath owner : Bytes) :
    Works t r (atPath fromPath fun src => atPath toPath fun dst => [.rename src dst])
      (s.movePath now userID vaultSlug fromPath toPath owner) :=
  context_works hv fun _ src hi => Carries.ofExcept fun dst hdst => by
    rw [atPath_of_ok hdst]
    exact free_works dst fun _ => (stat_works src).after_idle fun info =>
      (ensureMoveUnlocked_works src info.isDir).after_idle fun _ =>
        (withFileMutationLock_works src owner
          (liftVault_works ((rename_performs _ _ src dst).carries hi hr))).then_idle
            fun _ => (Carries.require _ _).then_idle fun _ => .pure _

end Calls
end Ops
end Service
end Mdock.App
