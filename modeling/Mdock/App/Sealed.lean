import Mdock.App.FileLocks
import Mdock.Lib.Lockstep
import Mdock.Vault.Apart

/-! The operations on the files of one vault, run in two worlds whose other files differ. They
cannot tell the worlds apart, and touch nothing but the vault. -/
namespace Mdock.Vault
open Mdock.Go Mdock.Lib
variable {s : Service} {t t' u u' : Tree} {r : Loc} {v rel : Bytes} {F : Shelf}

/-- What has come of the two trees has the same shelf at `r`, and is as it was elsewhere. -/
def Alike (t t' : Tree) (r : Loc) (u u' : Tree) : Prop := ∃ F, Left t r u F ∧ Left t' r u' F

section Calls
variable (hv : s.vaultRoot v = .ok r) (hr : ∀ a ∈ r, Plain a)
include hv hr

theorem answer_alike (c : Call) (h : Alike t t' r u u') : c.answer s u v = c.answer s u' v := by
  obtain ⟨F, hu, hu'⟩ := h
  exact (serve_shelf hv hr hu.here c).1.trans (serve_shelf hv hr hu'.here c).1.symm

theorem stat_alike (rel : Bytes) (h : Alike t t' r u u') : s.stat u v rel = s.stat u' v rel :=
  Answer.info.inj (answer_alike hv hr (.stat rel) h)

theorem readFile_alike (rel : Bytes) (h : Alike t t' r u u') :
    s.readFile u v rel = s.readFile u' v rel :=
  Answer.content.inj (answer_alike hv hr (.readFile rel) h)

theorem list_alike (rel : Bytes) (h : Alike t t' r u u') : s.list u v rel = s.list u' v rel :=
  Answer.entries.inj (answer_alike hv hr (.list rel) h)

/-- A method that changes files. -/
theorem Service.Performs.alike {c : Call} {g : Tree → Except Err Unit × Tree}
    (hg : s.Performs v c g) : Lockstep (Alike t t' r) g g := by
  rintro u u' ⟨F, hu, hu'⟩
  have hsame : (g u).1 = (g u').1 := Answer.done.inj
    ((hg.answer u).symm.trans ((answer_alike hv hr c ⟨F, hu, hu'⟩).trans (hg.answer u')))
  refine ⟨hsame, ?_⟩
  rcases hgu : g u with ⟨e | ⟨⟩, w⟩
  · rw [hgu] at hsame
    have hgu' : g u' = (.error e, (g u').2) := Prod.ext hsame.symm rfl
    rw [hg.fail hgu, hg.fail hgu']
    exact ⟨F, hu, hu'⟩
  · have hok : (g u).1 = .ok () := congrArg Prod.fst hgu
    have hw : w = (g u).2 := (congrArg Prod.snd hgu).symm
    exact ⟨(F.serve c).2, hw ▸ (hg.serve_ok hv hr hu hok).2,
      (hg.serve_ok hv hr hu' (hsame.symm.trans hok)).2⟩

theorem ensureVault_alike (h : Alike t t' r u u') : ∃ w w', s.ensureVault u v = .ok (r, w) ∧
    s.ensureVault u' v = .ok (r, w') ∧ Alike t t' r w w' := by
  obtain ⟨F, hu, hu'⟩ := h
  obtain ⟨w, hw, hleft, -⟩ := hu.here.dir_of_makes hr
  obtain ⟨w', hw', hleft', -⟩ := hu'.here.dir_of_makes hr
  refine ⟨w, w', ?_, ?_, F, hu.trans hleft, hu'.trans hleft'⟩
  · simp only [Service.ensureVault, hv, hw]
  · simp only [Service.ensureVault, hv, hw']

end Calls
end Mdock.Vault

namespace Mdock.App
open Mdock.Go Mdock.Lib Mdock.Vault Mdock.Locks Mdock.Store

/-- Worlds with the same locks and the same files in one vault. -/
structure Twin (t t' : Tree) (r : Loc) (w w' : World) : Prop where
  locks : w.locks = w'.locks
  files : Alike t t' r w.tree w'.tree

/-- `git checkout` in the repository of a vault sees, and changes, that vault alone, and leaves
no links there. -/
def CheckoutStays (checkout : Tree → Loc → Bytes → Bytes → Option Tree) : Prop :=
  ∀ {t t' u u' : Tree} {r : Loc} (hash rel : Bytes), Alike t t' r u u' →
    Option.Rel (Alike t t' r) (checkout u r hash rel) (checkout u' r hash rel)

section Lifts
variable {t t' : Tree} {r : Loc} {α : Type}

theorem liftLock_twin (f : FileLocks → Except Locks.Err α × FileLocks) :
    Lockstep (Twin t t' r) (liftLock f) (liftLock f) := by
  rintro w w' ⟨hlocks, hfiles⟩
  rcases hf : f w.locks with ⟨e | a, locks⟩
  · have hf' : f w'.locks = (.error e, locks) := hlocks ▸ hf
    simp only [liftLock, hf, hf', true_and]
    exact ⟨rfl, hfiles⟩
  · have hf' : f w'.locks = (.ok a, locks) := hlocks ▸ hf
    simp only [liftLock, hf, hf', true_and]
    exact ⟨rfl, hfiles⟩

theorem liftVault_twin {f : Tree → Except Vault.Err Unit × Tree}
    (hf : Lockstep (Alike t t' r) f f) : Lockstep (Twin t t' r) (liftVault f) (liftVault f) := by
  rintro w w' ⟨hlocks, hfiles⟩
  obtain ⟨hres, halike⟩ := hf w.tree w'.tree hfiles
  rcases hw : f w.tree with ⟨e | ⟨⟩, u⟩ <;> rcases hw' : f w'.tree with ⟨e' | ⟨⟩, u'⟩ <;>
    rw [hw, hw'] at hres halike <;> cases hres
  · simp only [liftVault, hw, hw', true_and]
    exact ⟨hlocks, halike⟩
  · simp only [liftVault, hw, hw', true_and]
    exact ⟨hlocks, halike⟩

end Lifts

namespace Service
section Ops
variable {s : Service} {now : Nat → Instant} {userID : Int} {vaultSlug : Bytes} {item : VaultRow}
  {t t' : Tree} {r : Loc} {fn : Op Err World Unit}

theorem releasing_twin (rel owner : Bytes) (release : Bool)
    (hfn : Lockstep (Twin t t' r) fn fn) :
    Lockstep (Twin t t' r) (releasing item rel owner release fn)
      (releasing item rel owner release fn) := by
  intro w w' h
  obtain ⟨hres, hlocks, hfiles⟩ := hfn w w' h
  refine ⟨hres, ?_⟩
  unfold releasing
  cases release with
  | true => exact ⟨congrArg (fun l => Locks.release l item.id rel owner) hlocks, hfiles⟩
  | false => exact ⟨hlocks, hfiles⟩

theorem withFileMutationLock_twin (rel owner : Bytes) (hfn : Lockstep (Twin t t' r) fn fn) :
    Lockstep (Twin t t' r) (s.withFileMutationLock now item rel owner fn)
      (s.withFileMutationLock now item rel owner fn) := by
  have howner : Lockstep (Twin t t' r) (mutationOwner now item rel owner)
      (mutationOwner now item rel owner) := by
    unfold mutationOwner
    split
    · exact .pure _
    · exact (liftLock_twin _).bind fun _ => .pure _
  exact howner.bind fun _ => (liftLock_twin _).bind fun _ => releasing_twin _ _ _ hfn

/-- What an operation does once it knows its vault and its path. -/
theorem context_twin {α : Type} {relPath : Bytes} {allowRoot : Bool}
    (hv : ∀ item, s.vaultFor userID vaultSlug = some item →
      s.vaultService.vaultRoot item.path = .ok r) {f : VaultRow × Bytes → Op Err World α}
    (hf : ∀ item rel, s.vaultService.vaultRoot item.path = .ok r →
      Lockstep (Twin t t' r) (f (item, rel)) (f (item, rel))) :
    Lockstep (Twin t t' r)
      (Op.ofExcept (s.fileMutationContext userID vaultSlug relPath allowRoot) >>= f)
      (Op.ofExcept (s.fileMutationContext userID vaultSlug relPath allowRoot) >>= f) := by
  unfold fileMutationContext
  cases hvault : s.vaultFor userID vaultSlug with
  | none => exact fun w w' h => ⟨rfl, h⟩
  | some item =>
    cases cleanFilePath relPath allowRoot with
    | error e => exact fun w w' h => ⟨rfl, h⟩
    | ok rel => exact fun w w' h => hf item rel (hv item hvault) w w' h

section Vault
variable (hv : s.vaultService.vaultRoot item.path = .ok r) (hr : ∀ a ∈ r, Plain a)
include hv hr

theorem stat_twin (rel : Bytes) : Lockstep (Twin t t' r) (s.stat item rel) (s.stat item rel) := by
  intro w w' h
  unfold stat
  rw [stat_alike hv hr rel h.files]
  cases s.vaultService.stat w'.tree item.path rel with
  | ok info => exact ⟨rfl, h⟩
  | error e => exact ⟨rfl, h⟩

theorem readFile_twin (rel : Bytes) :
    Lockstep (Twin t t' r) (s.readFile item rel) (s.readFile item rel) := by
  intro w w' h
  unfold readFile
  rw [readFile_alike hv hr rel h.files]
  cases s.vaultService.readFile w'.tree item.path rel with
  | ok data => exact ⟨rfl, h⟩
  | error e => exact ⟨rfl, h⟩

theorem found_twin {w w' : World} (rel : Bytes) (h : Twin t t' r w w') :
    s.found item rel w = s.found item rel w' := by
  rw [found, found, stat_alike hv hr rel h.files]

/-- A path must still be free. -/
theorem free_twin {α : Type} (rel : Bytes) {f : Unit → Op Err World α}
    (hf : ∀ a, Lockstep (Twin t t' r) (f a) (f a)) : Lockstep (Twin t t' r)
      (Op.get >>= fun w => Op.require (s.found item rel w = false) .invalidFilePath >>= f)
      (Op.get >>= fun w => Op.require (s.found item rel w = false) .invalidFilePath >>= f) :=
  .get fun w w' h => (Lockstep.require (by rw [found_twin hv hr rel h]) _).bind hf

/-- How the operations that write end. -/
theorem tail_twin (rel : Bytes) : Lockstep (Twin t t' r)
    (s.enqueueVaultChange >>= fun _ => s.stat item rel >>= fun info => pure (item, info))
    (s.enqueueVaultChange >>= fun _ => s.stat item rel >>= fun info => pure (item, info)) :=
  (Lockstep.require Iff.rfl _).bind fun _ => (stat_twin hv hr rel).bind fun _ => .pure _

omit hv hr in
theorem restoreFile_twin (hgit : CheckoutStays s.checkout) (hash rel : Bytes) :
    Lockstep (Twin t t' r) (s.restoreFile r hash rel) (s.restoreFile r hash rel) := by
  refine (Lockstep.require Iff.rfl _).bind fun _ => (Lockstep.require Iff.rfl _).bind fun _ => ?_
  intro w w' h
  have hrel := hgit hash rel h.files
  dsimp only
  generalize s.checkout w.tree r hash rel = o at hrel
  generalize s.checkout w'.tree r hash rel = o' at hrel
  cases hrel with
  | none => exact ⟨rfl, h⟩
  | some halike => exact ⟨rfl, h.locks, halike⟩

end Vault

section Calls
variable (hv : ∀ item, s.vaultFor userID vaultSlug = some item →
    s.vaultService.vaultRoot item.path = .ok r) (hr : ∀ a ∈ r, Plain a)
include hv hr

theorem readTextFile_twin (relPath : Bytes) : Lockstep (Twin t t' r)
    (s.readTextFile userID vaultSlug relPath) (s.readTextFile userID vaultSlug relPath) :=
  context_twin hv fun _ rel hi => (stat_twin hi hr rel).bind fun _ =>
    (Lockstep.require Iff.rfl _).bind fun _ => (readFile_twin hi hr rel).bind fun _ =>
      (Lockstep.require Iff.rfl _).bind fun _ => .pure _

omit hr in
theorem acquireFileLock_twin (relPath owner : Bytes) : Lockstep (Twin t t' r)
    (s.acquireFileLock now userID vaultSlug relPath owner)
    (s.acquireFileLock now userID vaultSlug relPath owner) :=
  context_twin hv fun _ _ _ => liftLock_twin _

omit hr in
theorem heartbeatFileLock_twin (relPath owner : Bytes) : Lockstep (Twin t t' r)
    (s.heartbeatFileLock now userID vaultSlug relPath owner)
    (s.heartbeatFileLock now userID vaultSlug relPath owner) :=
  context_twin hv fun _ _ _ => liftLock_twin _

omit hr in
theorem releaseFileLock_twin (relPath owner : Bytes) : Lockstep (Twin t t' r)
    (s.releaseFileLock userID vaultSlug relPath owner)
    (s.releaseFileLock userID vaultSlug relPath owner) :=
  context_twin hv fun _ _ _ => liftLock_twin _

theorem writeTextFile_twin (relPath content owner : Bytes) : Lockstep (Twin t t' r)
    (s.writeTextFile now userID vaultSlug relPath content owner)
    (s.writeTextFile now userID vaultSlug relPath content owner) :=
  context_twin hv fun _ rel hi =>
    (withFileMutationLock_twin rel owner
      (liftVault_twin ((writeFile_performs _ _ rel content).alike hi hr))).bind
        fun _ => tail_twin hi hr rel

theorem createTextFile_twin (relPath content owner : Bytes) : Lockstep (Twin t t' r)
    (s.createTextFile now userID vaultSlug relPath content owner)
    (s.createTextFile now userID vaultSlug relPath content owner) :=
  context_twin hv fun _ rel hi => free_twin hi hr rel fun _ =>
    (withFileMutationLock_twin rel owner
      (liftVault_twin ((writeFile_performs _ _ rel content).alike hi hr))).bind
        fun _ => tail_twin hi hr rel

theorem createDir_twin (relPath owner : Bytes) : Lockstep (Twin t t' r)
    (s.createDir now userID vaultSlug relPath owner)
    (s.createDir now userID vaultSlug relPath owner) :=
  context_twin hv fun _ rel hi =>
    (withFileMutationLock_twin rel owner
      (liftVault_twin ((mkdir_performs _ _ rel).alike hi hr))).bind
        fun _ => tail_twin hi hr rel

theorem deletePath_twin (relPath owner : Bytes) : Lockstep (Twin t t' r)
    (s.deletePath now userID vaultSlug relPath owner)
    (s.deletePath now userID vaultSlug relPath owner) :=
  context_twin hv fun _ rel hi =>
    (withFileMutationLock_twin rel owner
      (liftVault_twin ((delete_performs _ _ rel).alike hi hr))).bind
        fun _ => (Lockstep.require Iff.rfl _).bind fun _ => .pure _

omit hv hr in
theorem ensureMoveUnlocked_twin (rel : Bytes) (isDir : Bool) : Lockstep (Twin t t' r)
    (ensureMoveUnlocked now item rel isDir) (ensureMoveUnlocked now item rel isDir) := by
  unfold ensureMoveUnlocked
  split
  · exact (liftLock_twin _).bind fun _ => .require Iff.rfl _
  · exact (liftLock_twin _).bind fun _ => .require Iff.rfl _

theorem movePath_twin (fromPath toPath owner : Bytes) : Lockstep (Twin t t' r)
    (s.movePath now userID vaultSlug fromPath toPath owner)
    (s.movePath now userID vaultSlug fromPath toPath owner) :=
  context_twin hv fun _ src hi => (Lockstep.ofExcept _).bind fun dst =>
    free_twin hi hr dst fun _ => (stat_twin hi hr src).bind fun info =>
      (ensureMoveUnlocked_twin src info.isDir).bind fun _ =>
        (withFileMutationLock_twin src owner
          (liftVault_twin ((rename_performs _ _ src dst).alike hi hr))).bind
            fun _ => (Lockstep.require Iff.rfl _).bind fun _ => .pure _

theorem restoreFileFromCommit_twin (hgit : CheckoutStays s.checkout)
    (hash relPath owner : Bytes) : Lockstep (Twin t t' r)
      (s.restoreFileFromCommit now userID vaultSlug hash relPath owner)
      (s.restoreFileFromCommit now userID vaultSlug hash relPath owner) := by
  refine context_twin hv fun item rel hi => ?_
  intro w w' h
  obtain ⟨u, u', hu, hu', halike⟩ := ensureVault_alike hi hr h.files
  have hw : s.ensureVault item w = (.ok r, { w with tree := u }) := by simp only [ensureVault, hu]
  have hw' : s.ensureVault item w' = (.ok r, { w' with tree := u' }) := by
    simp only [ensureVault, hu']
  dsimp only
  rw [Op.bind_of_ok hw, Op.bind_of_ok hw']
  exact (withFileMutationLock_twin rel owner (restoreFile_twin hgit hash rel)).bind
    (fun _ => tail_twin hi hr rel) _ _ ⟨h.locks, halike⟩

end Calls
end Ops
end Service
end Mdock.App
