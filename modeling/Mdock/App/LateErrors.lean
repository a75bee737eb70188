import Mdock.App.LockedFiles
import Mdock.Vault.Found

/-! What a failed web operation leaves of the files. Each operation first changes the tree,
then hands the change to the git queue, and four of them read back what they changed. -/
namespace Mdock.App.LateErrors
open Mdock.Go Mdock.Lib Mdock.Vault Mdock.Locks Mdock.Store

/-- How the steps after the change turn out: whether the queue is found, is closed and journals
the paths, and how the final `Stat` fails if it does. -/
structure Later where
  queueFor : Bool
  closed : Bool
  journals : Bool
  statErr : Option Vault.Err

/-- Whether `Enqueue` takes the paths; an empty path is not journalled. -/
def Later.takes (later : Later) (paths : List Bytes) : Bool :=
  later.queueFor && !later.closed && (later.journals || paths.all fun p => decide (p = []))

inductive WebMutation
  | writeTextFile (relPath content owner : Bytes)
  | createTextFile (relPath content owner : Bytes)
  | createDir (relPath owner : Bytes)
  | movePath (fromPath toPath owner : Bytes)
  | deletePath (relPath owner : Bytes)
  | restoreFileFromCommit (hash relPath owner : Bytes)

/-- The vault, the path that is read back, and the paths for the queue. -/
structure Changed where
  item : VaultRow
  rel : Bytes
  paths : List Bytes

namespace WebMutation
variable (s : Service) (now : Nat → Instant) (userID : Int) (vaultSlug : Bytes)

/-- An operation up to the change of the tree. -/
def change : WebMutation → Op Err World Changed
  | .writeTextFile relPath content owner => do
    let (item, rel) ← Op.ofExcept (s.fileMutationContext userID vaultSlug relPath false)
    s.withFileMutationLock now item rel owner
      (liftVault fun t => s.vaultService.writeFile t item.path rel content)
    pure ⟨item, rel, [rel]⟩
  | .createTextFile relPath content owner => do
    let (item, rel) ← Op.ofExcept (s.fileMutationContext userID vaultSlug relPath false)
    let w ← Op.get
    Op.require (s.found item rel w = false) .invalidFilePath
    s.withFileMutationLock now item rel owner
      (liftVault fun t => s.vaultService.writeFile t item.path rel content)
    pure ⟨item, rel, [rel]⟩
  | .createDir relPath owner => do
    let (item, rel) ← Op.ofExcept (s.fileMutationContext userID vaultSlug relPath false)
    s.withFileMutationLock now item rel owner
      (liftVault fun t => s.vaultService.mkdir t item.path rel)
    pure ⟨item, rel, [rel]⟩
  | .movePath fromPath toPath owner => do
    let (item, src) ← Op.ofExcept (s.fileMutationContext userID vaultSlug fromPath false)
    let dst ← Op.ofExcept (cleanFilePath toPath false)
    let w ← Op.get
    Op.require (s.found item dst w = false) .invalidFilePath
    let info ← s.stat item src
    Service.ensureMoveUnlocked now item src info.isDir
    s.withFileMutationLock now item src owner
      (liftVault fun t => s.vaultService.rename t item.path src dst)
    pure ⟨item, src, [src, dst]⟩
  | .deletePath relPath owner => do
    let (item, rel) ← Op.ofExcept (s.fileMutationContext userID vaultSlug relPath false)
    s.withFileMutationLock now item rel owner
      (liftVault fun t => s.vaultService.delete t item.path rel)
    pure ⟨item, rel, []⟩
  | .restoreFileFromCommit hash relPath owner => do
    let (item, rel) ← Op.ofExcept (s.fileMutationContext userID vaultSlug relPath false)
    let root ← s.ensureVault item
    s.withFileMutationLock now item rel owner (s.restoreFile root hash rel)
    pure ⟨item, rel, [rel]⟩

/-- Whether an operation reads back what it changed. -/
def reads : WebMutation → Bool
  | .movePath .. | .deletePath .. => false
  | _ => true

end WebMutation

namespace Later
variable (later : Later) (s : Service)

def enqueueVaultChange (paths : List Bytes) : Op Err World Unit :=
  Op.require (later.takes paths = true) .queue

def stat (item : VaultRow) (rel : Bytes) : Op Err World Info :=
  match later.statErr with
  | some e => Op.ofExcept (.error (.vault e))
  | none => s.stat item rel

/-- The steps after the change. -/
def finish (reads : Bool) (c : Changed) : Op Err World Unit := do
  later.enqueueVaultChange c.paths
  if reads then
    let _ ← later.stat s c.item c.rel
    pure ()
  else pure ()

/-- Whether all of them go through. -/
def succeeds (reads : Bool) (c : Changed) (w : World) : Prop :=
  later.takes c.paths = true ∧ (reads = true → later.statErr = none ∧
    (s.vaultService.stat w.tree c.item.path c.rel).isOk)

end Later

def WebMutation.run (s : Service) (now : Nat → Instant) (userID : Int) (vaultSlug : Bytes)
    (later : Later) (m : WebMutation) : Op Err World Unit := do
  let c ← m.change s now userID vaultSlug
  later.finish s m.reads c

/-- The operations of the service, without what they return. -/
def WebMutation.op (s : Service) (now : Nat → Instant) (userID : Int) (vaultSlug : Bytes) :
    WebMutation → Op Err World Unit
  | .writeTextFile relPath content owner =>
    (fun _ => ()) <$> s.writeTextFile now userID vaultSlug relPath content owner
  | .createTextFile relPath content owner =>
    (fun _ => ()) <$> s.createTextFile now userID vaultSlug relPath content owner
  | .createDir relPath owner => (fun _ => ()) <$> s.createDir now userID vaultSlug relPath owner
  | .movePath fromPath toPath owner =>
    (fun _ => ()) <$> s.movePath now userID vaultSlug fromPath toPath owner
  | .deletePath relPath owner => (fun _ => ()) <$> s.deletePath now userID vaultSlug relPath owner
  | .restoreFileFromCommit hash relPath owner =>
    (fun _ => ()) <$> s.restoreFileFromCommit now userID vaultSlug hash relPath owner

/-- Where the journal is written and `Stat` is left to the tree, these are the operations of the
service. -/
theorem WebMutation.run_eq (s : Service) (now : Nat → Instant) (userID : Int) (vaultSlug : Bytes)
    {later : Later} (hj : later.journals = true) (hst : later.statErr = none) (m : WebMutation) :
    m.run s now userID vaultSlug later =
      m.op { s with queueOk := later.queueFor && !later.closed } now userID vaultSlug := by
  have henq : ∀ paths, later.enqueueVaultChange paths =
      ({ s with queueOk := later.queueFor && !later.closed } : Service).enqueueVaultChange := by
    intro paths
    have htakes : later.takes paths = (later.queueFor && !later.closed) := by simp [Later.takes, hj]
    rw [Later.enqueueVaultChange, htakes]
    rfl
  have hstat : ∀ item rel, later.stat s item rel = s.stat item rel := fun item rel => by
    simp only [Later.stat, hst]
  -- both sides are the same steps in the same order, bracketed in another way
  cases m with
  | writeTextFile | createTextFile | createDir | restoreFileFromCommit =>
    simp only [run, change, op, Later.finish, reads, henq, hstat, Service.writeTextFile,
      Service.createTextFile, Service.createDir, Service.restoreFileFromCommit, map_bind, map_pure,
      bind_assoc, pure_bind, if_true]
    rfl
  | movePath | deletePath =>
    simp only [run, change, op, Later.finish, reads, henq, Service.movePath, Service.deletePath,
      map_bind, map_pure, bind_assoc, pure_bind, Bool.false_eq_true, if_false]
    rfl

/-! ### Operations that change no file when they fail -/

section Locked
variable {α : Type}

theorem keeps_liftLock (g : FileLocks → Except Locks.Err α × FileLocks) :
    Op.Keeps World.tree (liftLock g) := by
  intro w
  unfold liftLock
  split <;> rfl

theorem atomic_liftVault {g : Tree → Except Vault.Err Unit × Tree}
    (hg : ∀ t e t', g t = (.error e, t') → t' = t) : Op.Atomic World.tree (liftVault g) := by
  intro w e w' h
  unfold liftVault at h
  split at h
  · cases h
  · rename_i e' t ht
    cases h
    exact hg _ _ _ ht

end Locked

section Steps
variable {s : Service} {now : Nat → Instant} {item : VaultRow} {rel owner : Bytes}

theorem keeps_stat : Op.Keeps World.tree (s.stat item rel) := by
  intro w
  unfold Service.stat
  split <;> rfl

theorem keeps_ensureMoveUnlocked (isDir : Bool) :
    Op.Keeps World.tree (Service.ensureMoveUnlocked now item rel isDir) := by
  unfold Service.ensureMoveUnlocked
  split
  · exact (keeps_liftLock _).bind fun _ => Op.keeps_require _ _
  · exact (keeps_liftLock _).bind fun _ => Op.keeps_require _ _

theorem keeps_mutationOwner : Op.Keeps World.tree (Service.mutationOwner now item rel owner) := by
  unfold Service.mutationOwner
  split
  · exact Op.keeps_pure _
  · exact (keeps_liftLock _).bind fun _ => Op.keeps_pure _

/-- Neither a refused lock nor the release touches the tree. -/
theorem atomic_withFileMutationLock {fn : Op Err World Unit} (hfn : Op.Atomic World.tree fn) :
    Op.Atomic World.tree (s.withFileMutationLock now item rel owner fn) := by
  refine Op.Atomic.after keeps_mutationOwner fun ⟨o, release⟩ => ?_
  refine Op.Atomic.after (keeps_liftLock _) fun _ => ?_
  intro w e w' h
  simp only [Service.releasing, Prod.mk.injEq] at h
  obtain ⟨hres, rfl⟩ := h
  have htree : (fn w).2.tree = w.tree := hfn w e _ (Prod.ext hres rfl)
  cases release <;> exact htree

theorem atomic_restoreFile (root : Loc) (hash : Bytes) :
    Op.Atomic World.tree (s.restoreFile root hash rel) := by
  refine Op.Atomic.after (Op.keeps_require _ _) fun _ => ?_
  refine Op.Atomic.after (Op.keeps_require _ _) fun _ => ?_
  intro w e w' h
  simp only at h
  split at h
  · cases h
    rfl
  · cases h

end Steps

/-! ### The files of the vault -/

/-- The entries of the vault are as they were; its directory itself may have been made. -/
def SameFiles (s : Vault.Service) (v : Bytes) (t t' : Tree) : Prop :=
  ∀ root, s.place t v = some root → ∀ l, root <+: l → l ≠ root → t'.node l = t.node l

section Change
variable {s : Service} {now : Nat → Instant} {userID : Int} {vaultSlug : Bytes} {item : VaultRow}

/-- Every operation but one changes nothing at all when its change fails. -/
theorem atomic_change (m : WebMutation)
    (hm : ∀ hash relPath owner, m ≠ .restoreFileFromCommit hash relPath owner) :
    Op.Atomic World.tree (m.change s now userID vaultSlug) := by
  have hlock : ∀ {item rel owner} {g : Tree → Except Vault.Err Unit × Tree} {β : Type} (c : β),
      (∀ t e t', g t = (.error e, t') → t' = t) →
      Op.Atomic World.tree (do
        s.withFileMutationLock now item rel owner (liftVault g)
        pure c) := fun c hg =>
    (atomic_withFileMutationLock (atomic_liftVault hg)).returning fun _ => c
  cases m with
  | writeTextFile relPath content owner =>
    exact Op.Atomic.after (Op.keeps_ofExcept _) fun _ => hlock _ fun _ _ _ => Vault.Service.run_error
  | createTextFile relPath content owner =>
    refine Op.Atomic.after (Op.keeps_ofExcept _) fun _ => Op.Atomic.after Op.keeps_get fun _ => ?_
    refine Op.Atomic.after (Op.keeps_require _ _) fun _ => ?_
    exact hlock _ fun _ _ _ => Vault.Service.run_error
  | createDir relPath owner =>
    exact Op.Atomic.after (Op.keeps_ofExcept _) fun _ => hlock _ fun _ _ _ => Vault.Service.run_error
  | movePath fromPath toPath owner =>
    refine Op.Atomic.after (Op.keeps_ofExcept _) fun _ => ?_
    refine Op.Atomic.after (Op.keeps_ofExcept _) fun _ => ?_
    refine Op.Atomic.after Op.keeps_get fun _ => Op.Atomic.after (Op.keeps_require _ _) fun _ => ?_
    refine Op.Atomic.after keeps_stat fun _ => ?_
    refine Op.Atomic.after (keeps_ensureMoveUnlocked _) fun _ => ?_
    exact hlock _ fun _ _ _ => Vault.Service.rename_error
  | deletePath relPath owner =>
    exact Op.Atomic.after (Op.keeps_ofExcept _) fun _ => hlock _ fun _ _ _ => Vault.Service.run_error
  | restoreFileFromCommit hash relPath owner => exact absurd rfl (hm hash relPath owner)

theorem SameFiles.of_eq {v : Bytes} {t t' : Tree} (h : t' = t) :
    SameFiles s.vaultService v t t' := fun _ _ _ _ _ => by rw [h]

/-- What `EnsureVault` makes is the directory of the vault, and directories above it. -/
theorem sameFiles_ensureVault {v : Bytes} {t t' : Tree} {root : Loc}
    (hs : ∀ n ∈ s.vaultService.root, Plain n) (ht : t.Rooted)
    (h : s.vaultService.ensureVault t v = .ok (root, t')) : SameFiles s.vaultService v t t' := by
  obtain ⟨hv, hm⟩ := Vault.ensureVault_ok h
  obtain ⟨q, hq⟩ := Tree.mkdirAll_made ht (fun n hn => vaultRoot_plain hs hv hn) hm
  intro place hplace l hpre hne
  have hat : s.vaultService.place t v = some (t.leads root ++ q) := by
    simp [Vault.Service.place, h, made_eval hq, Except.toOption]
  obtain rfl : place = t.leads root ++ q := Option.some.inj (hplace.symm.trans hat)
  by_contra hnew
  obtain ⟨p, hp, rfl⟩ := hq.new hnew
  exact hne (((List.prefix_append_right_inj _).mpr hp).eq_of_length_le hpre.length_le)

theorem context_item {relPath : Bytes} {item' : VaultRow} {rel : Bytes}
    (hitem : s.vaultFor userID vaultSlug = some item)
    (h : s.fileMutationContext userID vaultSlug relPath false = .ok (item', rel)) :
    item' = item := by
  unfold Service.fileMutationContext at h
  rw [hitem] at h
  simp only at h
  cases hrel : cleanFilePath relPath false with
  | error e =>
    rw [hrel] at h
    cases h
  | ok r =>
    rw [hrel] at h
    cases h
    rfl

/-- A change that fails leaves the files of the vault. -/
theorem change_error (hs : ∀ n ∈ s.vaultService.root, Plain n) {m : WebMutation} {w w' : World}
    {e : Err} (ht : w.tree.Rooted) (hitem : s.vaultFor userID vaultSlug = some item)
    (h : m.change s now userID vaultSlug w = (.error e, w')) :
    SameFiles s.vaultService item.path w.tree w'.tree := by
  by_cases hm : ∀ hash relPath owner, m ≠ .restoreFileFromCommit hash relPath owner
  · exact .of_eq (atomic_change m hm w e w' h)
  · push Not at hm
    obtain ⟨hash, relPath, owner, rfl⟩ := hm
    rcases Op.bind_error.mp h with hctx | ⟨⟨item', rel⟩, w₁, hlift, hrest⟩
    · exact .of_eq (Op.keeps_ofExcept (s.fileMutationContext userID vaultSlug relPath false)
        |>.atomic w e w' hctx)
    obtain ⟨hctx, rfl⟩ := Op.ofExcept_ok.mp hlift
    obtain rfl := context_item hitem hctx
    rcases Op.bind_error.mp hrest with hens | ⟨root, u, hens, hlock⟩
    · unfold Service.ensureVault at hens
      split at hens
      · cases hens
        exact .of_eq rfl
      · cases hens
    · have hatomic : Op.Atomic World.tree (do
          s.withFileMutationLock now item' rel owner (s.restoreFile root hash rel)
          pure (⟨item', rel, [rel]⟩ : Changed)) :=
        (atomic_withFileMutationLock (atomic_restoreFile root hash)).returning fun _ => _
      rw [hatomic u e w' hlock]
      exact sameFiles_ensureVault hs ht (Mutation.ensureVault_ok hens).1

end Change

section Main
variable {s : Service} {now : Nat → Instant} {userID : Int} {vaultSlug : Bytes}

theorem Later.keeps_stat (later : Later) (item : VaultRow) (rel : Bytes) :
    Op.Keeps World.tree (later.stat s item rel) := by
  unfold Later.stat
  split
  · exact Op.keeps_ofExcept _
  · exact LateErrors.keeps_stat

theorem keeps_finish (later : Later) (reads : Bool) (c : Changed) :
    Op.Keeps World.tree (later.finish s reads c) := by
  refine (Op.keeps_require _ _).bind fun _ => ?_
  split
  · exact (later.keeps_stat c.item c.rel).bind fun _ => Op.keeps_pure ()
  · exact Op.keeps_pure ()

theorem finish_of_succeeds {later : Later} {reads : Bool} {c : Changed} {w : World}
    (h : later.succeeds s reads c w) : later.finish s reads c w = (.ok (), w) := by
  obtain ⟨htakes, hstat⟩ := h
  have hq : later.enqueueVaultChange c.paths w = (.ok (), w) := Op.require_ok.mpr ⟨htakes, rfl⟩
  rw [Later.finish, Op.bind_of_ok hq]
  cases reads with
  | false => rfl
  | true =>
    obtain ⟨hnone, hok⟩ := hstat rfl
    cases hinfo : s.vaultService.stat w.tree c.item.path c.rel with
    | error e => simp [hinfo, Except.isOk, Except.toBool] at hok
    | ok info =>
      have hread : later.stat s c.item c.rel w = (.ok info, w) := by
        simp only [Later.stat, hnone, Service.stat, hinfo]
      rw [if_pos rfl, Op.bind_of_ok hread]
      rfl

theorem finish_of_not_succeeds {later : Later} {reads : Bool} {c : Changed} {w : World}
    (h : ¬ later.succeeds s reads c w) : ∃ e, later.finish s reads c w = (.error e, w) := by
  by_cases htakes : later.takes c.paths = true
  · have hq : later.enqueueVaultChange c.paths w = (.ok (), w) := Op.require_ok.mpr ⟨htakes, rfl⟩
    rw [Later.finish, Op.bind_of_ok hq]
    cases reads with
    | false => exact absurd ⟨htakes, fun he => by cases he⟩ h
    | true =>
      rw [if_pos rfl]
      cases herr : later.statErr with
      | some e =>
        have hread : later.stat s c.item c.rel w = (.error (.vault e), w) := by
          simp only [Later.stat, herr, Op.ofExcept]
        exact ⟨_, Op.bind_of_error hread⟩
      | none =>
        cases hinfo : s.vaultService.stat w.tree c.item.path c.rel with
        | ok info => exact absurd ⟨htakes, fun _ => ⟨herr, by rw [hinfo]; rfl⟩⟩ h
        | error e =>
          have hread : later.stat s c.item c.rel w = (.error (.vault e), w) := by
            simp only [Later.stat, herr, Service.stat, hinfo]
          exact ⟨_, Op.bind_of_error hread⟩
  · exact ⟨_, Op.bind_of_error (Op.require_error w htakes)⟩

/-- An operation that fails leaves the files of the vault just where the steps after the change
succeed, or the change is refused, or it makes no difference. -/
theorem failed_sameFiles_iff (hs : ∀ n ∈ s.vaultService.root, Plain n) {item : VaultRow}
    (hitem : s.vaultFor userID vaultSlug = some item) (m : WebMutation) (later : Later) {w : World}
    (ht : w.tree.Rooted) :
    (∀ e w', m.run s now userID vaultSlug later w = (.error e, w') →
      SameFiles s.vaultService item.path w.tree w'.tree) ↔
    ∀ c u, m.change s now userID vaultSlug w = (.ok c, u) →
      later.succeeds s m.reads c u ∨ SameFiles s.vaultService item.path w.tree u.tree := by
  constructor
  · intro h c u hc
    by_cases hok : later.succeeds s m.reads c u
    · exact .inl hok
    · obtain ⟨e, he⟩ := finish_of_not_succeeds hok
      exact .inr (h e u (Op.bind_error.mpr (.inr ⟨c, u, hc, he⟩)))
  · intro h e w' hrun
    rcases Op.bind_error.mp hrun with hc | ⟨c, u, hc, hfin⟩
    · exact change_error hs ht hitem hc
    · rcases h c u hc with hok | hsame
      · rw [finish_of_succeeds hok] at hfin
        cases hfin
      · have hquiet := keeps_finish later m.reads c (s := s) u
        rw [hfin] at hquiet
        exact hquiet ▸ hsame

end Main

/-! ### A note that is saved while the queue is closed -/

def saveNote : WebMutation := .writeTextFile (utf8 "a.md") (utf8 "text") []

def noteWorld : World := ⟨notes, Keyed.empty⟩

def saveAgain : WebMutation := .writeTextFile (utf8 "a.md") (utf8 "new") []

/-- The queue is closed, but the save has found in the note what it was to write. -/
theorem failed_sameFiles_saved :
    (∃ e w', saveAgain.run folderApp (fun n => n) 1 (utf8 "notes") ⟨true, true, true, none⟩
      noteWorld = (.error e, w')) ∧
    ∀ e w', saveAgain.run folderApp (fun n => n) 1 (utf8 "notes") ⟨true, true, true, none⟩
      noteWorld = (.error e, w') → SameFiles noteService (utf8 "v") notes w'.tree := by
  have hchange : (saveAgain.change folderApp (fun n => n) 1 (utf8 "notes") noteWorld).2.tree.rows =
      notes.rows := by decide +kernel
  have hrun : (saveAgain.run folderApp (fun n => n) 1 (utf8 "notes") ⟨true, true, true, none⟩
      noteWorld).1.isOk = false := by decide +kernel
  refine ⟨?_, (failed_sameFiles_iff (s := folderApp) (by decide)
    (show folderApp.vaultFor 1 (utf8 "notes") = some WebDAV.noteVault from rfl) saveAgain
    ⟨true, true, true, none⟩ (w := noteWorld) notes_rooted).mpr fun c u hc => .inr ?_⟩
  · cases hres : saveAgain.run folderApp (fun n => n) 1 (utf8 "notes") ⟨true, true, true, none⟩
        noteWorld with
    | mk res w' =>
      rw [hres] at hrun
      cases res with
      | ok a => cases hrun
      | error e => exact ⟨e, w', rfl⟩
  · rw [hc] at hchange
    exact .of_eq (Keyed.eq_of_rows hchange)

/-- The save is reported as failed, and the note is changed. -/
theorem failed_save_changes : ∃ e w', saveNote.run folderApp (fun n => n) 1 (utf8 "notes")
    ⟨true, true, true, none⟩ noteWorld = (.error e, w') ∧
      ¬ SameFiles noteService (utf8 "v") notes w'.tree := by
  have hplace : noteService.place notes (utf8 "v") = some [utf8 "srv", utf8 "v"] := by
    decide +kernel
  have hrun : (saveNote.run folderApp (fun n => n) 1 (utf8 "notes") ⟨true, true, true, none⟩
      noteWorld).1.isOk = false ∧
      (saveNote.run folderApp (fun n => n) 1 (utf8 "notes") ⟨true, true, true, none⟩
        noteWorld).2.tree.node (note "a.md") ≠ notes.node (note "a.md") := by decide +kernel
  cases hres : saveNote.run folderApp (fun n => n) 1 (utf8 "notes") ⟨true, true, true, none⟩
      noteWorld with
  | mk res w' =>
    rw [hres] at hrun
    cases res with
    | ok a => cases hrun.1
    | error e =>
      refine ⟨e, w', rfl, fun hsame => hrun.2 ?_⟩
      exact hsame _ hplace (note "a.md") ⟨[utf8 "a.md"], rfl⟩ (by decide)

end Mdock.App.LateErrors
