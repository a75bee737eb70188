import Mdock.WebDAV.Handler

/-! `MOVE` and its errors. An existing destination is deleted before the source is locked
and renamed; where the second half fails, the answer is an error and the destination is
gone. -/
namespace Mdock.WebDAV
open Mdock.Go Mdock.Vault Mdock.Locks Mdock.Store

/-- A call of the vault service that fails has no effect. -/
structure VaultService.Atomic {σ : Type} (s : VaultService σ) : Prop where
  writeFile : ∀ {t t' v rel data e}, s.writeFile t v rel data = (.error e, t') → t' = t
  mkdir : ∀ {t t' v rel e}, s.mkdir t v rel = (.error e, t') → t' = t
  rename : ∀ {t t' v old new e}, s.rename t v old new = (.error e, t') → t' = t
  delete : ∀ {t t' v rel e}, s.delete t v rel = (.error e, t') → t' = t

theorem vaultService_atomic (s : Vault.Service) : (vaultService s).Atomic where
  writeFile h := Service.run_error h
  mkdir h := Service.run_error h
  rename h := Service.rename_error h
  delete h := Service.run_error h

variable {σ τ : Type} {h : Handler σ τ} {now₁ now₂ : Instant} {r : Request} {t : Target}
  {w : World σ τ}

/-- The source follows: its lock is granted on the table `locks`, and it is renamed in the
tree without the destination. -/
def Handler.SourceFollows (h : Handler σ τ) (now : Instant) (r : Request) (t : Target)
    (rel : Bytes) (tree : σ) (locks : τ) : Prop :=
  (∃ locks', h.acquired now r t t.rel locks = some locks') ∧
    ∃ tree', h.vaultService.rename tree t.vault.path t.rel rel = (.ok (), tree')

/-- Whenever an existing destination would be deleted, the source follows. -/
def Handler.DeletesSafely (h : Handler σ τ) (now₁ now₂ : Instant) (r : Request) (t : Target)
    (w : World σ τ) : Prop :=
  ∀ rel locks tree, h.moveGuards r t w.tree = .ok (rel, true) →
    h.acquired now₁ r t rel w.locks = some locks →
    h.vaultService.delete w.tree t.vault.path rel = (.ok (), tree) → tree ≠ w.tree →
      h.SourceFollows now₂ r t rel tree (h.unlocked r t rel locks)

theorem moveSource_error (hatomic : h.vaultService.Atomic) {rel : Bytes} {destExists : Bool}
    (he : (h.moveSource now₂ r t rel destExists w).1.isError) :
    (h.moveSource now₂ r t rel destExists w).2.tree = w.tree := by
  unfold Handler.moveSource at he ⊢
  split at he
  · rename_i reply w' hw
    exact (withMutationLock_some hw).2 fun e tree hf => hatomic.rename hf
  · cases destExists <;> exact absurd he (by simp [Reply.isError])

theorem moveSource_isError {rel : Bytes} {destExists : Bool} :
    (h.moveSource now₂ r t rel destExists w).1.isError ↔
      ¬ h.SourceFollows now₂ r t rel w.tree w.locks := by
  unfold Handler.moveSource
  constructor
  · rintro he ⟨⟨locks, hacq⟩, tree, hren⟩
    rw [withMutationLock_ok hacq hren] at he
    cases destExists <;> exact absurd he (by simp [Reply.isError])
  · intro hno
    split
    · rename_i reply w' hw
      exact (withMutationLock_some hw).1
    · rename_i w' hw
      obtain ⟨locks, hacq, hren, -⟩ := withMutationLock_none hw
      exact absurd ⟨⟨locks, hacq⟩, _, hren⟩ hno

/-- How a `MOVE` goes on once its guards let it through to an existing destination. -/
theorem move_overwrite (hatomic : h.vaultService.Atomic) {rel : Bytes}
    (hg : h.moveGuards r t w.tree = .ok (rel, true)) :
    ((h.move now₁ now₂ r t w).2.tree = w.tree ∧
      ∀ locks tree, h.acquired now₁ r t rel w.locks = some locks →
        h.vaultService.delete w.tree t.vault.path rel ≠ (.ok (), tree)) ∨
    ∃ locks tree, h.acquired now₁ r t rel w.locks = some locks ∧
      h.vaultService.delete w.tree t.vault.path rel = (.ok (), tree) ∧
      h.move now₁ now₂ r t w =
        h.moveSource now₂ r t rel true ⟨tree, h.unlocked r t rel locks⟩ := by
  cases hw : h.withMutationLock now₁ r t rel
      (fun tree => h.vaultService.delete tree t.vault.path rel) w with
  | mk res w' =>
    have hmove : h.move now₁ now₂ r t w = match res with
        | some reply => (reply, w')
        | none => h.moveSource now₂ r t rel true w' := by
      rw [Handler.move, hg]
      simp only [hw]
      cases res <;> rfl
    cases res with
    | some reply =>
      left
      refine ⟨?_, fun locks tree hacq hdel => ?_⟩
      · rw [hmove]
        exact (withMutationLock_some hw).2 fun e tree hf => hatomic.delete hf
      · rw [withMutationLock_ok hacq hdel] at hw
        cases hw
    | none =>
      right
      obtain ⟨locks, hacq, hdel, hlocks⟩ := withMutationLock_none hw
      refine ⟨locks, w'.tree, hacq, hdel, ?_⟩
      rw [hmove, ← hlocks]

/-- A `MOVE` that answers with an error leaves the tree alone exactly when, wherever it
deletes the destination, the source follows. -/
theorem move_atomic_iff (hatomic : h.vaultService.Atomic) :
    ((h.move now₁ now₂ r t w).1.isError → (h.move now₁ now₂ r t w).2.tree = w.tree) ↔
      h.DeletesSafely now₁ now₂ r t w := by
  cases hg : h.moveGuards r t w.tree with
  | error reply =>
    refine iff_of_true (fun _ => ?_) fun rel locks tree hok => ?_
    · rw [Handler.move, hg]
    · rw [hg] at hok
      cases hok
  | ok p =>
    obtain ⟨rel, destExists⟩ := p
    cases destExists with
    | false =>
      refine iff_of_true (fun he => ?_) fun rel locks tree hok => ?_
      · rw [Handler.move, hg] at he ⊢
        exact moveSource_error hatomic he
      · rw [hg] at hok
        cases hok
    | true =>
      rcases move_overwrite hatomic hg with ⟨htree, hno⟩ | ⟨locks, tree, hacq, hdel, hmove⟩
      · refine iff_of_true (fun _ => htree) fun rel' locks tree hok hacq hdel => ?_
        rw [hg] at hok
        cases hok
        exact absurd hdel (hno locks tree hacq)
      · have herr : (h.moveSource now₂ r t rel true ⟨tree, h.unlocked r t rel locks⟩).1.isError ↔
            ¬ h.SourceFollows now₂ r t rel tree (h.unlocked r t rel locks) := moveSource_isError
        rw [hmove]
        constructor
        · intro hun rel' locks' tree' hok hacq' hdel' hne
          rw [hg] at hok
          cases hok
          rw [hacq] at hacq'
          rw [hdel] at hdel'
          cases hacq'
          cases hdel'
          by_contra hno
          have he := herr.mpr hno
          exact hne ((moveSource_error hatomic he).symm.trans (hun he))
        · intro hsafe he
          have htree := moveSource_error hatomic he
          by_contra hne
          rw [htree] at hne
          exact herr.mp he (hsafe rel locks tree hg hacq hdel hne)

def noteTarget : Target := ⟨utf8 "alice", noteVault, utf8 "a.md"⟩

def moveTo (destination : Bytes) : Request :=
  ⟨.move, utf8 "/notes/a.md", destination, utf8 "T", [], [], none⟩

/-- The note `a.md` is being edited by someone else until second 60. -/
def editedNote : FileLocks :=
  Lib.Keyed.empty.upsert ⟨1, utf8 "a.md", utf8 "web:2", utf8 "web", 60000000000, 0⟩

/-- With the source locked by another owner, and with the source as its own destination,
`MOVE` answers with an error and the destination is gone. -/
theorem move_loses_destination :
    (¬ ∀ locks, (noteHandler.move 0 0 (moveTo (utf8 "/webdav/notes/b.md")) noteTarget
        ⟨notes, locks⟩).1.isError →
      (noteHandler.move 0 0 (moveTo (utf8 "/webdav/notes/b.md")) noteTarget
        ⟨notes, locks⟩).2.tree = notes) ∧
    ¬ ((noteHandler.move 0 0 (moveTo (utf8 "/webdav/notes/a.md")) noteTarget
        ⟨notes, Lib.Keyed.empty⟩).1.isError →
      (noteHandler.move 0 0 (moveTo (utf8 "/webdav/notes/a.md")) noteTarget
        ⟨notes, Lib.Keyed.empty⟩).2.tree = notes) := by
  refine ⟨fun h => ?_, fun h => ?_⟩
  · have hfile := congrArg (fun t => t.file (note "b.md"))
      (h editedNote (by decide +kernel))
    exact absurd hfile (by decide +kernel)
  · have hfile := congrArg (fun t => t.file (note "a.md"))
      (h (by decide +kernel))
    exact absurd hfile (by decide +kernel)

/-- To a new destination the locked note answers with an error and stays where it is. -/
theorem move_atomic_note :
    (noteHandler.move 0 0 (moveTo (utf8 "/webdav/notes/c.md")) noteTarget
        ⟨notes, editedNote⟩).1.isError ∧
      (noteHandler.move 0 0 (moveTo (utf8 "/webdav/notes/c.md")) noteTarget
        ⟨notes, editedNote⟩).2.tree = notes := by
  have herr : (noteHandler.move 0 0 (moveTo (utf8 "/webdav/notes/c.md")) noteTarget
      ⟨notes, editedNote⟩).1.isError := by decide +kernel
  refine ⟨herr, (move_atomic_iff (vaultService_atomic noteService)).mpr ?_ herr⟩
  intro rel locks tree hok
  have hg : noteHandler.moveGuards (moveTo (utf8 "/webdav/notes/c.md")) noteTarget notes =
      .ok (utf8 "c.md", false) := by decide +kernel
  rw [hg] at hok
  cases hok

end Mdock.WebDAV
