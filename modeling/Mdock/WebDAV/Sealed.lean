import Mdock.Lib.Lockstep
import Mdock.WebDAV.Handler

/-! The methods of the handler, run on two trees that the vault service cannot tell apart. -/
namespace Mdock.WebDAV
open Mdock.Go Mdock.Lib Mdock.Vault Mdock.Locks Mdock.Store
variable {σ τ : Type}

/-- On the vault at `path` the service answers alike on related trees, and leaves them related. -/
structure VaultService.Respects (s : VaultService σ) (R : σ → σ → Prop) (path : Bytes) : Prop where
  stat : ∀ rel {t t'}, R t t' → s.stat t path rel = s.stat t' path rel
  writeFile : ∀ rel data,
    Lockstep R (fun t => s.writeFile t path rel data) fun t => s.writeFile t path rel data
  mkdir : ∀ rel, Lockstep R (fun t => s.mkdir t path rel) fun t => s.mkdir t path rel
  rename : ∀ old new, Lockstep R (fun t => s.rename t path old new) fun t => s.rename t path old new
  delete : ∀ rel, Lockstep R (fun t => s.delete t path rel) fun t => s.delete t path rel

/-- Worlds with the same locks and related trees. -/
structure Twin (R : σ → σ → Prop) (w w' : World σ τ) : Prop where
  locks : w.locks = w'.locks
  trees : R w.tree w'.tree

variable {h : Handler σ τ} {R : σ → σ → Prop} {now now₁ now₂ : Instant} {r : Request} {t : Target}
  {fn : σ → Except Vault.Err Unit × σ}

theorem withMutationLock_twin (rel : Bytes) (hfn : Lockstep R fn fn) :
    Lockstep (Twin R) (h.withMutationLock now r t rel fn) (h.withMutationLock now r t rel fn) := by
  rintro ⟨tree, locks⟩ ⟨tree', _⟩ ⟨rfl, htree⟩
  obtain ⟨hres, htree'⟩ := hfn tree tree' htree
  simp only [Handler.withMutationLock]
  rcases h.lockService.acquire locks now t.vault.id rel (mutationOwner r t) webdavSource h.lockTTL
    with ⟨e | l, locks'⟩
  · exact ⟨rfl, rfl, htree⟩
  · rcases hx : fn tree with ⟨e | ⟨⟩, u⟩ <;> rcases hx' : fn tree' with ⟨e' | ⟨⟩, u'⟩ <;>
      rw [hx, hx'] at hres htree' <;> cases hres
    · exact ⟨rfl, rfl, htree'⟩
    · exact ⟨rfl, rfl, htree'⟩

/-- A change under its lock, and what is done after it. -/
theorem locked_twin (rel : Bytes) (hfn : Lockstep R fn fn)
    {k : World σ τ → Reply × World σ τ} (hk : Lockstep (Twin R) k k) :
    Lockstep (Twin R)
      (fun w => match h.withMutationLock now r t rel fn w with
        | (some reply, w) => (reply, w)
        | (none, w) => k w)
      (fun w => match h.withMutationLock now r t rel fn w with
        | (some reply, w) => (reply, w)
        | (none, w) => k w) := by
  intro w w' hw
  obtain ⟨hres, hw'⟩ := withMutationLock_twin (h := h) (r := r) (t := t) rel hfn w w' hw
  rcases hx : h.withMutationLock now r t rel fn w with ⟨_ | reply, u⟩ <;>
    rcases hx' : h.withMutationLock now r t rel fn w' with ⟨_ | reply', u'⟩ <;>
    rw [hx, hx'] at hres hw' <;> cases hres <;> simp only [hx, hx']
  · exact hk u u' hw'
  · exact ⟨trivial, hw'⟩

section Methods
variable (hs : h.vaultService.Respects R t.vault.path)
include hs

theorem put_twin : Lockstep (Twin R) (h.put now r t) (h.put now r t) := by
  intro w w' hw
  simp only [Handler.put, hs.stat t.rel hw.trees]
  cases r.body with
  | none => exact ⟨rfl, hw⟩
  | some data =>
    simp only
    split
    · exact ⟨rfl, hw⟩
    · exact locked_twin t.rel (hs.writeFile t.rel data) (.answer _) w w' hw

theorem parentOk_twin (rel : Bytes) {tree tree' : σ} (htree : R tree tree') :
    h.parentOk t rel tree = h.parentOk t rel tree' := by
  rw [Handler.parentOk, Handler.parentOk, hs.stat _ htree]

theorem mkcol_twin : Lockstep (Twin R) (h.mkcol now r t) (h.mkcol now r t) := by
  intro w w' hw
  simp only [Handler.mkcol, hs.stat t.rel hw.trees, parentOk_twin hs t.rel hw.trees]
  split
  · exact ⟨rfl, hw⟩
  · split
    · exact ⟨rfl, hw⟩
    · split
      · exact locked_twin t.rel (hs.mkdir t.rel) (.answer _) w w' hw
      · exact ⟨rfl, hw⟩

theorem delete_twin : Lockstep (Twin R) (h.delete now r t) (h.delete now r t) := by
  intro w w' hw
  simp only [Handler.delete, hs.stat t.rel hw.trees]
  split
  · exact ⟨rfl, hw⟩
  · split
    · exact locked_twin t.rel (hs.delete t.rel) (.answer _) w w' hw
    · exact ⟨rfl, hw⟩

theorem moveGuards_twin {tree tree' : σ} (htree : R tree tree') :
    h.moveGuards r t tree = h.moveGuards r t tree' := by
  unfold Handler.moveGuards
  split
  · rfl
  · split
    · rfl
    · simp only [hs.stat _ htree, parentOk_twin hs _ htree]

theorem moveSource_twin (rel : Bytes) (destExists : Bool) :
    Lockstep (Twin R) (h.moveSource now r t rel destExists) (h.moveSource now r t rel destExists) :=
  locked_twin t.rel (hs.rename t.rel rel) (.answer _)

theorem move_twin : Lockstep (Twin R) (h.move now₁ now₂ r t) (h.move now₁ now₂ r t) := by
  intro w w' hw
  simp only [Handler.move, moveGuards_twin hs hw.trees]
  split
  · exact ⟨rfl, hw⟩
  · exact moveSource_twin hs _ false w w' hw
  · exact locked_twin _ (hs.delete _) (moveSource_twin hs _ true) w w' hw

end Methods

theorem lock_twin (token : Bytes) :
    Lockstep (Twin R) (h.lock now token t) (h.lock now token t) := by
  rintro ⟨tree, locks⟩ ⟨tree', _⟩ ⟨rfl, htree⟩
  simp only [Handler.lock]
  rcases h.lockService.acquire locks now t.vault.id t.rel token webdavSource h.lockTTL
    with ⟨e | l, locks'⟩ <;> exact ⟨rfl, rfl, htree⟩

theorem unlock_twin : Lockstep (Twin R) (h.unlock r t) (h.unlock r t) := by
  rintro ⟨tree, locks⟩ ⟨tree', _⟩ ⟨rfl, htree⟩
  simp only [Handler.unlock]
  split
  · exact ⟨rfl, rfl, htree⟩
  · rcases h.lockService.release locks t.vault.id t.rel (cleanLockToken r.lockToken)
      with ⟨e | l, locks'⟩ <;> exact ⟨rfl, rfl, htree⟩

/-- A request for a vault on which the service respects the relation. -/
theorem serve_twin (vaultFor : Bytes → Option VaultRow) (login token : Bytes)
    (now₁ now₂ : Instant) (hs : ∀ slug rel vault, parsePath r.path = .ok (slug, rel) →
      vaultFor slug = some vault →
      h.vaultService.Respects R vault.path) : Lockstep (Twin R)
        (h.serve vaultFor login token now₁ now₂ r) (h.serve vaultFor login token now₁ now₂ r) := by
  intro w w' hw
  unfold Handler.serve
  split
  · exact ⟨rfl, hw⟩
  · rename_i slug rel hp
    split
    · exact ⟨rfl, hw⟩
    · rename_i vault hvault
      have hs := hs slug rel vault hp hvault
      split
      · exact put_twin hs w w' hw
      · exact mkcol_twin hs w w' hw
      · exact delete_twin hs w w' hw
      · exact move_twin hs w w' hw
      · exact lock_twin token w w' hw
      · exact unlock_twin w w' hw

end Mdock.WebDAV
