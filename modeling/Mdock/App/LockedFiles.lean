import Mdock.App.Files
import Mdock.WebDAV.Handler

/-! Locks against the operations that change files, web and WebDAV. Every operation asks
for the lock on the paths it is given; the locks it does not ask for, on collections above
and on files below or elsewhere, do not stop it. -/
namespace Mdock.App
open Mdock.Go Mdock.Lib Mdock.Vault Mdock.Locks Mdock.Store
open Mdock.WebDAV (Handler Reply Request Target handler webdavSource)

/-- The places a path of the vault names, as it stands and through links. -/
def Places (s : Vault.Service) (t : Tree) (vaultPath path : Bytes) (l : Loc) : Prop :=
  ∃ r, s.resolve t vaultPath dot = .ok r ∧
    (l = r.root ++ names path ∨
      r.tree.walk true Tree.kernelLinks [] (r.root ++ names path) = .ok l)

/-- A lock covers the file it is on, a WebDAV lock every file below as well. -/
def Covers (s : Vault.Service) (t : Tree) (vaultPath : Bytes) (r : Row) (l : Loc) : Prop :=
  ∃ p, Places s t vaultPath r.path p ∧ (p = l ∨ r.source = webdavSource ∧ p <+: l)

/-- What an operation is about: its vault and owner, the places it overwrites, removes or
moves, and the locks in force that it asks for. -/
structure Footprint where
  vault : VaultRow
  owner : Bytes
  touches : Loc → Prop
  asks : Row → Prop

/-- At the start the lock is held by another owner. -/
def Footprint.Foreign (f : Footprint) (w : World) (start : Instant) (r : Row) : Prop :=
  r ∈ w.locks.rows ∧ r.vaultID = f.vault.id ∧ r.owner ≠ f.owner ∧ start < r.expiresAt

/-- The lock covers a file that is overwritten, removed or moved. -/
def Footprint.Meets (f : Footprint) (s : Vault.Service) (w : World) (r : Row) : Prop :=
  ∃ l n, w.tree.node l = some n ∧ n ≠ .dir ∧ f.touches l ∧ Covers s w.tree f.vault.path r l

/-- No file that is overwritten, removed or moved is under a lock of another owner. -/
def Footprint.Respects (f : Footprint) (s : Vault.Service) (w : World) (start : Instant) : Prop :=
  ∀ r, f.Meets s w r → ¬ f.Foreign w start r

/-- Of the locks of others that the operation meets, none goes unasked. -/
def Footprint.AsksAll (f : Footprint) (s : Vault.Service) (w : World) (start : Instant) : Prop :=
  ∀ r, f.Meets s w r → f.Foreign w start r → f.asks r

/-- The operations that overwrite, remove or move files. -/
inductive Mutation
  | writeTextFile (userID : Int) (vaultSlug relPath content owner : Bytes)
  | createTextFile (userID : Int) (vaultSlug relPath content owner : Bytes)
  | deletePath (userID : Int) (vaultSlug relPath owner : Bytes)
  | movePath (userID : Int) (vaultSlug fromPath toPath owner : Bytes)
  | restoreFileFromCommit (userID : Int) (vaultSlug hash relPath owner : Bytes)
  | put (r : Request) (t : Target)
  | delete (r : Request) (t : Target)
  | move (r : Request) (t : Target)

def succeeded {α : Type} : Except Err α × World → Option World
  | (.ok _, w) => some w
  | (.error _, _) => none

def served (a : Reply × WebDAV.World Tree FileLocks) : Option World :=
  if a.1.isError then none else some ⟨a.2.tree, a.2.locks⟩

namespace Mutation
variable (s : Service) (authorityOk : Bytes → Bool) (now : Nat → Instant)

/-- The WebDAV handler on the services of the app. -/
def webdav : Handler Tree FileLocks := handler s.vaultService s.lockTTL authorityOk

/-- The world after an operation that succeeded. -/
def run : Mutation → World → Option World
  | .writeTextFile userID vaultSlug relPath content owner, w =>
    succeeded (s.writeTextFile now userID vaultSlug relPath content owner w)
  | .createTextFile userID vaultSlug relPath content owner, w =>
    succeeded (s.createTextFile now userID vaultSlug relPath content owner w)
  | .deletePath userID vaultSlug relPath owner, w =>
    succeeded (s.deletePath now userID vaultSlug relPath owner w)
  | .movePath userID vaultSlug fromPath toPath owner, w =>
    succeeded (s.movePath now userID vaultSlug fromPath toPath owner w)
  | .restoreFileFromCommit userID vaultSlug hash relPath owner, w =>
    succeeded (s.restoreFileFromCommit now userID vaultSlug hash relPath owner w)
  | .put r t, w => served ((webdav s authorityOk).put (now 0) r t ⟨w.tree, w.locks⟩)
  | .delete r t, w => served ((webdav s authorityOk).delete (now 0) r t ⟨w.tree, w.locks⟩)
  | .move r t, w => served ((webdav s authorityOk).move (now 0) (now 1) r t ⟨w.tree, w.locks⟩)

/-- A web operation asks for the lock on its path. -/
def webFootprint (item : VaultRow) (rel owner : Bytes) (touches : Loc → Prop) : Footprint where
  vault := item
  owner := Service.effectiveOwner now owner
  touches := touches
  asks r := r.path = rel ∧ ∀ n ∈ Service.lockReadings now owner, InForce r n

/-- `MovePath` asks for every lock on the file, or on the directory and below it. -/
def moveFootprint (w : World) (item : VaultRow) (src dst owner : Bytes) : Footprint where
  vault := item
  owner := Service.effectiveOwner now owner
  touches := s.vaultService.Moves w.tree item.path src dst
  asks r := InForce r (now 3) ∧
    ∃ info, s.vaultService.stat w.tree item.path src = .ok info ∧
      if info.isDir then under item.id src r = true else r.path = src

/-- `PUT` and `DELETE` ask for the lock on their path. -/
def davFootprint (r : Request) (t : Target) (touches : Loc → Prop) : Footprint where
  vault := t.vault
  owner := WebDAV.mutationOwner r t
  touches := touches
  asks row := row.path = t.rel ∧ InForce row (now 0)

/-- `MOVE` asks for the lock on a destination it deletes, and for that on the source. -/
def davMoveFootprint (w : World) (r : Request) (t : Target) (rel : Bytes) (destExists : Bool) :
    Footprint where
  vault := t.vault
  owner := WebDAV.mutationOwner r t
  touches l :=
    destExists = true ∧ s.vaultService.Removes w.tree t.vault.path rel l ∨
    ∃ tree, (if destExists then s.vaultService.delete w.tree t.vault.path rel = (.ok (), tree)
        else tree = w.tree) ∧
      s.vaultService.Moves tree t.vault.path t.rel rel l
  asks row :=
    destExists = true ∧ row.path = rel ∧ InForce row (now 0) ∨
    row.path = t.rel ∧ (destExists = true → InForce row (now 0)) ∧ InForce row (now 1)

/-- What `git checkout` changes in the tree it finds. -/
def Restores (t : Tree) (item : VaultRow) (hash rel : Bytes) (l : Loc) : Prop :=
  ∃ root t₁ t₂ n, s.vaultService.ensureVault t item.path = .ok (root, t₁) ∧
    s.checkout t₁ root hash rel = some t₂ ∧ t₁.node l = some n ∧ t₂.node l ≠ some n

def footprint (w : World) : Mutation → Option Footprint
  | .writeTextFile userID vaultSlug relPath _ owner
  | .createTextFile userID vaultSlug relPath _ owner =>
    (s.fileMutationContext userID vaultSlug relPath false).toOption.map fun (item, rel) =>
      webFootprint now item rel owner (s.vaultService.Writes w.tree item.path rel)
  | .deletePath userID vaultSlug relPath owner =>
    (s.fileMutationContext userID vaultSlug relPath false).toOption.map fun (item, rel) =>
      webFootprint now item rel owner (s.vaultService.Removes w.tree item.path rel)
  | .restoreFileFromCommit userID vaultSlug hash relPath owner =>
    (s.fileMutationContext userID vaultSlug relPath false).toOption.map fun (item, rel) =>
      webFootprint now item rel owner (Restores s w.tree item hash rel)
  | .movePath userID vaultSlug fromPath toPath owner =>
    (s.fileMutationContext userID vaultSlug fromPath false).toOption.bind fun (item, src) =>
      (cleanFilePath toPath false).toOption.map fun dst => moveFootprint s now w item src dst owner
  | .put r t =>
    some (davFootprint now r t (s.vaultService.Writes w.tree t.vault.path t.rel))
  | .delete r t =>
    some (davFootprint now r t (s.vaultService.Removes w.tree t.vault.path t.rel))
  | .move r t =>
    ((webdav s authorityOk).moveGuards r t w.tree).toOption.map fun (rel, destExists) =>
      davMoveFootprint s now w r t rel destExists

/-! ### Each operation against its footprint -/

/-- What the operation does not touch stays, and it asked for no lock of another owner. -/
structure Follows (f : Footprint) (start : Instant) (w w' : World) : Prop where
  keeps : ∀ l n, w.tree.node l = some n → ¬ f.touches l → w'.tree.node l = some n
  free : ∀ r, f.Foreign w start r → ¬ f.asks r

variable {s : Service} {authorityOk : Bytes → Bool} {now : Nat → Instant} {start : Instant}
  {w w' : World}

theorem succeeded_some {α : Type} {x : Except Err α × World} (h : succeeded x = some w') :
    ∃ a, x = (.ok a, w') := by
  unfold succeeded at h
  split at h
  · rename_i a u
    cases h
    exact ⟨a, rfl⟩
  · cases h

theorem context_some {userID : Int} {vaultSlug relPath : Bytes} {item : VaultRow} {rel : Bytes}
    (h : s.fileMutationContext userID vaultSlug relPath false = .ok (item, rel)) :
    (s.fileMutationContext userID vaultSlug relPath false).toOption = some (item, rel) := by
  rw [h]
  rfl

theorem webFootprint_free {item : VaultRow} {rel owner : Bytes} {fn : Op Err World Unit}
    (h : s.withFileMutationLock now item rel owner fn w = (.ok (), w')) (touches : Loc → Prop) :
    ∀ r, (webFootprint now item rel owner touches).Foreign w start r →
      ¬ (webFootprint now item rel owner touches).asks r := by
  rintro r ⟨hr, hv, ho, -⟩ ⟨hp, hf⟩
  exact ho ((Service.withFileMutationLock_ok h).1 r hr (Prod.ext hv hp) hf)

/-- An operation that changes files by one call of the vault service under its lock. -/
theorem webFootprint_follows {item : VaultRow} {rel owner : Bytes}
    {f : Tree → Except Vault.Err Unit × Tree} {touches : Loc → Prop}
    (h : s.withFileMutationLock now item rel owner (liftVault f) w = (.ok (), w'))
    (hkeep : ∀ t, f w.tree = (.ok (), t) →
      ∀ l n, w.tree.node l = some n → ¬ touches l → t.node l = some n) :
    Follows (webFootprint now item rel owner touches) start w w' := by
  refine ⟨fun l n hn hl => ?_, webFootprint_free h touches⟩
  obtain ⟨locks, u, hfn, hu⟩ := (Service.withFileMutationLock_ok h).2
  have hf : f w.tree = (.ok (), u.tree) := @liftVault_ok f ⟨w.tree, locks⟩ u hfn
  rw [hu]
  exact hkeep _ hf l n hn hl

theorem writeTextFile_follows {userID : Int} {vaultSlug relPath content owner : Bytes}
    (h : (writeTextFile userID vaultSlug relPath content owner).run s authorityOk now w = some w') :
    ∃ f, (writeTextFile userID vaultSlug relPath content owner).footprint s authorityOk now w =
      some f ∧ Follows f start w w' := by
  obtain ⟨a, h₀⟩ := succeeded_some h
  obtain ⟨item, rel, hc, hlock⟩ := Service.writeTextFile_ok h₀
  refine ⟨_, by rw [footprint, context_some hc]; rfl, ?_⟩
  exact webFootprint_follows hlock fun t ht l n hn hl => Vault.Service.writeFile_keeps ht hn hl

theorem createTextFile_follows {userID : Int} {vaultSlug relPath content owner : Bytes}
    (h : (createTextFile userID vaultSlug relPath content owner).run s authorityOk now w =
      some w') :
    ∃ f, (createTextFile userID vaultSlug relPath content owner).footprint s authorityOk now w =
      some f ∧ Follows f start w w' := by
  obtain ⟨a, h₀⟩ := succeeded_some h
  obtain ⟨item, rel, hc, hlock⟩ := Service.createTextFile_ok h₀
  refine ⟨_, by rw [footprint, context_some hc]; rfl, ?_⟩
  exact webFootprint_follows hlock fun t ht l n hn hl => Vault.Service.writeFile_keeps ht hn hl

theorem deletePath_follows {userID : Int} {vaultSlug relPath owner : Bytes}
    (h : (deletePath userID vaultSlug relPath owner).run s authorityOk now w = some w') :
    ∃ f, (deletePath userID vaultSlug relPath owner).footprint s authorityOk now w = some f ∧
      Follows f start w w' := by
  obtain ⟨a, h₀⟩ := succeeded_some h
  obtain ⟨item, rel, hc, hlock⟩ := Service.deletePath_ok h₀
  refine ⟨_, by rw [footprint, context_some hc]; rfl, ?_⟩
  exact webFootprint_follows hlock fun t ht l n hn hl => Vault.Service.delete_keeps ht hn hl

theorem restoreFile_ok {root : Loc} {hash rel : Bytes}
    (h : s.restoreFile root hash rel w = (.ok (), w')) :
    s.checkout w.tree root hash rel = some w'.tree := by
  obtain ⟨⟨⟩, w₁, hreq, h₁⟩ := Op.bind_ok.mp h
  obtain ⟨-, rfl⟩ := Op.require_ok.mp hreq
  obtain ⟨⟨⟩, w₂, hreq', h₂⟩ := Op.bind_ok.mp h₁
  obtain ⟨-, rfl⟩ := Op.require_ok.mp hreq'
  split at h₂
  · cases h₂
  · rename_i t ht
    cases h₂
    exact ht

theorem ensureVault_ok {item : VaultRow} {root : Loc}
    (h : s.ensureVault item w = (.ok root, w')) :
    s.vaultService.ensureVault w.tree item.path = .ok (root, w'.tree) ∧ w'.locks = w.locks := by
  unfold Service.ensureVault at h
  split at h
  · cases h
  · rename_i he
    cases h
    exact ⟨he, rfl⟩

theorem restoreFileFromCommit_follows {userID : Int} {vaultSlug hash relPath owner : Bytes}
    (h : (restoreFileFromCommit userID vaultSlug hash relPath owner).run s authorityOk now w =
      some w') :
    ∃ f, (restoreFileFromCommit userID vaultSlug hash relPath owner).footprint s authorityOk now w
      = some f ∧ Follows f start w w' := by
  obtain ⟨⟨item, info⟩, h₀⟩ := succeeded_some h
  obtain ⟨rel, root, w₂, hc, hens, hlock⟩ := Service.restoreFileFromCommit_ok h₀
  obtain ⟨hroot, hlocks⟩ := ensureVault_ok hens
  refine ⟨_, by rw [footprint, context_some hc]; rfl, fun l n hn hl => ?_, fun r hr hask => ?_⟩
  · obtain ⟨locks, u, hfn, hu⟩ := (Service.withFileMutationLock_ok hlock).2
    have hout := restoreFile_ok hfn
    have hn₁ := Vault.Service.ensureVault_node hroot hn
    rw [hu]
    by_contra hne
    exact hl ⟨root, w₂.tree, u.tree, n, hroot, hout, hn₁, hne⟩
  · have hr₂ : (webFootprint now item rel owner (Restores s w.tree item hash rel)).Foreign w₂
        start r := ⟨hlocks ▸ hr.1, hr.2⟩
    exact webFootprint_free hlock _ r hr₂ hask

theorem ensureMoveUnlocked_ok {item : VaultRow} {rel : Bytes} {isDir : Bool}
    (h : Service.ensureMoveUnlocked now item rel isDir w = (.ok (), w')) :
    w'.tree = w.tree ∧ ∀ r ∈ w.locks.rows, r.vaultID = item.id →
      (if isDir then under item.id rel r = true else r.path = rel) → ¬ InForce r (now 3) := by
  unfold Service.ensureMoveUnlocked at h
  cases isDir with
  | true =>
    obtain ⟨items, w₁, hlift, h₁⟩ := Op.bind_ok.mp h
    obtain ⟨t, hact, rfl⟩ := liftLock_ok.mp hlift
    obtain ⟨rfl, rfl⟩ := Op.require_ok.mp h₁
    exact ⟨rfl, fun r hr _ hu => activeUnder_nil hact hr hu⟩
  | false =>
    obtain ⟨existing, w₁, hlift, h₁⟩ := Op.bind_ok.mp h
    obtain ⟨t, hget, rfl⟩ := liftLock_ok.mp hlift
    obtain ⟨rfl, rfl⟩ := Op.require_ok.mp h₁
    exact ⟨rfl, fun r hr hv hp => get_none hget hr (Prod.ext hv (by exact hp))⟩

theorem movePath_follows {userID : Int} {vaultSlug fromPath toPath owner : Bytes}
    (h : (movePath userID vaultSlug fromPath toPath owner).run s authorityOk now w = some w') :
    ∃ f, (movePath userID vaultSlug fromPath toPath owner).footprint s authorityOk now w = some f ∧
      Follows f start w w' := by
  obtain ⟨a, h₀⟩ := succeeded_some h
  obtain ⟨item, src, dst, info, u, hc, hdst, hinfo, hun, hlock⟩ := Service.movePath_ok h₀
  obtain ⟨htree, hfree⟩ := ensureMoveUnlocked_ok hun
  refine ⟨moveFootprint s now w item src dst owner, ?_, fun l n hn hl => ?_, ?_⟩
  · rw [footprint, context_some hc, hdst]
    rfl
  · obtain ⟨locks, u, hfn, hu⟩ := (Service.withFileMutationLock_ok hlock).2
    have hren := liftVault_ok hfn
    rw [htree] at hren
    rw [hu]
    exact Vault.Service.rename_keeps hren hn hl
  · rintro r ⟨hr, hv, -, -⟩ ⟨hf, info', hinfo', hask⟩
    rw [hinfo] at hinfo'
    cases hinfo'
    exact hfree r hr hv hask hf

section WebDAV
variable {r : Request} {t : Target}

theorem served_some {a : Reply × WebDAV.World Tree FileLocks} (h : served a = some w') :
    ¬ a.1.isError ∧ w' = ⟨a.2.tree, a.2.locks⟩ := by
  unfold served at h
  split at h
  · cases h
  · rename_i hne
    cases h
    exact ⟨hne, rfl⟩

theorem acquired_some {n : Instant} {rel : Bytes} {locks locks' : FileLocks}
    (h : (webdav s authorityOk).acquired n r t rel locks = some locks') :
    ∃ l, Locks.acquire locks n t.vault.id rel (WebDAV.mutationOwner r t) webdavSource s.lockTTL =
      (.ok l, locks') := by
  unfold Handler.acquired at h
  split at h
  · cases h
  · rename_i l _ hacq
    cases h
    exact ⟨l, hacq⟩

/-- An answer that is no error after a change under the lock on the request's path. -/
theorem davFootprint_follows {fn : Tree → Except Vault.Err Unit × Tree} {touches : Loc → Prop}
    {u : WebDAV.World Tree FileLocks}
    (h : (webdav s authorityOk).withMutationLock (now 0) r t t.rel fn ⟨w.tree, w.locks⟩ =
      (none, u))
    (hkeep : ∀ tree, fn w.tree = (.ok (), tree) →
      ∀ l n, w.tree.node l = some n → ¬ touches l → tree.node l = some n) :
    Follows (davFootprint now r t touches) start w ⟨u.tree, u.locks⟩ := by
  obtain ⟨locks, hacq, hfn, -⟩ := WebDAV.withMutationLock_none h
  obtain ⟨l, hacq⟩ := acquired_some hacq
  refine ⟨hkeep _ hfn, ?_⟩
  rintro row ⟨hr, hv, ho, -⟩ ⟨hp, hf⟩
  exact ho (acquire_owner hacq hr (Prod.ext hv hp) hf)

theorem put_follows (h : (put r t).run s authorityOk now w = some w') :
    ∃ f, (put r t).footprint s authorityOk now w = some f ∧ Follows f start w w' := by
  obtain ⟨hok, rfl⟩ := served_some h
  obtain ⟨data, u, hw, hu⟩ := WebDAV.put_ok hok
  refine ⟨_, rfl, ?_⟩
  rw [hu]
  exact davFootprint_follows hw fun tree ht l n hn hl => Vault.Service.writeFile_keeps ht hn hl

theorem delete_follows (h : (delete r t).run s authorityOk now w = some w') :
    ∃ f, (delete r t).footprint s authorityOk now w = some f ∧ Follows f start w w' := by
  obtain ⟨hok, rfl⟩ := served_some h
  obtain ⟨u, hw, hu⟩ := WebDAV.delete_ok hok
  refine ⟨_, rfl, ?_⟩
  rw [hu]
  exact davFootprint_follows hw fun tree ht l n hn hl => Vault.Service.delete_keeps ht hn hl

theorem mem_unlocked {h : Handler Tree FileLocks} (hs : h.lockService = WebDAV.lockService)
    {rel : Bytes} {locks : FileLocks} {row : Row} (hr : row ∈ locks.rows)
    (ho : row.owner ≠ WebDAV.mutationOwner r t) : row ∈ (h.unlocked r t rel locks).rows := by
  unfold Handler.unlocked
  split
  · rw [hs]
    exact mem_release hr ho
  · exact hr

theorem move_follows (h : (move r t).run s authorityOk now w = some w') :
    ∃ f, (move r t).footprint s authorityOk now w = some f ∧ Follows f start w w' := by
  obtain ⟨hok, rfl⟩ := served_some h
  obtain ⟨rel, destExists, u, v, hg, hdest, hsrc, hv⟩ := WebDAV.move_ok hok
  obtain ⟨locks₂, hacq₂, hren, -⟩ := WebDAV.withMutationLock_none hsrc
  obtain ⟨l₂, hacq₂⟩ := acquired_some hacq₂
  refine ⟨davMoveFootprint s now w r t rel destExists, ?_, ?_, ?_⟩
  · have hg' : (webdav s authorityOk).moveGuards r t w.tree = .ok (rel, destExists) := hg
    rw [footprint, hg']
    rfl
  · intro l n hn hl
    simp only [davMoveFootprint, not_or, not_and, not_exists] at hl
    rw [hv]
    cases destExists with
    | false =>
      obtain rfl : u = ⟨w.tree, w.locks⟩ := by simpa using hdest
      exact Vault.Service.rename_keeps hren hn (hl.2 w.tree (by simp))
    | true =>
      obtain ⟨locks₁, -, hdel, -⟩ := WebDAV.withMutationLock_none (by simpa using hdest)
      have hn' := Vault.Service.delete_keeps hdel hn (hl.1 rfl)
      exact Vault.Service.rename_keeps hren hn' (hl.2 u.tree (by rw [if_pos rfl]; exact hdel))
  · rintro row ⟨hr, hid, ho, -⟩ hask
    cases destExists with
    | false =>
      obtain rfl : u = ⟨w.tree, w.locks⟩ := by simpa using hdest
      simp only [davMoveFootprint, Bool.false_eq_true, false_and, false_or, false_implies,
        true_and] at hask
      exact ho (acquire_owner hacq₂ hr (Prod.ext hid hask.1) hask.2)
    | true =>
      obtain ⟨locks₁, hacq₁, -, hlocks⟩ := WebDAV.withMutationLock_none (by simpa using hdest)
      obtain ⟨l₁, hacq₁⟩ := acquired_some hacq₁
      rcases hask with ⟨-, hp, hf⟩ | ⟨hp, hf₁, hf₂⟩
      · exact ho (acquire_owner hacq₁ hr (Prod.ext hid hp) hf)
      · -- the lock on the source outlives the handling of the destination
        have hr' : row ∈ u.locks.rows := by
          rw [hlocks]
          exact mem_unlocked rfl (mem_acquire hacq₁ hr ho (hf₁ rfl)) ho
        exact ho (acquire_owner hacq₂ hr' (Prod.ext hid hp) hf₂)

end WebDAV

theorem follows {m : Mutation} (h : m.run s authorityOk now w = some w') :
    ∃ f, m.footprint s authorityOk now w = some f ∧ Follows f start w w' := by
  cases m with
  | writeTextFile => exact writeTextFile_follows h
  | createTextFile => exact createTextFile_follows h
  | deletePath => exact deletePath_follows h
  | movePath => exact movePath_follows h
  | restoreFileFromCommit => exact restoreFileFromCommit_follows h
  | put => exact put_follows h
  | delete => exact delete_follows h
  | move => exact move_follows h

end Mutation

/-- An operation that succeeds changes what its footprint touches, and respects the locks of
others exactly when it asked for each of those that cover a touched file. -/
theorem mutation_respects_iff (s : Service) (authorityOk : Bytes → Bool) (now : Nat → Instant)
    (start : Instant) (m : Mutation) (w w' : World) (h : m.run s authorityOk now w = some w') :
    ∃ f, m.footprint s authorityOk now w = some f ∧
      (∀ l n, w.tree.node l = some n → w'.tree.node l ≠ some n → f.touches l) ∧
      (f.Respects s.vaultService w start ↔ f.AsksAll s.vaultService w start) := by
  obtain ⟨f, hf, hfol⟩ := @Mutation.follows s authorityOk now start w w' m h
  refine ⟨f, hf, fun l n hn hne => ?_, fun hres r hm hr => absurd hr (hres r hm), ?_⟩
  · by_contra hl
    exact hne (hfol.keeps l n hn hl)
  · intro hall r hm hr
    exact hfol.free r hr (hall r hm hr)

/-! ### A folder with one note -/

def folder : Tree :=
  [(note "d", .dir), (note "d" ++ [utf8 "x.md"], .file (utf8 "x"))].foldl Keyed.upsert notes

def folderApp : Service :=
  ⟨noteService, 30000000000, fun _ _ => some WebDAV.noteVault, fun _ _ _ _ => none, true⟩

def foreignRow (path : String) (source : Bytes) : Row :=
  ⟨1, utf8 path, utf8 "web:2", source, 60000000000, 0⟩

def foreignLock (path : String) (source : Bytes) : World :=
  ⟨folder, Keyed.empty.upsert (foreignRow path source)⟩

def deleteFolder : Mutation :=
  .delete ⟨.delete, utf8 "/notes/d", [], [], [], [], none⟩
    ⟨utf8 "alice", WebDAV.noteVault, utf8 "d"⟩

def putInFolder : Mutation :=
  .put ⟨.put, utf8 "/notes/d/x.md", [], [], [], [], some []⟩
    ⟨utf8 "alice", WebDAV.noteVault, utf8 "d/x.md"⟩

theorem exists_ok {ε α : Type} {x : Except ε α} {p : α → Bool}
    (h : x.toOption.any p = true) : ∃ a, x = .ok a ∧ p a = true := by
  cases x with
  | error e => cases h
  | ok a => exact ⟨a, rfl, h⟩

section Note
variable {t : Tree} {path : Bytes} {p l : Loc}

theorem places_note
    (h : ((noteService.resolve t (utf8 "v") dot).toOption.any fun r =>
      decide (l = r.root ++ names path)) = true) : Places noteService t (utf8 "v") path l := by
  obtain ⟨r, hr, hp⟩ := exists_ok h
  exact ⟨r, hr, .inl (of_decide_eq_true hp)⟩

theorem removes_note
    (h : ((noteService.resolve t (utf8 "v") path).toOption.any fun r =>
      decide (r.tree.walk false Tree.kernelLinks [] r.full = .ok p)) = true) (hpl : p <+: l) :
    noteService.Removes t (utf8 "v") path l := by
  obtain ⟨r, hr, hp⟩ := exists_ok h
  exact ⟨r, p, hr, of_decide_eq_true hp, hpl⟩

theorem writes_note
    (h : ((noteService.resolve t (utf8 "v") path).toOption.any fun r =>
      (r.tree.mkdirAll r.full.dropLast).any fun u =>
        decide (u.walk true Tree.kernelLinks [] r.full = .ok l)) = true) :
    noteService.Writes t (utf8 "v") path l := by
  obtain ⟨r, hr, hp⟩ := exists_ok h
  obtain ⟨u, hu, hp⟩ := (Option.any_eq_true _ _).mp hp
  exact ⟨r, u, hr, hu, of_decide_eq_true hp⟩

end Note

/-- The note is locked by another owner, or the folder by a `LOCK`; a `DELETE` of the folder
takes the note away, a `PUT` overwrites it. -/
theorem locked_note_taken :
    (¬ ∀ w' f, deleteFolder.run folderApp (fun _ => true) (fun _ => 0)
        (foreignLock "d/x.md" webSource) = some w' →
      deleteFolder.footprint folderApp (fun _ => true) (fun _ => 0)
        (foreignLock "d/x.md" webSource) = some f →
      f.Respects noteService (foreignLock "d/x.md" webSource) 0) ∧
    ¬ ∀ w' f, putInFolder.run folderApp (fun _ => true) (fun _ => 0)
        (foreignLock "d" webdavSource) = some w' →
      putInFolder.footprint folderApp (fun _ => true) (fun _ => 0)
        (foreignLock "d" webdavSource) = some f →
      f.Respects noteService (foreignLock "d" webdavSource) 0 := by
  let x : Loc := note "d" ++ [utf8 "x.md"]
  have hx : folder.node x = some (.file (utf8 "x")) := by decide +kernel
  have hrow : ∀ path source, foreignRow path source ∈ (foreignLock path source).locks.rows :=
    fun path source => Keyed.mem_upsert.mpr (.inl rfl)
  refine ⟨fun h => ?_, fun h => ?_⟩
  · obtain ⟨w', hw'⟩ := Option.isSome_iff_exists.mp (by decide +kernel :
      (deleteFolder.run folderApp (fun _ => true) (fun _ => 0)
        (foreignLock "d/x.md" webSource)).isSome = true)
    have hl : noteService.Removes folder (utf8 "v") (utf8 "d") x :=
      removes_note (p := note "d") (by decide +kernel) (List.prefix_append _ _)
    have hc : Places noteService folder (utf8 "v") (utf8 "d/x.md") x :=
      places_note (by decide +kernel)
    exact h w' _ hw' rfl (foreignRow "d/x.md" webSource)
      ⟨x, _, hx, by decide, hl, x, hc, .inl rfl⟩
      ⟨hrow _ _, rfl, by decide +kernel, by decide⟩
  · obtain ⟨w', hw'⟩ := Option.isSome_iff_exists.mp (by decide +kernel :
      (putInFolder.run folderApp (fun _ => true) (fun _ => 0)
        (foreignLock "d" webdavSource)).isSome = true)
    have hl : noteService.Writes folder (utf8 "v") (utf8 "d/x.md") x :=
      writes_note (by decide +kernel)
    have hc : Places noteService folder (utf8 "v") (utf8 "d") (note "d") :=
      places_note (by decide +kernel)
    exact h w' _ hw' rfl (foreignRow "d" webdavSource)
      ⟨x, _, hx, by decide, hl, note "d", hc, .inr ⟨rfl, List.prefix_append _ _⟩⟩
      ⟨hrow _ _, rfl, by decide +kernel, by decide⟩

/-- A session that saves the note it has locked itself. -/
def saveNote : Mutation :=
  .writeTextFile 2 (utf8 "notes") (utf8 "d/x.md") [] (utf8 "web:2")

theorem mutation_respects_own : ∃ w' f,
    saveNote.run folderApp (fun _ => true) (fun _ => 0) (foreignLock "d/x.md" webSource) =
      some w' ∧
    saveNote.footprint folderApp (fun _ => true) (fun _ => 0) (foreignLock "d/x.md" webSource) =
      some f ∧
    f.Respects noteService (foreignLock "d/x.md" webSource) 0 := by
  obtain ⟨w', hw'⟩ := Option.isSome_iff_exists.mp (by decide +kernel :
    (saveNote.run folderApp (fun _ => true) (fun _ => 0)
      (foreignLock "d/x.md" webSource)).isSome = true)
  obtain ⟨f, hf, -, hiff⟩ := mutation_respects_iff folderApp (fun _ => true) (fun _ => 0) 0
    saveNote _ w' hw'
  have howner : (saveNote.footprint folderApp (fun _ => true) (fun _ => 0)
      (foreignLock "d/x.md" webSource)).map Footprint.owner = some (utf8 "web:2") := by
    decide +kernel
  rw [hf] at howner
  refine ⟨w', f, hw', hf, hiff.mpr ?_⟩
  rintro r - ⟨hr, -, ho, -⟩
  obtain rfl | ⟨hr, -⟩ := Keyed.mem_upsert.mp hr
  · exact absurd (Option.some.inj howner).symm ho
  · cases hr

end Mdock.App
