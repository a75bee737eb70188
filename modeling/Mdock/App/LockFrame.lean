import Mdock.App.Files
import Mdock.Locks.Frame
import Mdock.WebDAV.Handler

/-! Every request that changes files, run alone, and what it leaves in the lock table. The web
service gives a lock back unless its owner had it before; a WebDAV method gives it back unless
the request carries a token, whoever the token belongs to. -/
namespace Mdock.App.LockFrame
open Mdock.Go Mdock.Lib Mdock.Vault Mdock.Locks Mdock.Store Mdock.App.Service
open Mdock.WebDAV (Handler Request Target handler requestLockToken webdavSource maxPutBytes)

/-- The requests that change files. -/
inductive Mutation
  | writeTextFile (userID : Int) (vaultSlug relPath content owner : Bytes)
  | createTextFile (userID : Int) (vaultSlug relPath content owner : Bytes)
  | createDir (userID : Int) (vaultSlug relPath owner : Bytes)
  | movePath (userID : Int) (vaultSlug fromPath toPath owner : Bytes)
  | deletePath (userID : Int) (vaultSlug relPath owner : Bytes)
  | restoreFileFromCommit (userID : Int) (vaultSlug hash relPath owner : Bytes)
  | put (r : Request) (t : Target)
  | mkcol (r : Request) (t : Target)
  | delete (r : Request) (t : Target)
  | move (r : Request) (t : Target)

variable (s : Service) (authorityOk : Bytes → Bool) (now : Nat → Instant)

/-- The handler of `NewHandler`, which has a default where the web service has none. -/
def webdav : Handler Tree FileLocks :=
  handler s.vaultService (if s.lockTTL ≤ 0 then 30 * 1000000000 else s.lockTTL) authorityOk

def served (w : World) (f : WebDAV.World Tree FileLocks → WebDAV.Reply × WebDAV.World Tree FileLocks) :
    World := ⟨(f ⟨w.tree, w.locks⟩).2.tree, (f ⟨w.tree, w.locks⟩).2.locks⟩

namespace Mutation

/-- The world after the request, whether it succeeded or not. -/
def run (w : World) : Mutation → World
  | .writeTextFile userID vaultSlug relPath content owner =>
    (s.writeTextFile now userID vaultSlug relPath content owner w).2
  | .createTextFile userID vaultSlug relPath content owner =>
    (s.createTextFile now userID vaultSlug relPath content owner w).2
  | .createDir userID vaultSlug relPath owner =>
    (s.createDir now userID vaultSlug relPath owner w).2
  | .movePath userID vaultSlug fromPath toPath owner =>
    (s.movePath now userID vaultSlug fromPath toPath owner w).2
  | .deletePath userID vaultSlug relPath owner =>
    (s.deletePath now userID vaultSlug relPath owner w).2
  | .restoreFileFromCommit userID vaultSlug hash relPath owner =>
    (s.restoreFileFromCommit now userID vaultSlug hash relPath owner w).2
  | .put r t => served w ((webdav s authorityOk).put (now 2) r t)
  | .mkcol r t => served w ((webdav s authorityOk).mkcol (now 2) r t)
  | .delete r t => served w ((webdav s authorityOk).delete (now 2) r t)
  | .move r t => served w ((webdav s authorityOk).move (now 1) (now 2) r t)

/-- The name the request has its locks under. -/
def requester : Mutation → Bytes
  | .writeTextFile _ _ _ _ owner | .createTextFile _ _ _ _ owner | .createDir _ _ _ owner
  | .movePath _ _ _ _ owner | .deletePath _ _ _ owner | .restoreFileFromCommit _ _ _ _ owner =>
    effectiveOwner now owner
  | .put r t | .mkcol r t | .delete r t | .move r t => WebDAV.mutationOwner r t

end Mutation

/-! ### What a request does to the row of a path -/

/-- `withFileMutationLock` gives its lock back unless the owner had it already. -/
def web (t : FileLocks) (item : VaultRow) (rel owner : Bytes) (f : Fates) : Fates :=
  let asked (owner : Bytes) : Row := ⟨item.id, rel, owner, webSource, now 2 + s.lockTTL, now 2⟩
  if owner = [] then f.acquire t (now 2) (asked (transientOwner (now 0))) true
  else
    match f.found t (now 1) (item.id, rel) with
    | none => (f.sweep (now 1)).acquire t (now 2) (asked owner) true
    | some r =>
      match reparse r.expiresAt with
      | none => f.sweep (now 1)
      | some _ => (f.sweep (now 1)).acquire t (now 2) (asked owner) (decide (r.owner ≠ owner))

/-- `ensureMoveUnlocked` finds nothing. -/
def moveUnlocked (t : FileLocks) (n : Instant) (item : VaultRow) (rel : Bytes) (isDir : Bool) :
    Prop :=
  if isDir then (cleanupExpired t n).rows.filter (under item.id rel) = []
  else (cleanupExpired t n).get? (item.id, rel) = none

instance moveUnlockedDecidable (t : FileLocks) (n : Instant) (item : VaultRow) (rel : Bytes)
    (isDir : Bool) : Decidable (moveUnlocked t n item rel isDir) := by
  unfold moveUnlocked
  infer_instance

/-- `withMutationLock` gives its lock back unless the request carries a token. -/
def davLock (t : FileLocks) (n : Instant) (r : Request) (g : Target) (rel : Bytes) (f : Fates) :
    Fates :=
  f.acquire t n ⟨g.vault.id, rel, WebDAV.mutationOwner r g, webdavSource,
    n + (webdav s authorityOk).lockTTL, n⟩ (decide (requestLockToken r = []))

/-- The fates under a path that `fileMutationContext` lets through. -/
def onPath (userID : Int) (vaultSlug relPath : Bytes) (f : VaultRow → Bytes → Fates) : Fates :=
  match s.fileMutationContext userID vaultSlug relPath false with
  | .error _ => Fates.untouched
  | .ok (item, rel) => f item rel

/-- The fates of all paths, from the world before the request. -/
def Mutation.fates (w : World) : Mutation → Fates
  | .writeTextFile userID vaultSlug relPath _ owner | .createDir userID vaultSlug relPath owner
  | .deletePath userID vaultSlug relPath owner => onPath s userID vaultSlug relPath fun item rel =>
    web s now w.locks item rel owner Fates.untouched
  | .createTextFile userID vaultSlug relPath _ owner =>
    onPath s userID vaultSlug relPath fun item rel =>
      if s.found item rel w then Fates.untouched
      else web s now w.locks item rel owner Fates.untouched
  | .movePath userID vaultSlug fromPath toPath owner =>
    onPath s userID vaultSlug fromPath fun item src =>
      match cleanFilePath toPath false with
      | .error _ => Fates.untouched
      | .ok dst =>
        if s.found item dst w then Fates.untouched
        else
          match s.vaultService.stat w.tree item.path src with
          | .error _ => Fates.untouched
          | .ok info =>
            if moveUnlocked w.locks (now 3) item src info.isDir then
              web s now w.locks item src owner (Fates.untouched.sweep (now 3))
            else Fates.untouched.sweep (now 3)
  | .restoreFileFromCommit userID vaultSlug _ relPath owner =>
    onPath s userID vaultSlug relPath fun item rel =>
      if (s.vaultService.ensureVault w.tree item.path).isOk then
        web s now w.locks item rel owner Fates.untouched
      else Fates.untouched
  | .put r g =>
    match r.body with
    | none => Fates.untouched
    | some data =>
      if maxPutBytes < data.length then Fates.untouched
      else davLock s authorityOk w.locks (now 2) r g g.rel Fates.untouched
  | .mkcol r g =>
    if g.rel ≠ dot ∧ ¬ (s.vaultService.stat w.tree g.vault.path g.rel).isOk ∧
        (webdav s authorityOk).parentOk g g.rel w.tree then
      davLock s authorityOk w.locks (now 2) r g g.rel Fates.untouched
    else Fates.untouched
  | .delete r g =>
    if g.rel ≠ dot ∧ (s.vaultService.stat w.tree g.vault.path g.rel).isOk then
      davLock s authorityOk w.locks (now 2) r g g.rel Fates.untouched
    else Fates.untouched
  | .move r g =>
    match (webdav s authorityOk).moveGuards r g w.tree with
    | .error _ => Fates.untouched
    | .ok (_, false) => davLock s authorityOk w.locks (now 2) r g g.rel Fates.untouched
    | .ok (rel, true) =>
      let deleted := davLock s authorityOk w.locks (now 1) r g rel Fates.untouched
      if ((webdav s authorityOk).acquired (now 1) r g rel w.locks).isSome ∧
          (s.vaultService.delete w.tree g.vault.path rel).1.isOk then
        davLock s authorityOk w.locks (now 2) r g g.rel deleted
      else deleted

/-! ### The calls of the lock service -/

section Locking
variable {s : Service} {authorityOk : Bytes → Bool} {now : Nat → Instant} {me : Bytes}
  {t : FileLocks} {f : Fates} {item : VaultRow} {rel owner : Bytes} {w : World}

theorem releasing_locks {fn : Op Err World Unit} (hfn : ∀ w, (fn w).2.locks = w.locks)
    (release : Bool) (w : World) : (releasing item rel owner release fn w).2.locks =
      if release then Locks.release w.locks item.id rel owner else w.locks := by
  cases release with
  | false => exact hfn w
  | true => exact congrArg (fun l => Locks.release l item.id rel owner) (hfn w)

/-- From the grant to the release. -/
theorem locked_traced {fn : Op Err World Unit} (hfn : ∀ w, (fn w).2.locks = w.locks)
    (h : Traced me t w.locks f) (release : Bool) (n : Instant) (source : Bytes) (ttl : Int) :
    Traced me t ((do
      let _ ← liftLock fun l => Locks.acquire l n item.id rel me source ttl
      releasing item rel me release fn : Op Err World Unit) w).2.locks
      (f.acquire t n ⟨item.id, rel, me, source, n + ttl, n⟩ release) := by
  cases hacq : Locks.acquire w.locks n item.id rel me source ttl with
  | mk res u =>
    cases res with
    | error e =>
      rw [Op.bind_of_error (liftLock_of_error hacq)]
      exact h.refused hacq release
    | ok l =>
      rw [Op.bind_of_ok (liftLock_of_ok hacq), releasing_locks hfn]
      exact h.acquired hacq release

/-- What `withFileMutationLock` does to the lock table, when the change leaves it alone. -/
theorem withFileMutationLock_traced {fn : Op Err World Unit}
    (hfn : ∀ w, (fn w).2.locks = w.locks) (h : Traced (effectiveOwner now owner) t w.locks f) :
    Traced (effectiveOwner now owner) t
      (s.withFileMutationLock now item rel owner fn w).2.locks (web s now t item rel owner f) := by
  unfold Service.withFileMutationLock Service.mutationOwner web
  by_cases ho : owner = []
  · have hown : effectiveOwner now owner = transientOwner (now 0) := if_pos ho
    rw [hown] at h ⊢
    simp only [if_pos ho]
    exact locked_traced hfn h true (now 2) webSource s.lockTTL
  · have hown : effectiveOwner now owner = owner := if_neg ho
    rw [hown] at h ⊢
    simp only [if_neg ho]
    have hswept := h.sweep (now 1)
    have hrow := h.found (now 1) (item.id, rel)
    have hget : Locks.get w.locks (now 1) item.id rel =
        ((Locks.get w.locks (now 1) item.id rel).1, cleanupExpired w.locks (now 1)) :=
      Prod.ext rfl (get_table w.locks (now 1) item.id rel)
    have hlift : ∀ {existing}, (Locks.get w.locks (now 1) item.id rel).1 = .ok existing →
        (do
          let existing ← liftLock fun l => Locks.get l (now 1) item.id rel
          pure (owner, decide (existing.map Lock.owner ≠ some owner)) : Op Err World _) w =
        (.ok (owner, decide (existing.map Lock.owner ≠ some owner)),
          { w with locks := cleanupExpired w.locks (now 1) }) := fun he => by
      rw [Op.bind_of_ok (liftLock_of_ok (he ▸ hget))]
      rfl
    cases hfound : f.found t (now 1) (item.id, rel) with
    | none =>
      rw [hfound] at hrow
      have hres : (Locks.get w.locks (now 1) item.id rel).1 = .ok none := by
        unfold Locks.get
        rw [hrow]
      rw [Op.bind_of_ok (hlift hres)]
      exact locked_traced hfn hswept true (now 2) webSource s.lockTTL
    | some r =>
      rw [hfound] at hrow
      cases hp : reparse r.expiresAt with
      | none =>
        have hres : (Locks.get w.locks (now 1) item.id rel).1 = .error .parseExpiry := by
          unfold Locks.get
          rw [hrow]
          simp [Row.toLock, hp, Except.map]
        rw [Op.bind_of_error (Op.bind_of_error (liftLock_of_error (hres ▸ hget)))]
        simp only [hp]
        exact hswept
      | some e =>
        have hres : (Locks.get w.locks (now 1) item.id rel).1 =
            .ok (some ⟨r.vaultID, r.path, r.owner, r.source, e⟩) := by
          unfold Locks.get
          rw [hrow]
          simp [Row.toLock, hp, Except.map]
        rw [Op.bind_of_ok (hlift hres)]
        simp only [hp, Option.map_some, ne_eq, Option.some.injEq]
        exact locked_traced hfn hswept _ (now 2) webSource s.lockTTL

theorem liftVault_quiet (g : Tree → Except Vault.Err Unit × Tree) (w : World) :
    (liftVault g w).2.locks = w.locks := liftVault_locks g w

theorem restoreFile_quiet (root : Loc) (hash relPath : Bytes) (w : World) :
    (s.restoreFile root hash relPath w).2.locks = w.locks := by
  unfold Service.restoreFile
  rw [Op.bind_frame World.locks]
  · rfl
  · intro _ w
    refine Op.bind_frame World.locks (fun _ w => ?_) w
    cases s.checkout w.tree root hash relPath <;> rfl

theorem stat_quiet (item : VaultRow) (rel : Bytes) (w : World) : (s.stat item rel w).2 = w := by
  unfold Service.stat
  split <;> rfl

/-- Once the lock is given back, nothing reaches the lock table. -/
theorem queued_quiet {α : Type} {k : Op Err World α} (hk : ∀ w, (k w).2.locks = w.locks)
    (w : World) : ((do s.enqueueVaultChange; k : Op Err World α) w).2.locks = w.locks := by
  rw [Op.bind_frame World.locks fun _ w => hk w]
  rfl

theorem stated_quiet (item : VaultRow) (rel : Bytes) (w : World) :
    ((do
      let info ← s.stat item rel
      pure (item, info) : Op Err World (VaultRow × Info)) w).2.locks = w.locks := by
  rw [Op.bind_frame World.locks fun _ _ => rfl, stat_quiet]

/-- A request of the web service from its lock to its end. -/
theorem web_traced {α : Type} {fn : Op Err World Unit} (hfn : ∀ w, (fn w).2.locks = w.locks)
    {k : Op Err World α} (hk : ∀ w, (k w).2.locks = w.locks)
    (h : Traced (effectiveOwner now owner) t w.locks f) :
    Traced (effectiveOwner now owner) t ((do
      s.withFileMutationLock now item rel owner fn
      s.enqueueVaultChange
      k : Op Err World α) w).2.locks (web s now t item rel owner f) := by
  rw [Op.bind_frame World.locks fun _ w => queued_quiet hk w]
  exact withFileMutationLock_traced hfn h

theorem mapM_toLock_nil {rows : List Row} : rows.mapM Row.toLock = .ok [] ↔ rows = [] := by
  constructor
  · intro h
    cases rows with
    | nil => rfl
    | cons r rows =>
      rw [List.mapM_cons] at h
      cases hr : r.toLock with
      | error e => simp [hr, bind, Except.bind] at h
      | ok l =>
        cases hrows : rows.mapM Row.toLock with
        | error e => simp [hr, hrows, bind, Except.bind] at h
        | ok ls => simp [hr, hrows, bind, Except.bind, pure, Except.pure] at h
  · rintro rfl
    rfl

/-- `ensureMoveUnlocked` cleans up, and lets the move go on if it finds nothing. -/
theorem ensureMoveUnlocked_cases (item : VaultRow) (rel : Bytes) (isDir : Bool) (w : World) :
    ∃ res, Service.ensureMoveUnlocked now item rel isDir w =
        (res, { w with locks := cleanupExpired w.locks (now 3) }) ∧
      (res = .ok () ↔ moveUnlocked w.locks (now 3) item rel isDir) := by
  cases isDir with
  | true =>
    let rows := ((cleanupExpired w.locks (now 3)).rows.filter (under item.id rel)).insertionSort
      fun r r' => r.path ≤ r'.path
    have hrows : moveUnlocked w.locks (now 3) item rel true ↔ rows.mapM Row.toLock = .ok [] := by
      rw [mapM_toLock_nil, ← List.length_eq_zero_iff, List.length_insertionSort,
        List.length_eq_zero_iff]
      rfl
    have hactive : Locks.activeUnder w.locks (now 3) item.id rel =
        (rows.mapM Row.toLock, cleanupExpired w.locks (now 3)) := rfl
    rw [hrows]
    unfold Service.ensureMoveUnlocked
    rw [if_pos rfl]
    cases hres : rows.mapM Row.toLock with
    | error e =>
      rw [hres] at hactive
      exact ⟨_, Op.bind_of_error (liftLock_of_error hactive), by simp⟩
    | ok items =>
      rw [hres] at hactive
      rw [Op.bind_of_ok (liftLock_of_ok hactive)]
      refine ⟨_, rfl, ?_⟩
      by_cases hi : items = [] <;> simp [hi]
  | false =>
    have htable := get_table w.locks (now 3) item.id rel
    unfold Service.ensureMoveUnlocked
    rw [if_neg Bool.false_ne_true]
    cases hget : (cleanupExpired w.locks (now 3)).get? (item.id, rel) with
    | none =>
      have hfound : Locks.get w.locks (now 3) item.id rel =
          (.ok none, cleanupExpired w.locks (now 3)) := by
        unfold Locks.get
        rw [hget]
      rw [Op.bind_of_ok (liftLock_of_ok hfound)]
      exact ⟨_, rfl, by simp [moveUnlocked, hget]⟩
    | some r =>
      have hfound : Locks.get w.locks (now 3) item.id rel =
          (r.toLock.map some, cleanupExpired w.locks (now 3)) := by
        unfold Locks.get
        rw [hget]
      cases hl : r.toLock with
      | error e =>
        rw [hl] at hfound
        exact ⟨_, Op.bind_of_error (liftLock_of_error hfound), by simp [moveUnlocked, hget]⟩
      | ok l =>
        rw [hl] at hfound
        rw [Op.bind_of_ok (liftLock_of_ok hfound)]
        exact ⟨_, rfl, by simp [moveUnlocked, hget]⟩

/-- A move from the question whether it meets a lock to its end. -/
theorem movePath_traced (item : VaultRow) (src dst owner : Bytes) (isDir : Bool) (w : World) :
    Traced (effectiveOwner now owner) w.locks ((do
      Service.ensureMoveUnlocked now item src isDir
      s.withFileMutationLock now item src owner
        (liftVault fun t => s.vaultService.rename t item.path src dst)
      s.enqueueVaultChange
      pure item : Op Err World VaultRow) w).2.locks
      (if moveUnlocked w.locks (now 3) item src isDir then
        web s now w.locks item src owner (Fates.untouched.sweep (now 3))
      else Fates.untouched.sweep (now 3)) := by
  obtain ⟨res, hcall, hfree⟩ := @ensureMoveUnlocked_cases now item src isDir w
  have hswept : Traced (effectiveOwner now owner) w.locks (cleanupExpired w.locks (now 3))
      (Fates.untouched.sweep (now 3)) := (Traced.untouched w.locks).sweep (now 3)
  cases res with
  | error e =>
    rw [Op.bind_of_error hcall, if_neg fun h => nomatch hfree.mpr h]
    exact hswept
  | ok u =>
    rw [Op.bind_of_ok hcall, if_pos (hfree.mp rfl)]
    exact web_traced (w := { w with locks := cleanupExpired w.locks (now 3) })
      (liftVault_quiet _) (fun _ => rfl) hswept

/-- A method of the handler from its lock to the release. -/
theorem withMutationLock_traced (s : Service) (authorityOk : Bytes → Bool) (n : Instant)
    (r : Request) (g : Target) (rel : Bytes) (fn : Tree → Except Vault.Err Unit × Tree)
    {locks : FileLocks} (h : Traced (WebDAV.mutationOwner r g) t locks f) (tree : Tree) :
    Traced (WebDAV.mutationOwner r g) t
      ((webdav s authorityOk).withMutationLock n r g rel fn ⟨tree, locks⟩).2.locks
      (davLock s authorityOk t n r g rel f) := by
  unfold Handler.withMutationLock
  cases hacq : (webdav s authorityOk).lockService.acquire locks n g.vault.id rel
      (WebDAV.mutationOwner r g) webdavSource (webdav s authorityOk).lockTTL with
  | mk res u =>
    cases res with
    | error e => exact h.refused hacq _
    | ok l =>
      have hgranted := h.acquired hacq (decide (requestLockToken r = []))
      have hunlocked : (webdav s authorityOk).unlocked r g rel u =
          if decide (requestLockToken r = []) then
            Locks.release u g.vault.id rel (WebDAV.mutationOwner r g) else u := by
        simp only [Handler.unlocked, decide_eq_true_eq]
        rfl
      rw [← hunlocked] at hgranted
      cases hfn : fn tree with
      | mk done tree' => cases done <;> exact hgranted

theorem moveSource_traced {n : Instant} (r : Request) (g : Target) (rel : Bytes)
    (destExists : Bool) {locks : FileLocks}
    (h : Traced (WebDAV.mutationOwner r g) t locks f) (tree : Tree) :
    Traced (WebDAV.mutationOwner r g) t
      ((webdav s authorityOk).moveSource n r g rel destExists ⟨tree, locks⟩).2.locks
      (davLock s authorityOk t n r g g.rel f) := by
  have hlock := withMutationLock_traced s authorityOk n r g g.rel
    (fun tree => (webdav s authorityOk).vaultService.rename tree g.vault.path g.rel rel) h tree
  unfold Handler.moveSource
  split
  all_goals rename_i heq; rw [heq] at hlock; exact hlock

end Locking
section Requests
variable {s : Service} {authorityOk : Bytes → Bool} {now : Nat → Instant}

theorem Mutation.traced (m : Mutation) (w : World) :
    Traced (m.requester now) w.locks (m.run s authorityOk now w).locks
      (m.fates s authorityOk now w) := by
  cases m with
  | writeTextFile userID vaultSlug relPath content owner =>
    simp only [Mutation.requester, Mutation.run, Mutation.fates, onPath, Service.writeTextFile]
    cases hc : s.fileMutationContext userID vaultSlug relPath false with
    | error e => exact Traced.untouched _
    | ok p => exact web_traced (liftVault_quiet _) (stated_quiet p.1 p.2) (Traced.untouched _)
  | createTextFile userID vaultSlug relPath content owner =>
    simp only [Mutation.requester, Mutation.run, Mutation.fates, onPath, Service.createTextFile]
    cases hc : s.fileMutationContext userID vaultSlug relPath false with
    | error e => exact Traced.untouched _
    | ok p =>
      rw [Op.bind_of_ok (Op.ofExcept_ok.mpr ⟨rfl, rfl⟩), Op.bind_of_ok (Op.get_ok.mpr ⟨rfl, rfl⟩)]
      by_cases hf : s.found p.1 p.2 w = true
      · have hno : ¬ s.found p.1 p.2 w = false := by simp [hf]
        simp only [hf, if_true]
        rw [Op.bind_of_error (Op.require_error w hno)]
        exact Traced.untouched _
      · have hno : s.found p.1 p.2 w = false := Bool.eq_false_iff.mpr hf
        simp only [hf, Bool.false_eq_true, if_false]
        rw [Op.bind_of_ok (a := ()) (Op.require_ok.mpr ⟨hno, rfl⟩)]
        exact web_traced (liftVault_quiet _) (stated_quiet p.1 p.2) (Traced.untouched _)
  | createDir userID vaultSlug relPath owner =>
    simp only [Mutation.requester, Mutation.run, Mutation.fates, onPath, Service.createDir]
    cases hc : s.fileMutationContext userID vaultSlug relPath false with
    | error e => exact Traced.untouched _
    | ok p => exact web_traced (liftVault_quiet _) (stated_quiet p.1 p.2) (Traced.untouched _)
  | movePath userID vaultSlug fromPath toPath owner =>
    simp only [Mutation.requester, Mutation.run, Mutation.fates, onPath, Service.movePath]
    cases hc : s.fileMutationContext userID vaultSlug fromPath false with
    | error e => exact Traced.untouched _
    | ok p =>
      rw [Op.bind_of_ok (Op.ofExcept_ok.mpr ⟨rfl, rfl⟩)]
      cases hdst : cleanFilePath toPath false with
      | error e => exact Traced.untouched _
      | ok dst =>
        rw [Op.bind_of_ok (Op.ofExcept_ok.mpr ⟨rfl, rfl⟩), Op.bind_of_ok (Op.get_ok.mpr ⟨rfl, rfl⟩)]
        by_cases hf : s.found p.1 dst w = true
        · have hno : ¬ s.found p.1 dst w = false := by simp [hf]
          rw [Op.bind_of_error (Op.require_error w hno)]
          simp only [hf, if_true]
          exact Traced.untouched _
        · have hno : s.found p.1 dst w = false := Bool.eq_false_iff.mpr hf
          rw [Op.bind_of_ok (a := ()) (Op.require_ok.mpr ⟨hno, rfl⟩)]
          simp only [hf, Bool.false_eq_true, if_false]
          cases hstat : s.vaultService.stat w.tree p.1.path p.2 with
          | error e =>
            have hs : s.stat p.1 p.2 w = (.error (.vault e), w) := by
              unfold Service.stat
              rw [hstat]
            rw [Op.bind_of_error hs]
            exact Traced.untouched _
          | ok info =>
            have hs : s.stat p.1 p.2 w = (.ok info, w) := by
              unfold Service.stat
              rw [hstat]
            rw [Op.bind_of_ok hs]
            exact movePath_traced p.1 p.2 dst owner info.isDir w
  | deletePath userID vaultSlug relPath owner =>
    simp only [Mutation.requester, Mutation.run, Mutation.fates, onPath, Service.deletePath]
    cases hc : s.fileMutationContext userID vaultSlug relPath false with
    | error e => exact Traced.untouched _
    | ok p => exact web_traced (liftVault_quiet _) (fun _ => rfl) (Traced.untouched _)
  | restoreFileFromCommit userID vaultSlug hash relPath owner =>
    simp only [Mutation.requester, Mutation.run, Mutation.fates, onPath,
      Service.restoreFileFromCommit]
    cases hc : s.fileMutationContext userID vaultSlug relPath false with
    | error e => exact Traced.untouched _
    | ok p =>
      rw [Op.bind_of_ok (Op.ofExcept_ok.mpr ⟨rfl, rfl⟩)]
      cases he : s.vaultService.ensureVault w.tree p.1.path with
      | error e =>
        have hens : s.ensureVault p.1 w = (.error (.vault e), w) := by
          unfold Service.ensureVault
          rw [he]
        rw [Op.bind_of_error hens]
        simp only [he, Except.isOk, Except.toBool, Bool.false_eq_true, if_false]
        exact Traced.untouched _
      | ok q =>
        have hens : s.ensureVault p.1 w = (.ok q.1, { w with tree := q.2 }) := by
          unfold Service.ensureVault
          rw [he]
        rw [Op.bind_of_ok hens]
        simp only [he, Except.isOk, Except.toBool, if_true]
        exact web_traced (w := { w with tree := q.2 }) (restoreFile_quiet _ _ _)
          (stated_quiet p.1 p.2) (Traced.untouched _)
  | put r g =>
    simp only [Mutation.requester, Mutation.run, Mutation.fates, served, Handler.put]
    cases hb : r.body with
    | none => exact Traced.untouched _
    | some data =>
      by_cases hl : maxPutBytes < data.length
      · simp only [hl, if_true]
        exact Traced.untouched _
      · simp only [hl, if_false]
        have hlock := withMutationLock_traced s authorityOk (now 2) r g g.rel
          (fun tree => (webdav s authorityOk).vaultService.writeFile tree g.vault.path g.rel data)
          (Traced.untouched w.locks) w.tree
        split
        all_goals rename_i heq; rw [heq] at hlock; exact hlock
  | mkcol r g =>
    simp only [Mutation.requester, Mutation.run, Mutation.fates, served, Handler.mkcol]
    by_cases hd : g.rel = dot
    · simp only [hd, if_true, not_true, ne_eq, false_and, if_false]
      exact Traced.untouched _
    · by_cases hs : (s.vaultService.stat w.tree g.vault.path g.rel).isOk
      · have hs' : ((webdav s authorityOk).vaultService.stat w.tree g.vault.path g.rel).isOk := hs
        simp only [hd, hs, hs', if_true, not_true, false_and, and_false, if_false]
        exact Traced.untouched _
      · have hs' : ¬ ((webdav s authorityOk).vaultService.stat w.tree g.vault.path g.rel).isOk := hs
        by_cases hp : (webdav s authorityOk).parentOk g g.rel w.tree
        · simp only [hd, hs, hs', hp, if_true, if_false, not_false_eq_true, ne_eq, and_self,
            Bool.false_eq_true]
          have hlock := withMutationLock_traced s authorityOk (now 2) r g g.rel
            (fun tree => (webdav s authorityOk).vaultService.mkdir tree g.vault.path g.rel)
            (Traced.untouched w.locks) w.tree
          split
          all_goals rename_i heq; rw [heq] at hlock; exact hlock
        · simp only [hd, hs', hp, if_false, and_false, Bool.false_eq_true]
          exact Traced.untouched _
  | delete r g =>
    simp only [Mutation.requester, Mutation.run, Mutation.fates, served, Handler.delete]
    by_cases hd : g.rel = dot
    · simp only [hd, if_true, not_true, ne_eq, false_and, if_false]
      exact Traced.untouched _
    · by_cases hs : (s.vaultService.stat w.tree g.vault.path g.rel).isOk
      · have hs' : ((webdav s authorityOk).vaultService.stat w.tree g.vault.path g.rel).isOk := hs
        simp only [hd, hs, hs', if_true, if_false, not_false_eq_true, ne_eq, and_self]
        have hlock := withMutationLock_traced s authorityOk (now 2) r g g.rel
          (fun tree => (webdav s authorityOk).vaultService.delete tree g.vault.path g.rel)
          (Traced.untouched w.locks) w.tree
        split
        all_goals rename_i heq; rw [heq] at hlock; exact hlock
      · have hs' : ¬ ((webdav s authorityOk).vaultService.stat w.tree g.vault.path g.rel).isOk := hs
        simp only [hd, hs, hs', if_false, and_false, Bool.false_eq_true]
        exact Traced.untouched _
  | move r g =>
    simp only [Mutation.requester, Mutation.run, Mutation.fates, served, Handler.move]
    cases hg : (webdav s authorityOk).moveGuards r g w.tree with
    | error reply => exact Traced.untouched _
    | ok p =>
      obtain ⟨rel, destExists⟩ := p
      cases destExists with
      | false => exact moveSource_traced r g rel false (Traced.untouched w.locks) w.tree
      | true =>
        have hlock := withMutationLock_traced s authorityOk (now 1) r g rel
          (fun tree => (webdav s authorityOk).vaultService.delete tree g.vault.path rel)
          (Traced.untouched w.locks) w.tree
        simp only
        by_cases hgo : ((webdav s authorityOk).acquired (now 1) r g rel w.locks).isSome ∧
            (s.vaultService.delete w.tree g.vault.path rel).1.isOk
        · rw [if_pos hgo]
          obtain ⟨locks, hacq⟩ := Option.isSome_iff_exists.mp hgo.1
          have hdel : (webdav s authorityOk).vaultService.delete w.tree g.vault.path rel =
              (.ok (), (s.vaultService.delete w.tree g.vault.path rel).2) := by
            refine Prod.ext ?_ rfl
            cases hres : (s.vaultService.delete w.tree g.vault.path rel).1 with
            | error e => exact absurd hgo.2 (by simp [hres, Except.isOk, Except.toBool])
            | ok u => exact hres
          have hw : (webdav s authorityOk).withMutationLock (now 1) r g rel
              (fun tree => (webdav s authorityOk).vaultService.delete tree g.vault.path rel)
              ⟨w.tree, w.locks⟩ = (none, _) := WebDAV.withMutationLock_ok hacq hdel
          rw [hw] at hlock ⊢
          exact moveSource_traced r g rel true hlock _
        · rw [if_neg hgo]
          split
          · rename_i heq
            rw [heq] at hlock
            exact hlock
          · rename_i w' heq
            obtain ⟨locks, hacq, hdel, -⟩ := WebDAV.withMutationLock_none heq
            refine absurd ⟨by rw [hacq]; rfl, ?_⟩ hgo
            have hres := congrArg Prod.fst hdel
            change (s.vaultService.delete w.tree g.vault.path rel).1 = .ok () at hres
            rw [hres]
            rfl

/-- A request leaves the lock table as it found it exactly when every path comes to a safe
fate. -/
theorem Mutation.framed_iff (c : Clock) (m : Mutation) (w : World) :
    Framed c (m.requester c.now) w.locks (m.run s authorityOk c.now w).locks ↔
      ∀ k, (m.fates s authorityOk c.now w k).Safe c (m.requester c.now) (w.locks.get? k) :=
  (m.traced w).framedTable_iff c

end Requests
/-! ### A token nobody holds -/

def noteApp : Service := ⟨noteService, 30000000000, fun _ _ => some WebDAV.noteVault,
  fun _ _ _ _ => none, true⟩

def noteClock : Clock := ⟨0, 0, fun _ => 0, fun _ => le_rfl, fun _ => le_rfl⟩

/-- An upload of `a.md` under the token `t`. -/
def tokenPut : Mutation :=
  .put ⟨.put, utf8 "/notes/a.md", [], [], utf8 "<opaquelocktoken:t>", [], some (utf8 "new")⟩
    ⟨utf8 "alice", WebDAV.noteVault, utf8 "a.md"⟩

/-- The upload succeeds on an empty lock table, and the lock it took stays behind. -/
theorem token_leaves_lock :
    ¬ Framed noteClock (tokenPut.requester noteClock.now) Keyed.empty
      (tokenPut.run noteApp (fun _ => true) noteClock.now ⟨notes, Keyed.empty⟩).locks := by
  intro h
  have hleft : ⟨1, utf8 "a.md", utf8 "t", webdavSource, 30000000000, 0⟩ ∈
      (tokenPut.run noteApp (fun _ => true) noteClock.now ⟨notes, Keyed.empty⟩).locks.rows := by
    decide +kernel
  obtain ⟨r, hr, -⟩ := h.noMore _ hleft (by decide)
  cases hr

end Mdock.App.LockFrame
