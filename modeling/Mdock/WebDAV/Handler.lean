import Mdock.Locks.Service
import Mdock.Vault.Service
import Mdock.WebDAV.Paths

/-! The WebDAV methods that change files or locks, over the two interfaces the handler is
given. A method is a function from the world it finds to its answer and the world it
leaves; the times are what the lock service reads from the clock. -/
namespace Mdock.WebDAV
open Mdock.Go Mdock.Vault Mdock.Locks Mdock.Store

structure VaultService (σ : Type) where
  stat : σ → Bytes → Bytes → Except Vault.Err Info
  writeFile : σ → Bytes → Bytes → Bytes → Except Vault.Err Unit × σ
  mkdir : σ → Bytes → Bytes → Except Vault.Err Unit × σ
  rename : σ → Bytes → Bytes → Bytes → Except Vault.Err Unit × σ
  delete : σ → Bytes → Bytes → Except Vault.Err Unit × σ

structure LockService (τ : Type) where
  acquire : τ → Instant → Int → Bytes → Bytes → Bytes → Int → Except Locks.Err Lock × τ
  release : τ → Int → Bytes → Bytes → Except Locks.Err Unit × τ

/-- `authorityOk` stands for the checks of `net/url` on the host of a Destination. -/
structure Handler (σ τ : Type) where
  vaultService : VaultService σ
  lockService : LockService τ
  lockTTL : Int
  authorityOk : Bytes → Bool

structure World (σ τ : Type) where
  tree : σ
  locks : τ

inductive Method
  | put | mkcol | delete | move | lock | unlock
  deriving DecidableEq

def Method.text : Method → Bytes
  | .put => utf8 "PUT"
  | .mkcol => utf8 "MKCOL"
  | .delete => utf8 "DELETE"
  | .move => utf8 "MOVE"
  | .lock => utf8 "LOCK"
  | .unlock => utf8 "UNLOCK"

/-- A request after the router stripped its path; a header that is not set is empty, a
body that cannot be read is `none`. -/
structure Request where
  method : Method
  path : Bytes
  destination : Bytes
  overwrite : Bytes
  lockToken : Bytes
  ifHeader : Bytes
  body : Option Bytes

structure Target where
  login : Bytes
  vault : VaultRow
  rel : Bytes

/-- Status and text of an answer, and the paths handed to the git queue before it. -/
structure Reply where
  status : Nat
  text : String
  enqueued : Option (List Bytes) := none
  deriving DecidableEq

def Reply.isError (r : Reply) : Prop := 400 ≤ r.status

instance (r : Reply) : Decidable r.isError := inferInstanceAs (Decidable (_ ≤ _))

def notFound : Reply := ⟨404, "404 page not found", none⟩

def webdavSource : Bytes := utf8 "webdav"

def cleanLockToken (input : Bytes) : Bytes :=
  let token := trimSuffix (trimPrefix (trimSpace input) (utf8 "<")) (utf8 ">")
  trimSpace (trimPrefix token (utf8 "opaquelocktoken:"))

@[irreducible] def requestLockToken (r : Request) : Bytes :=
  if cleanLockToken r.lockToken ≠ [] then cleanLockToken r.lockToken
  else
    match from? (utf8 "<opaquelocktoken:") r.ifHeader with
    | none => []
    | some rest =>
      match cut 0x3E rest with
      | (_, none) => []
      | (token, some _) => cleanLockToken (token ++ utf8 ">")

/-- The owner of the lock a method takes for itself. -/
def mutationOwner (r : Request) (t : Target) : Bytes :=
  if requestLockToken r = [] then utf8 "webdav:" ++ t.login ++ utf8 ":" ++ r.method.text
  else requestLockToken r

variable {σ τ : Type} (h : Handler σ τ)

/-- The lock table after a method's own lock was given back. -/
def Handler.unlocked (r : Request) (t : Target) (rel : Bytes) (locks : τ) : τ :=
  if requestLockToken r = [] then
    (h.lockService.release locks t.vault.id rel (mutationOwner r t)).2
  else locks

/-- The answer to a lock that is not granted. -/
def lockFailure (e : Locks.Err) : Reply :=
  if e = .locked then ⟨423, "locked", none⟩ else ⟨500, "lock failed", none⟩

/-- Run `fn` under the lock on `rel`; `none` is the `true` of the source. -/
def Handler.withMutationLock (now : Instant) (r : Request) (t : Target) (rel : Bytes)
    (fn : σ → Except Vault.Err Unit × σ) (w : World σ τ) : Option Reply × World σ τ :=
  match h.lockService.acquire w.locks now t.vault.id rel (mutationOwner r t) webdavSource
      h.lockTTL with
  | (.error e, locks) => (some (lockFailure e), { w with locks := locks })
  | (.ok _, locks) =>
    match fn w.tree with
    | (.error _, tree) =>
      (some ⟨400, "file operation failed", none⟩, ⟨tree, h.unlocked r t rel locks⟩)
    | (.ok _, tree) => (none, ⟨tree, h.unlocked r t rel locks⟩)

def maxPutBytes : Nat := 128 * 1024 * 1024

def Handler.put (now : Instant) (r : Request) (t : Target) (w : World σ τ) :
    Reply × World σ τ :=
  let status := if (h.vaultService.stat w.tree t.vault.path t.rel).isOk then 204 else 201
  match r.body with
  | none => (⟨400, "read body", none⟩, w)
  | some data =>
    if maxPutBytes < data.length then (⟨413, "request body too large", none⟩, w)
    else
      match h.withMutationLock now r t t.rel
          (fun tree => h.vaultService.writeFile tree t.vault.path t.rel data) w with
      | (some reply, w) => (reply, w)
      | (none, w) => (⟨status, "", some [t.rel]⟩, w)

/-- The parent of a path is the root or a directory. -/
def Handler.parentOk (t : Target) (rel : Bytes) (tree : σ) : Bool :=
  if dir rel = dot then true
  else
    match h.vaultService.stat tree t.vault.path (dir rel) with
    | .ok info => info.isDir
    | .error _ => false

def Handler.mkcol (now : Instant) (r : Request) (t : Target) (w : World σ τ) :
    Reply × World σ τ :=
  if t.rel = dot then (⟨405, "cannot create vault root", none⟩, w)
  else if (h.vaultService.stat w.tree t.vault.path t.rel).isOk then
    (⟨405, "collection already exists", none⟩, w)
  else if h.parentOk t t.rel w.tree then
    match h.withMutationLock now r t t.rel
        (fun tree => h.vaultService.mkdir tree t.vault.path t.rel) w with
    | (some reply, w) => (reply, w)
    | (none, w) => (⟨201, "", some [t.rel]⟩, w)
  else (⟨409, "parent collection does not exist", none⟩, w)

def Handler.delete (now : Instant) (r : Request) (t : Target) (w : World σ τ) :
    Reply × World σ τ :=
  if t.rel = dot then (⟨403, "cannot delete vault root", none⟩, w)
  else if (h.vaultService.stat w.tree t.vault.path t.rel).isOk then
    match h.withMutationLock now r t t.rel
        (fun tree => h.vaultService.delete tree t.vault.path t.rel) w with
    | (some reply, w) => (reply, w)
    | (none, w) => (⟨204, "", some []⟩, w)
  else (notFound, w)

/-- `!strings.EqualFold(Overwrite, "F")`. -/
def overwrites (r : Request) : Prop := r.overwrite ≠ utf8 "F" ∧ r.overwrite ≠ utf8 "f"

instance (r : Request) : Decidable (overwrites r) := inferInstanceAs (Decidable (_ ∧ _))

/-- What `MOVE` checks before it changes anything: the path of the destination and
whether it exists, or the answer. -/
def Handler.moveGuards (r : Request) (t : Target) (tree : σ) : Except Reply (Bytes × Bool) :=
  if r.destination = [] then .error ⟨400, "destination required", none⟩
  else
    match parseDestination h.authorityOk r.destination with
    | .error _ => .error ⟨400, "invalid destination", none⟩
    | .ok (slug, rel) =>
      let destExists := (h.vaultService.stat tree t.vault.path rel).isOk
      if slug ≠ t.vault.slug then .error ⟨400, "invalid destination", none⟩
      else if t.rel = dot ∨ rel = dot then .error ⟨403, "cannot move vault root", none⟩
      else if ¬ (h.vaultService.stat tree t.vault.path t.rel).isOk then .error notFound
      else if destExists ∧ ¬ overwrites r then .error ⟨412, "destination exists", none⟩
      else if h.parentOk t rel tree then .ok (rel, destExists)
      else .error ⟨409, "destination parent does not exist", none⟩

/-- The rename, once nothing is in its way any more. -/
def Handler.moveSource (now : Instant) (r : Request) (t : Target) (rel : Bytes)
    (destExists : Bool) (w : World σ τ) : Reply × World σ τ :=
  match h.withMutationLock now r t t.rel
      (fun tree => h.vaultService.rename tree t.vault.path t.rel rel) w with
  | (some reply, w) => (reply, w)
  | (none, w) => (⟨if destExists then 204 else 201, "", some [t.rel, rel]⟩, w)

def Handler.move (now₁ now₂ : Instant) (r : Request) (t : Target) (w : World σ τ) :
    Reply × World σ τ :=
  match h.moveGuards r t w.tree with
  | .error reply => (reply, w)
  | .ok (rel, false) => h.moveSource now₂ r t rel false w
  | .ok (rel, true) =>
    match h.withMutationLock now₁ r t rel
        (fun tree => h.vaultService.delete tree t.vault.path rel) w with
    | (some reply, w) => (reply, w)
    | (none, w) => h.moveSource now₂ r t rel true w

/-- `token` is the fresh random token. -/
def Handler.lock (now : Instant) (token : Bytes) (t : Target) (w : World σ τ) :
    Reply × World σ τ :=
  match h.lockService.acquire w.locks now t.vault.id t.rel token webdavSource h.lockTTL with
  | (.error e, locks) => (lockFailure e, { w with locks := locks })
  | (.ok _, locks) => (⟨200, "", none⟩, { w with locks := locks })

def Handler.unlock (r : Request) (t : Target) (w : World σ τ) : Reply × World σ τ :=
  if cleanLockToken r.lockToken = [] then (⟨400, "lock token required", none⟩, w)
  else
    match h.lockService.release w.locks t.vault.id t.rel (cleanLockToken r.lockToken) with
    | (.error _, locks) => (⟨500, "unlock failed", none⟩, { w with locks := locks })
    | (.ok _, locks) => (⟨204, "", none⟩, { w with locks := locks })

/-- `ServeHTTP` for an authenticated user; `vaultFor` is `VaultForUserBySlug`. -/
def Handler.serve (vaultFor : Bytes → Option VaultRow) (login token : Bytes)
    (now₁ now₂ : Instant) (r : Request) (w : World σ τ) : Reply × World σ τ :=
  match parsePath r.path with
  | .error _ => (⟨400, "bad webdav path", none⟩, w)
  | .ok (slug, rel) =>
    match vaultFor slug with
    | none => (notFound, w)
    | some vault =>
      let t : Target := ⟨login, vault, rel⟩
      match r.method with
      | .put => h.put now₁ r t w
      | .mkcol => h.mkcol now₁ r t w
      | .delete => h.delete now₁ r t w
      | .move => h.move now₁ now₂ r t w
      | .lock => h.lock now₁ token t w
      | .unlock => h.unlock r t w

/-! ### The services of the program -/

def vaultService (s : Vault.Service) : VaultService Tree where
  stat := s.stat
  writeFile := s.writeFile
  mkdir := s.mkdir
  rename := s.rename
  delete := s.delete

def lockService : LockService FileLocks where
  acquire := acquire
  release t vaultID path owner := (.ok (), Locks.release t vaultID path owner)

def handler (s : Vault.Service) (lockTTL : Int) (authorityOk : Bytes → Bool) :
    Handler Tree FileLocks := ⟨vaultService s, lockService, lockTTL, authorityOk⟩

def noteHandler : Handler Tree FileLocks := handler noteService 30000000000 fun _ => true

def noteVault : VaultRow := ⟨1, utf8 "notes", utf8 "v"⟩

/-! ### The lock around a change -/

/-- The lock table with the lock a method needs, if it is granted. -/
def Handler.acquired (h : Handler σ τ) (now : Instant) (r : Request) (t : Target) (rel : Bytes)
    (locks : τ) : Option τ :=
  match h.lockService.acquire locks now t.vault.id rel (mutationOwner r t) webdavSource
      h.lockTTL with
  | (.error _, _) => none
  | (.ok _, locks) => some locks

section MutationLock
variable {h : Handler σ τ} {now : Instant} {r : Request} {t : Target} {rel : Bytes}
  {fn : σ → Except Vault.Err Unit × σ} {w w' : World σ τ} {reply : Reply} {locks : τ}

theorem lockFailure_isError (e : Locks.Err) : (lockFailure e).isError := by
  cases e <;> decide

theorem withMutationLock_refused (hacq : h.acquired now r t rel w.locks = none) :
    ∃ reply locks, reply.isError ∧
      h.withMutationLock now r t rel fn w = (some reply, { w with locks := locks }) := by
  unfold Handler.acquired at hacq
  unfold Handler.withMutationLock
  split at hacq
  · rename_i e locks _
    exact ⟨lockFailure e, locks, lockFailure_isError e, rfl⟩
  · cases hacq

theorem withMutationLock_granted (hacq : h.acquired now r t rel w.locks = some locks) :
    h.withMutationLock now r t rel fn w =
      ((match (fn w.tree).1 with
        | .error _ => some ⟨400, "file operation failed", none⟩
        | .ok _ => none), ⟨(fn w.tree).2, h.unlocked r t rel locks⟩) := by
  unfold Handler.acquired at hacq
  unfold Handler.withMutationLock
  split at hacq
  · cases hacq
  · cases hacq
    cases hfn : fn w.tree with
    | mk res tree => cases res <;> rfl

/-- All that a change that went through tells. -/
theorem withMutationLock_none (hw : h.withMutationLock now r t rel fn w = (none, w')) :
    ∃ locks, h.acquired now r t rel w.locks = some locks ∧ fn w.tree = (.ok (), w'.tree) ∧
      w'.locks = h.unlocked r t rel locks := by
  cases hacq : h.acquired now r t rel w.locks with
  | none =>
    obtain ⟨reply, locks, -, he⟩ := @withMutationLock_refused _ _ h _ _ _ _ fn _ hacq
    rw [he] at hw
    cases hw
  | some locks =>
    rw [withMutationLock_granted hacq] at hw
    cases hfn : fn w.tree with
    | mk res tree =>
      rw [hfn] at hw
      cases res with
      | error e => cases hw
      | ok u =>
        cases hw
        exact ⟨locks, rfl, rfl, rfl⟩

theorem withMutationLock_ok {tree : σ} (hacq : h.acquired now r t rel w.locks = some locks)
    (hfn : fn w.tree = (.ok (), tree)) :
    h.withMutationLock now r t rel fn w = (none, ⟨tree, h.unlocked r t rel locks⟩) := by
  rw [withMutationLock_granted hacq, hfn]

/-- A change that is refused was not made, if `fn` fails without effect. -/
theorem withMutationLock_some (hw : h.withMutationLock now r t rel fn w = (some reply, w')) :
    reply.isError ∧
      ((∀ e tree, fn w.tree = (.error e, tree) → tree = w.tree) → w'.tree = w.tree) := by
  cases hacq : h.acquired now r t rel w.locks with
  | none =>
    obtain ⟨reply', locks, herr, he⟩ := @withMutationLock_refused _ _ h _ _ _ _ fn _ hacq
    rw [he] at hw
    cases hw
    exact ⟨herr, fun _ => rfl⟩
  | some locks =>
    rw [withMutationLock_granted hacq] at hw
    cases hfn : fn w.tree with
    | mk res tree =>
      rw [hfn] at hw
      cases res with
      | ok u => cases hw
      | error e =>
        cases hw
        exact ⟨by decide, fun hat => hat e tree rfl⟩

end MutationLock

/-! ### What an answer that is no error tells -/

section Success
variable {h : Handler σ τ} {now now₁ now₂ : Instant} {r : Request} {t : Target} {w : World σ τ}

theorem put_ok (hok : ¬ (h.put now r t w).1.isError) : ∃ data w',
    h.withMutationLock now r t t.rel
      (fun tree => h.vaultService.writeFile tree t.vault.path t.rel data) w = (none, w') ∧
    (h.put now r t w).2 = w' := by
  unfold Handler.put at hok ⊢
  cases hb : r.body with
  | none =>
    rw [hb] at hok
    exact absurd (by decide : 400 ≤ 400) hok
  | some data =>
    rw [hb] at hok
    simp only at hok ⊢
    by_cases hl : maxPutBytes < data.length
    · rw [if_pos hl] at hok
      exact absurd (by decide : 400 ≤ 413) hok
    · rw [if_neg hl] at hok ⊢
      cases hw : h.withMutationLock now r t t.rel
          (fun tree => h.vaultService.writeFile tree t.vault.path t.rel data) w with
      | mk res w' =>
        cases res with
        | some reply =>
          rw [hw] at hok
          exact absurd (withMutationLock_some hw).1 hok
        | none => exact ⟨data, w', hw, rfl⟩

theorem delete_ok (hok : ¬ (h.delete now r t w).1.isError) : ∃ w',
    h.withMutationLock now r t t.rel
      (fun tree => h.vaultService.delete tree t.vault.path t.rel) w = (none, w') ∧
    (h.delete now r t w).2 = w' := by
  unfold Handler.delete at hok ⊢
  by_cases hd : t.rel = dot
  · rw [if_pos hd] at hok
    exact absurd (by decide : 400 ≤ 403) hok
  · rw [if_neg hd] at hok ⊢
    by_cases hs : (h.vaultService.stat w.tree t.vault.path t.rel).isOk
    · rw [if_pos hs] at hok ⊢
      cases hw : h.withMutationLock now r t t.rel
          (fun tree => h.vaultService.delete tree t.vault.path t.rel) w with
      | mk res w' =>
        cases res with
        | some reply =>
          rw [hw] at hok
          exact absurd (withMutationLock_some hw).1 hok
        | none => exact ⟨w', rfl, rfl⟩
    · rw [if_neg hs] at hok
      exact absurd (by decide : 400 ≤ 404) hok

theorem moveSource_ok {rel : Bytes} {destExists : Bool}
    (hok : ¬ (h.moveSource now r t rel destExists w).1.isError) : ∃ w',
    h.withMutationLock now r t t.rel
      (fun tree => h.vaultService.rename tree t.vault.path t.rel rel) w = (none, w') ∧
    (h.moveSource now r t rel destExists w).2 = w' := by
  unfold Handler.moveSource at hok ⊢
  cases hw : h.withMutationLock now r t t.rel
      (fun tree => h.vaultService.rename tree t.vault.path t.rel rel) w with
  | mk res w' =>
    cases res with
    | some reply =>
      rw [hw] at hok
      exact absurd (withMutationLock_some hw).1 hok
    | none => exact ⟨w', rfl, rfl⟩

theorem moveGuards_error {tree : σ} {reply : Reply} (hg : h.moveGuards r t tree = .error reply) :
    reply.isError := by
  unfold Handler.moveGuards at hg
  split at hg
  · cases hg
    decide
  · split at hg
    · cases hg
      decide
    · simp only at hg
      split at hg
      · cases hg
        decide
      · split at hg
        · cases hg
          decide
        · split at hg
          · cases hg
            decide
          · split at hg
            · cases hg
              decide
            · split at hg
              · cases hg
              · cases hg
                decide

/-- A `MOVE` goes through the guards, perhaps a deletion, and the rename. -/
theorem move_ok (hok : ¬ (h.move now₁ now₂ r t w).1.isError) : ∃ rel destExists w' w'',
    h.moveGuards r t w.tree = .ok (rel, destExists) ∧
    (if destExists then h.withMutationLock now₁ r t rel
      (fun tree => h.vaultService.delete tree t.vault.path rel) w = (none, w') else w' = w) ∧
    h.withMutationLock now₂ r t t.rel
      (fun tree => h.vaultService.rename tree t.vault.path t.rel rel) w' = (none, w'') ∧
    (h.move now₁ now₂ r t w).2 = w'' := by
  unfold Handler.move at hok ⊢
  cases hg : h.moveGuards r t w.tree with
  | error reply =>
    rw [hg] at hok
    exact absurd (moveGuards_error hg) hok
  | ok p =>
    obtain ⟨rel, destExists⟩ := p
    rw [hg] at hok
    cases destExists with
    | false =>
      obtain ⟨w'', hw, he⟩ := moveSource_ok hok
      exact ⟨rel, false, w, w'', rfl, by simp, hw, he⟩
    | true =>
      simp only at hok ⊢
      cases hw : h.withMutationLock now₁ r t rel
          (fun tree => h.vaultService.delete tree t.vault.path rel) w with
      | mk res w' =>
        rw [hw] at hok
        cases res with
        | some reply => exact absurd (withMutationLock_some hw).1 hok
        | none =>
          obtain ⟨w'', hw', he⟩ := moveSource_ok hok
          exact ⟨rel, true, w', w'', rfl, by simpa using hw, hw', he⟩

end Success
end Mdock.WebDAV
