import Mdock.Vault.Apart
import Mdock.WebDAV.Sealed

/-! The methods of the handler, as calls on the shelf of their vault. A `MOVE` onto something makes
two of them, and may stop after the first. -/
namespace Mdock.WebDAV
open Mdock.Go Mdock.Lib Mdock.Vault Mdock.Locks Mdock.Store

/-- The tree stands for `a`. -/
def Holding {σ τ A : Type} (R : σ → A → Prop) (w : World σ τ) (a : A) : Prop := R w.tree a

/-- Not an error. -/
def Reply.Accepted (a : Reply) : Prop := ¬ a.isError

instance (a : Reply) : Decidable a.Accepted := inferInstanceAs (Decidable (¬ _))

/-- The calls of a `MOVE` that nothing refuses. -/
def Handler.moveWork (h : Handler Tree FileLocks) (r : Request) (t : Target) (tree : Tree) :
    List Vault.Call :=
  match h.moveGuards r t tree with
  | .error _ => []
  | .ok (rel, false) => [.rename t.rel rel]
  | .ok (rel, true) => [.delete rel, .rename t.rel rel]

/-- The calls of a request. -/
def Handler.work (h : Handler Tree FileLocks) (r : Request) (t : Target) (tree : Tree) :
    List Vault.Call :=
  match r.method with
  | .put => r.body.toList.map (.writeFile t.rel)
  | .mkcol => [.mkdir t.rel]
  | .delete => [.delete t.rel]
  | .move => h.moveWork r t tree
  | .lock | .unlock => []

section Methods
variable {σ τ A κ : Type} {R : σ → A → Prop} {step : κ → A → A → Prop} {h : Handler σ τ}
  {now : Instant} {r : Request} {t : Target} {calls tasks : List κ} {a : A} {w : World σ τ}
  {fn : σ → Except Vault.Err Unit × σ}

theorem refusal {reply : Reply} (ha : reply.isError) (hw : Holding R w a) :
    Outcome (Holding R) step Reply.Accepted tasks a (reply, w) :=
  .refused (fun hok => hok ha) hw

theorem withMutationLock_works (rel : Bytes)
    (hfn : Carries R step (fun x => x = .ok ()) calls fn) :
    Carries (Holding R) step (fun x => x = none) calls
      (h.withMutationLock now r t rel fn) := by
  intro w a hw
  cases hacq : h.acquired now r t rel w.locks with
  | none =>
    obtain ⟨reply, locks, -, he⟩ := @withMutationLock_refused _ _ h _ _ _ _ fn _ hacq
    rw [he]
    exact .refused (by simp) hw
  | some locks =>
    rw [withMutationLock_granted hacq]
    refine (hfn w.tree a hw).answer (fun _ hb => hb) fun hnone => ?_
    rcases hx : (fn w.tree).1 with e | ⟨⟩
    · simp only [hx] at hnone
      cases hnone
    · rfl

/-- A change under its lock, and what is done after it. -/
theorem locked_works (rel : Bytes)
    (hfn : Carries R step (fun x => x = .ok ()) calls fn)
    {k : World σ τ → Reply × World σ τ}
    (hk : Carries (Holding R) step Reply.Accepted tasks k) :
    Carries (Holding R) step Reply.Accepted (calls ++ tasks)
      (fun w => match h.withMutationLock now r t rel fn w with
        | (some reply, w) => (reply, w)
        | (none, w) => k w) := by
  intro w a hw
  have hlock : Outcome (Holding R) step (fun x => x = none) calls a
      (h.withMutationLock now r t rel fn w) := withMutationLock_works rel hfn w a hw
  rcases hx : h.withMutationLock now r t rel fn w with ⟨_ | reply, u⟩
  · rw [hx] at hlock
    simp only [hx]
    exact hlock.then rfl hk
  · rw [hx] at hlock
    simp only [hx]
    exact hlock.fail fun hok => hok (withMutationLock_some hx).1

/-- A change under its lock, and the answer to it. -/
theorem answered_works (rel : Bytes) (reply : Reply)
    (hfn : Carries R step (fun x => x = .ok ()) calls fn) :
    Carries (Holding R) step Reply.Accepted calls
      (fun w => match h.withMutationLock now r t rel fn w with
        | (some reply, w) => (reply, w)
        | (none, w) => (reply, w)) := by
  have hlock : Carries (Holding R) step Reply.Accepted (calls ++ [])
      (fun w => match h.withMutationLock now r t rel fn w with
        | (some reply, w) => (reply, w)
        | (none, w) => (reply, w)) := locked_works rel hfn (.idle fun _ _ hw => hw)
  rwa [List.append_nil] at hlock

end Methods

/-- On the vault at `path` the service carries out its calls. -/
structure VaultService.Works (s : VaultService Tree) (tree : Tree) (place : Loc) (path : Bytes) :
    Prop where
  writeFile : ∀ rel data, Carries (Left tree place) Shelf.Does (fun x => x = .ok ())
    [.writeFile rel data] fun t => s.writeFile t path rel data
  mkdir : ∀ rel, Carries (Left tree place) Shelf.Does (fun x => x = .ok ()) [.mkdir rel]
    fun t => s.mkdir t path rel
  rename : ∀ old new, Carries (Left tree place) Shelf.Does (fun x => x = .ok ())
    [.rename old new] fun t => s.rename t path old new
  delete : ∀ rel, Carries (Left tree place) Shelf.Does (fun x => x = .ok ()) [.delete rel]
    fun t => s.delete t path rel

theorem vaultService_works {s : Vault.Service} {tree : Tree} {place : Loc} {path : Bytes}
    (hv : s.vaultRoot path = .ok place) (hplace : ∀ a ∈ place, Plain a) :
    (vaultService s).Works tree place path :=
  ⟨fun rel data => (writeFile_performs s path rel data).carries hv hplace,
    fun rel => (mkdir_performs s path rel).carries hv hplace,
    fun old new => (rename_performs s path old new).carries hv hplace,
    fun rel => (delete_performs s path rel).carries hv hplace⟩

section Service
variable {h : Handler Tree FileLocks} {now now₁ now₂ : Instant} {r : Request} {t : Target}
  {tree : Tree} {place : Loc} {F : Shelf} {w : World Tree FileLocks}
  (hs : h.vaultService.Works tree place t.vault.path)
include hs

theorem put_works (hw : Holding (Left tree place) w F) :
    Outcome (Holding (Left tree place)) Shelf.Does Reply.Accepted
      (r.body.toList.map (.writeFile t.rel)) F
      (h.put now r t w) := by
  simp only [Handler.put]
  cases r.body with
  | none => exact refusal (by decide) hw
  | some data =>
    simp only
    split
    · exact refusal (by decide) hw
    · exact answered_works t.rel _ (hs.writeFile t.rel data) w F hw

theorem mkcol_works (hw : Holding (Left tree place) w F) :
    Outcome (Holding (Left tree place)) Shelf.Does Reply.Accepted [.mkdir t.rel] F
      (h.mkcol now r t w) := by
  simp only [Handler.mkcol]
  split
  · exact refusal (by decide) hw
  · split
    · exact refusal (by decide) hw
    · split
      · exact answered_works t.rel _ (hs.mkdir t.rel) w F hw
      · exact refusal (by decide) hw

theorem delete_works (hw : Holding (Left tree place) w F) :
    Outcome (Holding (Left tree place)) Shelf.Does Reply.Accepted [.delete t.rel] F
      (h.delete now r t w) := by
  simp only [Handler.delete]
  split
  · exact refusal (by decide) hw
  · split
    · exact answered_works t.rel _ (hs.delete t.rel) w F hw
    · exact refusal (by decide) hw

theorem move_works (hw : Holding (Left tree place) w F) :
    Outcome (Holding (Left tree place)) Shelf.Does Reply.Accepted
      (h.moveWork r t w.tree) F
      (h.move now₁ now₂ r t w) := by
  have hsource : ∀ rel destExists, Carries (Holding (Left tree place)) Shelf.Does Reply.Accepted
      [.rename t.rel rel] (h.moveSource now₂ r t rel destExists) :=
    fun rel _ => answered_works t.rel _ (hs.rename t.rel rel)
  simp only [Handler.move, Handler.moveWork]
  cases hg : h.moveGuards r t w.tree with
  | error reply => exact refusal (moveGuards_error hg) hw
  | ok x =>
    obtain ⟨rel, _ | _⟩ := x
    · exact hsource rel false w F hw
    · exact locked_works rel (hs.delete rel) (hsource rel true) w F hw

omit hs in
theorem lock_works (token : Bytes) (hw : Holding (Left tree place) w F) :
    Outcome (Holding (Left tree place)) Shelf.Does Reply.Accepted [] F (h.lock now token t w) := by
  unfold Handler.lock
  split <;> exact .idle hw

omit hs in
theorem unlock_works (hw : Holding (Left tree place) w F) :
    Outcome (Holding (Left tree place)) Shelf.Does Reply.Accepted [] F (h.unlock r t w) := by
  unfold Handler.unlock
  split
  · exact .idle hw
  · split <;> exact .idle hw

/-- A request does a first part of its calls, and all of them if it is accepted. -/
theorem serve_works {vaultFor : Bytes → Option VaultRow} {slug : Bytes} (token : Bytes)
    (now₁ now₂ : Instant) (hp : parsePath r.path = .ok (slug, t.rel))
    (hi : vaultFor slug = some t.vault)
    (hw : Holding (Left tree place) w F) :
    Outcome (Holding (Left tree place)) Shelf.Does Reply.Accepted
      (h.work r t w.tree) F
      (h.serve vaultFor t.login token now₁ now₂ r w) := by
  simp only [Handler.serve, Handler.work, hp, hi]
  cases r.method with
  | put => exact put_works hs hw
  | mkcol => exact mkcol_works hs hw
  | delete => exact delete_works hs hw
  | move => exact move_works hs hw
  | lock => exact lock_works token hw
  | unlock => exact unlock_works hw

end Service
end Mdock.WebDAV
