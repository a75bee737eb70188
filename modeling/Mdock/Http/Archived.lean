import Mdock.Http.Sealed

/-! A vault in the archive is frozen for everybody, its owner included, until it is taken out. -/
namespace Mdock.Http
open Mdock.Go Mdock.Lib Mdock.Store Mdock.Locks.Expiry Mdock.App

variable {srv : Server} {env : Env} {user : User} {d d' : Db} {id : Int} {slug : Bytes}

/-- The vault is there under its slug, in the archive. -/
def Archived (id : Int) (slug : Bytes) (d : Db) : Prop :=
  ∃ v ∈ d.vaults.table.rows, v.id = id ∧ v.slug = slug ∧ v.archived = true

/-- No request of the run takes the vault of the slug out of the archive. -/
def Kept (srv : Server) (slug : Bytes) : State → List Call → Prop
  | _, [] => True
  | s, c :: cs => ¬ c.unarchives srv s slug ∧ Kept srv slug (c.after srv s) cs

/-! ### It stays in the archive -/

theorem Archived.founded {userID : Int} {d₁ : Db} (h : Archived id slug d)
    (hf : Founded userID d₁ d') (hv : d₁.vaults = d.vaults) : Archived id slug d' := by
  obtain ⟨w, hw, hrest⟩ := h
  obtain ⟨v, now, hrows, -⟩ := hf.rows
  refine ⟨w, ?_, hrest⟩
  rw [hrows, hv]
  exact List.mem_append_left _ hw

theorem Archived.step {draw : Bytes} {freed : Int → Prop} (hkept : ¬ freed id)
    (h : Archived id slug d) (hc : Change draw freed d d') : Archived id slug d' := by
  cases hc with
  | loggedIn | ended | password | disabled | enabled => exact h
  | vault vid f hs hp hi ha =>
    obtain ⟨v, hv, rfl, rfl, harch⟩ := h
    refine ⟨_, (Vaults.mem_updateByID hs hp hi).mpr ⟨v, hv, rfl⟩, ?_⟩
    split
    · rename_i he
      exact ⟨hi v, hs v, (ha v harch).resolve_right (he ▸ hkept)⟩
    · exact ⟨rfl, rfl, harch⟩
  | registered hfree hadmin hf => exact h.founded hf rfl
  | founded hf => exact h.founded hf rfl

theorem Archived.after {s : State} {c : Call} (h : Archived id slug s.db)
    (hkept : ¬ c.unarchives srv s slug) : Archived id slug (c.after srv s).db := by
  obtain ⟨v, hv, hid, hslug, harch⟩ := h
  have hfreed : ¬ c.freed srv s id := by
    rintro ⟨w, hw, he, hun⟩
    have hsame : w = v := List.inj_on_of_nodup_map s.db.vaults.ids hw hv (he.trans hid.symm)
    exact hkept (hslug ▸ hsame ▸ hun)
  exact c.keeps ⟨v, hv, hid, hslug, harch⟩ fun _ _ => Archived.step hfreed

theorem Archived.run {s : State} (h : Archived id slug s.db) {calls : List Call}
    (hkept : Kept srv slug s calls) : Archived id slug (srv.run s calls).db := by
  induction calls generalizing s with
  | nil => exact h
  | cons c calls ih => exact ih (h.after hkept.1) hkept.2

/-! ### Nobody finds it -/

/-- The lookup of the file operations passes over the archive. -/
theorem Archived.vaultFor (h : Archived id slug d) {userID : Int} {slug' : Bytes} {item : VaultRow}
    (hi : Server.vaultFor d userID slug' = some item) : item.id ≠ id ∧ slug' ≠ slug := by
  obtain ⟨v, hv, rfl, rfl, harch⟩ := h
  obtain ⟨⟨w, role⟩, hw, rfl⟩ := Option.map_eq_some_iff.mp hi
  obtain ⟨hmem, rfl, hopen, -⟩ := vaultForUserBySlug_some.mp hw
  have hne : w ≠ v := by
    rintro rfl
    simp [harch] at hopen
  exact ⟨fun he => hne (List.inj_on_of_nodup_map d.vaults.ids hmem hv he),
    fun he => hne (List.inj_on_of_nodup_map d.vaults.table.nodup hmem hv he)⟩

theorem Archived.elsewhere {s : State} (h : Archived id slug s.db) {calls : List Call}
    (hkept : Kept srv slug s calls) : Elsewhere srv id s calls := by
  induction calls generalizing s with
  | nil => trivial
  | cons c calls ih =>
    refine ⟨fun item hi => ?_, ih (h.after hkept.1) hkept.2⟩
    obtain ⟨user, -, hslug⟩ := Option.bind_eq_some_iff.mp hi
    obtain ⟨slug', -, hvault⟩ := Option.bind_eq_some_iff.mp hslug
    exact (h.vaultFor hvault).1

/-! ### A request that names it -/

section Refused
variable {w : App.World} {α : Type}

/-- An operation that looks for a vault that nobody finds. -/
theorem context_noVault {s : App.Service} {userID : Int} (h : s.vaultFor userID slug = none)
    (rel : Bytes) (allowRoot : Bool) (f : VaultRow × Bytes → Op App.Err App.World α) :
    (Op.ofExcept (s.fileMutationContext userID slug rel allowRoot) >>= f) w =
      (.error .noVault, w) := by
  unfold App.Service.fileMutationContext
  rw [h]
  rfl

theorem fileOp_refused {op : Op App.Err App.World α} (ok : α → Response) {e : App.Err}
    (h : op w = (.error e, w)) : (Server.fileOp op ok w).2 = w := by
  rw [Server.fileOp, h]

theorem withPath_refused {body : Option Fields} {paths : Fields → List Bytes}
    {op : Fields → Response × App.World} (h : ∀ f, (op f).2 = w) :
    (Server.withPath body paths w op).2 = w := by
  unfold Server.withPath
  split
  · rfl
  · split
    · rfl
    · exact h _

theorem fileRoute_refused (h : Server.vaultFor d user.id slug = none) (q : Request)
    (route : VaultRoute) : (srv.fileRoute env user q d slug w route).2 = w := by
  have hnone : (srv.files env d).vaultFor user.id slug = none := h
  cases route with
  | listFiles | readFileContent => exact fileOp_refused _ (context_noVault hnone _ _ _)
  | createFile | writeFileContent | createDir | movePath | acquireFileLock | heartbeatFileLock =>
    exact withPath_refused fun f => fileOp_refused _ (context_noVault hnone _ _ _)
  | deletePath | releaseFileLock =>
    simp only [Server.fileRoute]
    split
    · rfl
    · exact fileOp_refused _ (context_noVault hnone _ _ _)
  | restoreGitFile =>
    simp only [Server.fileRoute]
    split
    · rfl
    · split
      · rfl
      · exact fileOp_refused _ (context_noVault hnone _ _ _)
  | _ => rfl

end Refused

/-- Whoever asks for an archived vault by its slug changes no file and no lock. -/
theorem Archived.refused {s : State} (h : Archived id slug s.db) {c : Call}
    (hslug : c.slug = some slug) : (c.after srv s).files = s.files := by
  have hnone : ∀ userID, Server.vaultFor s.db userID slug = none := fun userID =>
    Option.eq_none_iff_forall_ne_some.mpr fun item hi => (h.vaultFor hi).2 rfl
  cases c with
  | api env r =>
    simp only [Call.slug] at hslug
    split at hslug
    · rename_i slug' route hroute
      cases hslug
      simp only [Call.after, Server.serve, hroute]
      split
      · rfl
      · split
        · cases route <;> first | rfl | exact fileRoute_refused (hnone _) r _
        · rfl
    · cases hslug
  | dav env auth r =>
    simp only [Call.slug] at hslug
    split at hslug
    · rename_i slug' rel hp
      cases hslug
      simp only [Call.after, Server.serveDAV, Server.davHandler, WebDAV.Handler.serve, hp]
      split
      · rfl
      · simp only [hnone]
    · cases hslug

def archiveAnn : Call := .api (drawing [])
  { route := .user (.vault (utf8 "ann") .archive), session := utf8 "s1", csrfCookie := utf8 "x",
    csrfHeader := utf8 "x" }

def writeAnn : Call := .api (drawing [])
  { route := .user (.vault (utf8 "ann") .createFile), session := utf8 "s1", csrfCookie := utf8 "x",
    csrfHeader := utf8 "x", body := some { path := utf8 "a.md", content := utf8 "hi" } }

end Mdock.Http
