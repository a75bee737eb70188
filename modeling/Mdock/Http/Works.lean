import Mdock.App.Works
import Mdock.Http.Archived
import Mdock.WebDAV.Works

/-! What the server does to the files, as shelves side by side: a request makes calls on the shelf
of its own vault, all of them if it is accepted. -/
namespace Mdock.Http
open Mdock.Go Mdock.Lib Mdock.Store Mdock.App

variable {srv : Server} {hroot : ∀ n ∈ srv.vaultService.root, Vault.Plain n} {env : Env}
  {user : User} {d : Db} {slug : Bytes} {t : Vault.Tree} {r : Vault.Loc}
  {calls : List Vault.Call} {F : Vault.Shelf} {w : App.World}

def Response.Accepted (a : Response) : Prop := a.status < 400

instance (a : Response) : Decidable a.Accepted := inferInstanceAs (Decidable (_ < _))

/-- The calls of a route; what `git checkout` does is none. -/
def VaultRoute.work (body : Option Fields) : VaultRoute → Option (List Vault.Call)
  | .createFile | .writeFileContent =>
    some (body.elim [] fun f => atPath f.path fun rel => [.writeFile rel f.content])
  | .createDir => some (body.elim [] fun f => atPath f.path fun rel => [.mkdir rel])
  | .movePath => some (body.elim [] fun f =>
      atPath f.fromPath fun src => atPath f.toPath fun dst => [.rename src dst])
  | .deletePath path => some (atPath (Server.queryPath path) fun rel => [.delete rel])
  | .restoreGitFile => none
  | _ => some []

theorem fail_refused {status : Nat} (h : 400 ≤ status) (text : String) :
    ¬ (fail status text).Accepted := Nat.not_lt.mpr h

theorem fileError_refused (e : App.Err) : ¬ (Server.fileError e).Accepted := by
  unfold Server.fileError
  split <;> exact fail_refused (by decide) _

theorem fileOp_works {α : Type} {op : Op App.Err App.World α} (ok : α → Response)
    (h : App.Works t r calls op) : Carries (App.Holding t r) Vault.Shelf.Does Response.Accepted
      calls (Server.fileOp op ok) := by
  intro w F hw
  have hop := h w F hw
  rcases hx : op w with ⟨e | a, u⟩
  · rw [hx] at hop
    simp only [Server.fileOp, hx]
    exact hop.answer (fun _ hb => hb) fun hok => absurd hok (fileError_refused e)
  · rw [hx] at hop
    simp only [Server.fileOp, hx]
    exact hop.answer (fun _ hb => hb) fun _ => rfl

theorem withPath_works {body : Option Fields} (paths : Fields → List Bytes)
    {op : Fields → App.World → Response × App.World} {calls : Fields → List Vault.Call}
    (h : ∀ f, Carries (App.Holding t r) Vault.Shelf.Does Response.Accepted (calls f) (op f)) :
    Carries (App.Holding t r) Vault.Shelf.Does Response.Accepted (body.elim [] calls)
      (fun w => Server.withPath body paths w fun f => op f w) := by
  intro w F hw
  cases body with
  | none => exact .refused (fail_refused (by decide) _) hw
  | some f =>
    simp only [Server.withPath]
    split
    · exact .refused (fail_refused (by decide) _) hw
    · exact h f w F hw

/-- What asks for a path, and makes no calls. -/
theorem withPath_idle {body : Option Fields} (paths : Fields → List Bytes)
    {op : Fields → App.World → Response × App.World}
    (h : ∀ f, Carries (App.Holding t r) Vault.Shelf.Does Response.Accepted [] (op f)) :
    Carries (App.Holding t r) Vault.Shelf.Does Response.Accepted []
      (fun w => Server.withPath body paths w fun f => op f w) := by
  have hpath : Carries (App.Holding t r) Vault.Shelf.Does Response.Accepted
      (body.elim [] fun _ => []) (fun w => Server.withPath body paths w fun f => op f w) :=
    withPath_works paths h
  cases body <;> exact hpath

theorem listFiles_works {s : App.Service} {userID : Int} (path : Bytes) :
    App.Works t r [] (Server.listFiles s userID slug path) :=
  Carries.ofExcept fun v _ => works_of_tree fun w => by
    dsimp only
    split <;> rfl

section Files
variable (hr : ∀ a ∈ r, Vault.Plain a) (hv : ∀ item, Server.vaultFor d user.id slug = some item →
    srv.vaultService.vaultRoot item.path = .ok r)
include hr hv

theorem fileRoute_works (q : Request) {route : VaultRoute}
    (hwork : route.work q.body = some calls) :
    Carries (App.Holding t r) Vault.Shelf.Does Response.Accepted calls
      (fun w => srv.fileRoute env user q d slug w route) := by
  cases route with
  | restoreGitFile => cases hwork
  | listFiles path =>
    cases hwork
    exact fileOp_works _ (listFiles_works _)
  | readFileContent path =>
    cases hwork
    exact fileOp_works _ (App.Service.readTextFile_works _)
  | createFile =>
    cases hwork
    exact withPath_works _ fun f => fileOp_works _ (App.Service.createTextFile_works hv hr _ _ _)
  | writeFileContent =>
    cases hwork
    exact withPath_works _ fun f => fileOp_works _ (App.Service.writeTextFile_works hv hr _ _ _)
  | createDir =>
    cases hwork
    exact withPath_works _ fun f => fileOp_works _ (App.Service.createDir_works hv hr _ _)
  | movePath =>
    cases hwork
    exact withPath_works _ fun f => fileOp_works _ (App.Service.movePath_works hv hr _ _ _)
  | deletePath path =>
    cases hwork
    intro w F hw
    simp only [Server.fileRoute]
    split
    · exact .refused (fail_refused (by decide) _) hw
    · exact fileOp_works _ (App.Service.deletePath_works hv hr _ _) w F hw
  | acquireFileLock =>
    cases hwork
    exact withPath_idle _ fun f => fileOp_works _ (App.Service.acquireFileLock_works _ _)
  | heartbeatFileLock =>
    cases hwork
    exact withPath_idle _ fun f => fileOp_works _ (App.Service.heartbeatFileLock_works _ _)
  | releaseFileLock path owner =>
    cases hwork
    intro w F hw
    simp only [Server.fileRoute]
    split
    · exact .refused (fail_refused (by decide) _) hw
    · exact fileOp_works _ (App.Service.releaseFileLock_works _ _) w F hw
  | _ =>
    cases hwork
    exact .idle fun _ _ hw => hw

end Files

/-! ### Requests -/

/-- The calls of a request for a vault; `none` for what is left to `git checkout`. -/
def Call.work (srv : Server) (s : State) (item : VaultRow) : Call → Option (List Vault.Call)
  | .api _ r =>
    match r.route with
    | .user (.vault _ route) => route.work r.body
    | _ => some []
  | .dav env auth r =>
    match srv.davUser env s.db auth, WebDAV.parsePath r.path with
    | .ok user, .ok (_, rel) =>
      some (srv.davHandler.work r ⟨user.login, item, rel⟩ s.files.tree)
    | _, _ => some []

/-- The answer is not an error. -/
def Accepted : Response ⊕ WebDAV.Reply → Prop
  | .inl a => a.Accepted
  | .inr a => a.Accepted

instance (a : Response ⊕ WebDAV.Reply) : Decidable (Accepted a) :=
  match a with
  | .inl a => inferInstanceAs (Decidable a.Accepted)
  | .inr a => inferInstanceAs (Decidable a.Accepted)

/-- The vault at `r` holds what is on the shelf, and the tree is elsewhere what it was. -/
def Holding (t : Vault.Tree) (r : Vault.Loc) (s : State) (F : Vault.Shelf) : Prop :=
  Vault.Left t r s.files.tree F

theorem vaultRoute_works {q : Request} {route : VaultRoute} {s : State}
    (hr : ∀ a ∈ r, Vault.Plain a) (hv : ∀ item, Server.vaultFor s.db user.id slug = some item →
      srv.vaultService.vaultRoot item.path = .ok r)
    (hwork : route.work q.body = some calls) (hs : Holding t r s F) :
    Outcome (Holding t r) Vault.Shelf.Does Response.Accepted calls F
      (srv.vaultRoute env user q slug s route) := by
  have hfile : Outcome (App.Holding t r) Vault.Shelf.Does Response.Accepted calls F
      (srv.fileRoute env user q s.db slug s.files route) :=
    fileRoute_works hr hv q hwork s.files F hs
  cases route with
  | details | webdav | members | rename | archive | unarchive =>
    cases hwork
    exact .idle hs
  | _ => exact hfile.answer (fun _ hb => hb) id

theorem Call.works {s : State} {c : Call} {item : VaultRow} (hd : s.db.vaults.Canonical)
    (hroot : ∀ n ∈ srv.vaultService.root, Vault.Plain n)
    (hi : c.vault srv s = some item) (hwork : c.work srv s item = some calls)
    (hs : Holding t (srv.vaultService.root ++ [vaultPath item.id]) s F) :
    Outcome (Holding t (srv.vaultService.root ++ [vaultPath item.id])) Vault.Shelf.Does Accepted
      calls F (c.reply srv s, c.after srv s) := by
  obtain ⟨user, huser, hslug⟩ := Option.bind_eq_some_iff.mp hi
  obtain ⟨slug, hslug, hvault⟩ := Option.bind_eq_some_iff.mp hslug
  have hplain := plain_place item.id hroot
  have hv : ∀ item', Server.vaultFor s.db user.id slug = some item' →
      srv.vaultService.vaultRoot item'.path =
        .ok (srv.vaultService.root ++ [vaultPath item.id]) := by
    intro item' hi'
    obtain rfl : item = item' := Option.some.inj (hvault.symm.trans hi')
    exact vaultFor_root hroot hd hi'
  cases c with
  | api env r =>
    simp only [Call.slug] at hslug
    split at hslug
    · rename_i slug' route hroute
      cases hslug
      simp only [Call.caller, hroute] at huser
      simp only [Call.work, hroute] at hwork
      simp only [Call.reply, Call.after, Server.serve, hroute]
      cases hin : Server.requireSession env s.db r.session with
      | error reply =>
        rw [hin] at huser
        cases huser
      | ok user' =>
        rw [hin] at huser
        obtain rfl : user' = user := Option.some.inj huser
        simp only
        split
        · exact (vaultRoute_works hplain hv hwork hs).answer (fun _ hb => hb) id
        · exact .refused (fail_refused (by decide) _) hs
    · cases hslug
  | dav env auth r =>
    simp only [Call.slug] at hslug
    split at hslug
    · rename_i slug' rel hp
      cases hslug
      simp only [Call.caller] at huser
      simp only [Call.work, hp] at hwork
      simp only [Call.reply, Call.after, Server.serveDAV]
      cases hin : srv.davUser env s.db auth with
      | error reply =>
        rw [hin] at huser
        cases huser
      | ok user' =>
        rw [hin] at huser hwork
        obtain rfl : user' = user := Option.some.inj huser
        obtain rfl := Option.some.inj hwork
        have hserve := WebDAV.serve_works (h := srv.davHandler) (t := ⟨user'.login, item, rel⟩)
          (w := ⟨s.files.tree, s.files.locks⟩)
          (WebDAV.vaultService_works (hv item hvault) hplain) env.token (env.clock 0) (env.clock 1)
          hp hvault hs
        exact hserve.answer (fun _ hb => hb) id
    · cases hslug

/-! ### Runs -/

end Mdock.Http
