import Mdock.App.Sealed
import Mdock.Http.Runs
import Mdock.WebDAV.Sealed

/-! Nobody but its owner changes what is in a vault, or learns anything of it, whatever the
requests of all users are and however they are mixed. -/
namespace Mdock.Http
open Mdock.Go Mdock.Lib Mdock.Store Mdock.Locks Mdock.App

/-! ### Two trees that differ in one vault -/

section Trees
variable {vs : Vault.Service} {hroot : ∀ n ∈ vs.root, Vault.Plain n} {id j : Int}
  {A A' : Vault.Shelf} {t t' u u' : Vault.Tree}

/-- The one vault holds `A` in one tree and `A'` in the other, and all others hold the same. -/
def Unseen (vs : Vault.Service) (hroot : ∀ n ∈ vs.root, Vault.Plain n) (id : Int)
    (A A' : Vault.Shelf) (t t' : Vault.Tree) : Prop :=
  ∃ σ σ', (vaultSite vs hroot).Shelved t σ ∧ (vaultSite vs hroot).Shelved t' σ' ∧ σ id = A ∧
    σ' id = A' ∧ ∀ j, j ≠ id → σ j = σ' j

theorem Unseen.alike (h : Unseen vs hroot id A A' t t') (hj : j ≠ id) :
    Vault.Alike t t' (vs.root ++ [vaultPath j]) t t' := by
  obtain ⟨σ, σ', hs, hs', -, -, hsame⟩ := h
  exact ⟨σ j, hs j, hsame j hj ▸ hs' j⟩

/-- What is changed in another vault, in both trees alike. -/
theorem Unseen.changed (h : Unseen vs hroot id A A' t t') (hj : j ≠ id)
    (ha : Vault.Alike t t' (vs.root ++ [vaultPath j]) u u') : Unseen vs hroot id A A' u u' := by
  obtain ⟨σ, σ', hs, hs', hA, hA', hsame⟩ := h
  obtain ⟨G, hG, hG'⟩ := ha
  refine ⟨Function.update σ j G, Function.update σ' j G, hs.update hG, hs'.update hG', ?_, ?_,
    fun k hk => ?_⟩
  · rw [Function.update_of_ne hj.symm, hA]
  · rw [Function.update_of_ne hj.symm, hA']
  · by_cases hkj : k = j
    · rw [hkj, Function.update_self, Function.update_self]
    · rw [Function.update_of_ne hkj, Function.update_of_ne hkj, hsame k hk]

end Trees

/-! ### A request for another vault -/

variable {srv : Server} {hroot : ∀ n ∈ srv.vaultService.root, Vault.Plain n} {id j : Int}
  {A A' : Vault.Shelf} {env : Env} {user : User} {d : Db}

/-- The vaults have the directories of their numbers. -/
theorem vaultFor_root (hroot : ∀ n ∈ srv.vaultService.root, Vault.Plain n)
    (hd : d.vaults.Canonical) {userID : Int} {slug : Bytes} {item : VaultRow}
    (h : Server.vaultFor d userID slug = some item) :
    srv.vaultService.vaultRoot item.path = .ok (srv.vaultService.root ++ [vaultPath item.id]) := by
  obtain ⟨⟨v, role⟩, hv, rfl⟩ := Option.map_eq_some_iff.mp h
  have hmem := (vaultForUserBySlug_some.mp hv).1
  simp only [(hd v hmem).2]
  exact (vaultSite srv.vaultService hroot).place_eq v.id

theorem fileOp_twin {α : Type} {t t' : Vault.Tree} {r : Vault.Loc}
    {op : Op App.Err App.World α} (ok : α → Response) (h : Lockstep (App.Twin t t' r) op op) :
    Lockstep (App.Twin t t' r) (Server.fileOp op ok) (Server.fileOp op ok) := by
  intro w w' hw
  obtain ⟨hres, hw'⟩ := h w w' hw
  simp only [Server.fileOp]
  rcases hx : op w with ⟨e | a, u⟩ <;> rcases hx' : op w' with ⟨e' | a', u'⟩ <;>
    rw [hx, hx'] at hres hw' <;> cases hres
  · exact ⟨rfl, hw'⟩
  · exact ⟨rfl, hw'⟩

theorem withPath_twin {t t' : Vault.Tree} {r : Vault.Loc} (body : Option Fields)
    (paths : Fields → List Bytes) {op : Fields → App.World → Response × App.World}
    (h : ∀ f, Lockstep (App.Twin t t' r) (op f) (op f)) : Lockstep (App.Twin t t' r)
      (fun w => Server.withPath body paths w fun f => op f w)
      (fun w => Server.withPath body paths w fun f => op f w) := by
  intro w w' hw
  cases body with
  | none => exact ⟨rfl, hw⟩
  | some f =>
    simp only [Server.withPath]
    split
    · exact ⟨rfl, hw⟩
    · exact h f w w' hw

section Files
variable {t t' : Vault.Tree} {r : Vault.Loc} {slug : Bytes} (hr : ∀ a ∈ r, Vault.Plain a)
  (hv : ∀ item, Server.vaultFor d user.id slug = some item →
    srv.vaultService.vaultRoot item.path = .ok r)
include hr hv

theorem listFiles_twin (path : Bytes) : Lockstep (App.Twin t t' r)
    (Server.listFiles (srv.files env d) user.id slug path)
    (Server.listFiles (srv.files env d) user.id slug path) := by
  refine App.Service.context_twin hv fun item rel hi => ?_
  intro w w' hw
  dsimp only
  rw [Vault.list_alike hi hr rel hw.files]
  split
  · exact ⟨rfl, hw⟩
  · exact ⟨rfl, hw⟩

theorem fileRoute_twin (hgit : CheckoutStays srv.checkout) (q : Request) (route : VaultRoute) :
    Lockstep (App.Twin t t' r) (fun w => srv.fileRoute env user q d slug w route)
      (fun w => srv.fileRoute env user q d slug w route) := by
  cases route with
  | listFiles path => exact fileOp_twin _ (listFiles_twin hr hv _)
  | readFileContent path => exact fileOp_twin _ (App.Service.readTextFile_twin hv hr _)
  | createFile =>
    exact withPath_twin _ _ fun f => fileOp_twin _ (App.Service.createTextFile_twin hv hr _ _ _)
  | writeFileContent =>
    exact withPath_twin _ _ fun f => fileOp_twin _ (App.Service.writeTextFile_twin hv hr _ _ _)
  | createDir =>
    exact withPath_twin _ _ fun f => fileOp_twin _ (App.Service.createDir_twin hv hr _ _)
  | movePath =>
    exact withPath_twin _ _ fun f => fileOp_twin _ (App.Service.movePath_twin hv hr _ _ _)
  | deletePath path =>
    intro w w' hw
    simp only [Server.fileRoute]
    split
    · exact ⟨rfl, hw⟩
    · exact fileOp_twin _ (App.Service.deletePath_twin hv hr _ _) w w' hw
  | acquireFileLock =>
    exact withPath_twin _ _ fun f => fileOp_twin _ (App.Service.acquireFileLock_twin hv _ _)
  | heartbeatFileLock =>
    exact withPath_twin _ _ fun f => fileOp_twin _ (App.Service.heartbeatFileLock_twin hv _ _)
  | releaseFileLock path owner =>
    intro w w' hw
    simp only [Server.fileRoute]
    split
    · exact ⟨rfl, hw⟩
    · exact fileOp_twin _ (App.Service.releaseFileLock_twin hv _ _) w w' hw
  | restoreGitFile =>
    intro w w' hw
    simp only [Server.fileRoute]
    split
    · exact ⟨rfl, hw⟩
    · split
      · exact ⟨rfl, hw⟩
      · exact fileOp_twin _ (App.Service.restoreFileFromCommit_twin hv hr hgit _ _ _) w w' hw
  | _ => exact fun w w' hw => ⟨rfl, hw⟩

end Files

/-! ### Requests of all users -/

/-- The user a request is answered for. -/
def Call.caller (srv : Server) (s : State) : Call → Option User
  | .api env r =>
    match r.route with
    | .pub _ => none
    | _ => (Server.requireSession env s.db r.session).toOption
  | .dav env auth _ => (srv.davUser env s.db auth).toOption

/-- The slug in the path of a request. -/
def Call.slug : Call → Option Bytes
  | .api _ r =>
    match r.route with
    | .user (.vault slug _) => some slug
    | _ => none
  | .dav _ _ r =>
    match WebDAV.parsePath r.path with
    | .ok (slug, _) => some slug
    | .error _ => none

/-- The vault whose files a request may read or change. -/
def Call.vault (srv : Server) (s : State) (c : Call) : Option VaultRow :=
  (c.caller srv s).bind fun user => c.slug.bind fun slug => Server.vaultFor s.db user.id slug

/-- What a request is answered. -/
def Call.reply (srv : Server) (s : State) : Call → Response ⊕ WebDAV.Reply
  | .api env r => .inl (srv.serve env r s).1
  | .dav env auth r => .inr (srv.serveDAV env auth r s).1

/-- The states differ in what is in the one vault. -/
structure Blind (srv : Server) (hroot : ∀ n ∈ srv.vaultService.root, Vault.Plain n) (id : Int)
    (A A' : Vault.Shelf) (s s' : State) : Prop where
  db : s'.db = s.db
  locks : s'.files.locks = s.files.locks
  trees : Unseen srv.vaultService hroot id A A' s.files.tree s'.files.tree

section Step
variable {w w' : App.World} {slug : Bytes}

/-- Somewhere else than at the vault that is not to be seen. -/
theorem exists_elsewhere (hd : d.vaults.Canonical) (userID id : Int) (slug : Bytes)
    (hroot : ∀ n ∈ srv.vaultService.root, Vault.Plain n)
    (hother : ∀ item, Server.vaultFor d userID slug = some item → item.id ≠ id) :
    ∃ j, j ≠ id ∧ ∀ item, Server.vaultFor d userID slug = some item →
      srv.vaultService.vaultRoot item.path = .ok (srv.vaultService.root ++ [vaultPath j]) := by
  cases h : Server.vaultFor d userID slug with
  | none => exact ⟨id + 1, by omega, fun item hi => by cases hi⟩
  | some item =>
    refine ⟨item.id, hother item h, fun item' hi => ?_⟩
    cases hi
    exact vaultFor_root hroot hd h

theorem plain_place (id : Int) (hroot : ∀ n ∈ srv.vaultService.root, Vault.Plain n) :
    ∀ a ∈ srv.vaultService.root ++ [vaultPath id], Vault.Plain a :=
  (vaultSite srv.vaultService hroot).plain id

theorem vaultRoute_blind (hgit : CheckoutStays srv.checkout) (hd : d.vaults.Canonical)
    (hother : ∀ item, Server.vaultFor d user.id slug = some item → item.id ≠ id)
    (h : Blind srv hroot id A A' ⟨d, w⟩ ⟨d, w'⟩) (q : Request) (route : VaultRoute) :
    (srv.vaultRoute env user q slug ⟨d, w⟩ route).1 =
        (srv.vaultRoute env user q slug ⟨d, w'⟩ route).1 ∧
      Blind srv hroot id A A' (srv.vaultRoute env user q slug ⟨d, w⟩ route).2
        (srv.vaultRoute env user q slug ⟨d, w'⟩ route).2 := by
  obtain ⟨j, hj, hv⟩ := exists_elsewhere hd user.id id slug hroot hother
  have htwin : Lockstep (App.Twin w.tree w'.tree (srv.vaultService.root ++ [vaultPath j]))
      (fun w => srv.fileRoute env user q d slug w route) _ :=
    fileRoute_twin (plain_place j hroot) hv hgit q route
  have hfile := htwin w w' ⟨h.locks.symm, h.trees.alike hj⟩
  have hafter : Blind srv hroot id A A' ⟨d, (srv.fileRoute env user q d slug w route).2⟩
      ⟨d, (srv.fileRoute env user q d slug w' route).2⟩ :=
    ⟨rfl, hfile.2.locks.symm, h.trees.changed hj hfile.2.files⟩
  cases route with
  | details | webdav | members | rename | archive | unarchive => exact ⟨rfl, rfl, h.locks, h.trees⟩
  | _ => exact ⟨hfile.1, hafter⟩

theorem userRoute_blind (hgit : CheckoutStays srv.checkout) (hd : d.vaults.Canonical)
    (h : Blind srv hroot id A A' ⟨d, w⟩ ⟨d, w'⟩) (q : Request) (route : UserRoute)
    (hother : ∀ slug r, route = .vault slug r →
      ∀ item, Server.vaultFor d user.id slug = some item → item.id ≠ id) :
    (srv.userRoute env user q ⟨d, w⟩ route).1 = (srv.userRoute env user q ⟨d, w'⟩ route).1 ∧
      Blind srv hroot id A A' (srv.userRoute env user q ⟨d, w⟩ route).2
        (srv.userRoute env user q ⟨d, w'⟩ route).2 := by
  cases route with
  | vault slug r => exact vaultRoute_blind hgit hd (hother slug r rfl) h q r
  | _ => exact ⟨rfl, rfl, h.locks, h.trees⟩

/-- On the vaults of the site the service respects what is alike. -/
theorem respects_alike {t t' : Vault.Tree} {r : Vault.Loc} {path : Bytes}
    (hv : srv.vaultService.vaultRoot path = .ok r) (hr : ∀ a ∈ r, Vault.Plain a) :
    srv.davHandler.vaultService.Respects (Vault.Alike t t' r) path :=
  ⟨fun rel _ _ h => Vault.stat_alike hv hr rel h,
    fun rel data => (Vault.writeFile_performs _ _ rel data).alike hv hr,
    fun rel => (Vault.mkdir_performs _ _ rel).alike hv hr,
    fun old new => (Vault.rename_performs _ _ old new).alike hv hr,
    fun rel => (Vault.delete_performs _ _ rel).alike hv hr⟩

/-- A request for another vault is answered the same, and leaves the one vault as it was. -/
theorem Call.blind (hgit : CheckoutStays srv.checkout) {s s' : State}
    (hd : s.db.vaults.Canonical) (c : Call)
    (hother : ∀ item, c.vault srv s = some item → item.id ≠ id)
    (h : Blind srv hroot id A A' s s') : c.reply srv s = c.reply srv s' ∧
      Blind srv hroot id A A' (c.after srv s) (c.after srv s') := by
  obtain ⟨d, w⟩ := s
  obtain ⟨d', w'⟩ := s'
  obtain rfl : d' = d := h.db
  have hsame : Blind srv hroot id A A' ⟨d', w⟩ ⟨d', w'⟩ := h
  cases c with
  | api env r =>
    simp only [Call.reply, Call.after, Sum.inl.injEq, Server.serve]
    cases hroute : r.route with
    | pub route => cases route <;> exact ⟨rfl, rfl, h.locks, h.trees⟩
    | admin route =>
      simp only
      split
      · exact ⟨rfl, hsame⟩
      · split
        · split
          · exact ⟨rfl, rfl, h.locks, h.trees⟩
          · exact ⟨rfl, hsame⟩
        · exact ⟨rfl, hsame⟩
    | user route =>
      simp only
      cases hin : Server.requireSession env d' r.session with
      | error reply => exact ⟨rfl, hsame⟩
      | ok user =>
        simp only
        split
        · refine userRoute_blind hgit hd h r route fun slug q hq item hi => hother item ?_
          simp only [Call.vault, Call.caller, Call.slug, hroute, hq, hin, Except.toOption,
            Option.bind_some, hi]
        · exact ⟨rfl, hsame⟩
  | dav env auth r =>
    simp only [Call.reply, Call.after, Sum.inr.injEq, Server.serveDAV]
    cases hin : srv.davUser env d' auth with
    | error reply => exact ⟨rfl, hsame⟩
    | ok user =>
      have htarget : ∀ slug rel item, WebDAV.parsePath r.path = .ok (slug, rel) →
          Server.vaultFor d' user.id slug = some item → item.id ≠ id := by
        intro slug rel item hp hi
        refine hother item ?_
        simp only [Call.vault, Call.caller, Call.slug, hin, hp, Except.toOption, Option.bind_some,
          hi]
      have hplace : ∃ j, j ≠ id ∧ ∀ slug rel item, WebDAV.parsePath r.path = .ok (slug, rel) →
          Server.vaultFor d' user.id slug = some item → srv.vaultService.vaultRoot item.path =
            .ok (srv.vaultService.root ++ [vaultPath j]) := by
        cases hp : WebDAV.parsePath r.path with
        | error e => exact ⟨id + 1, by omega, fun _ _ _ hp' => by cases hp'⟩
        | ok a =>
          obtain ⟨slug, rel⟩ := a
          obtain ⟨j, hj, hv⟩ := exists_elsewhere hd user.id id slug hroot fun item hi =>
            htarget slug rel item hp hi
          refine ⟨j, hj, fun slug' rel' item hp' hi => ?_⟩
          cases hp'
          exact hv item hi
      obtain ⟨j, hj, hv⟩ := hplace
      have htwin := WebDAV.serve_twin (h := srv.davHandler) (r := r)
        (R := Vault.Alike w.tree w'.tree (srv.vaultService.root ++ [vaultPath j]))
        (Server.vaultFor d' user.id) user.login env.token (env.clock 0) (env.clock 1)
        fun slug rel item hp hi => respects_alike (hv slug rel item hp hi) (plain_place j hroot)
      obtain ⟨hreply, hlocks, htrees⟩ := htwin ⟨w.tree, w.locks⟩ ⟨w'.tree, w'.locks⟩
        ⟨h.locks.symm, h.trees.alike hj⟩
      exact ⟨hreply, rfl, hlocks.symm, h.trees.changed hj htrees⟩

end Step

/-! ### Runs -/

/-- No request of the run is for the files of the vault. -/
def Elsewhere (srv : Server) (id : Int) : State → List Call → Prop
  | _, [] => True
  | s, c :: cs =>
    (∀ item, c.vault srv s = some item → item.id ≠ id) ∧ Elsewhere srv id (c.after srv s) cs

/-- The answers to the requests of a run. -/
def Server.replies (srv : Server) : State → List Call → List (Response ⊕ WebDAV.Reply)
  | _, [] => []
  | s, c :: cs => c.reply srv s :: srv.replies (c.after srv s) cs

/-- What is below the directory of a vault is the same. -/
def SameFiles (srv : Server) (id : Int) (t t' : Vault.Tree) : Prop :=
  ∀ q, q ≠ [] → t.node (srv.vaultService.root ++ [vaultPath id] ++ q) =
    t'.node (srv.vaultService.root ++ [vaultPath id] ++ q)

theorem run_blind (hgit : CheckoutStays srv.checkout) {s s' : State} (hd : s.db.vaults.Canonical)
    (h : Blind srv hroot id A A' s s') (calls : List Call) (haway : Elsewhere srv id s calls) :
    srv.replies s calls = srv.replies s' calls ∧
      Blind srv hroot id A A' (srv.run s calls) (srv.run s' calls) := by
  induction calls generalizing s s' with
  | nil => exact ⟨rfl, h⟩
  | cons c calls ih =>
    obtain ⟨hreply, hnext⟩ := Call.blind hgit hd c haway.1 h
    obtain ⟨hreplies, hrun⟩ := ih (c.keeps hd fun _ _ => Canonical.step) hnext haway.2
    exact ⟨by rw [Server.replies, Server.replies, hreply, hreplies], hrun⟩

/-- Requests keep the tree free of links, and the way to the vaults free of files. -/
theorem run_open (hgit : CheckoutStays srv.checkout) {s : State}
    (hd : s.db.vaults.Canonical)
    (hs : (vaultSite srv.vaultService hroot).Open s.files.tree) (calls : List Call) :
    (vaultSite srv.vaultService hroot).Open (srv.run s calls).files.tree := by
  induction calls generalizing s with
  | nil => exact hs
  | cons c calls ih =>
    -- any vault but that of the request will do for the one that is not to be seen
    obtain ⟨id, hid⟩ : ∃ id, ∀ item, c.vault srv s = some item → item.id ≠ id := by
      cases c.vault srv s with
      | none => exact ⟨0, fun _ hi => by cases hi⟩
      | some item =>
        refine ⟨item.id + 1, fun item' hi => ?_⟩
        cases hi
        omega
    have hself : Blind srv hroot id _ _ s s := ⟨rfl, rfl, _, _, hs.shelved, hs.shelved, rfl, rfl,
      fun _ _ => rfl⟩
    obtain ⟨-, -, -, σ, σ', hshelved, -⟩ := Call.blind hgit hd c hid hself
    exact ih (c.keeps hd fun _ _ => Canonical.step) (hshelved.open_ id)

theorem shelf_sameFiles {t t' : Vault.Tree} (h : (vaultSite srv.vaultService hroot).Open t)
    (h' : (vaultSite srv.vaultService hroot).Open t') :
    t.shelf h.rooted (srv.vaultService.root ++ [vaultPath id]) =
        t'.shelf h'.rooted (srv.vaultService.root ++ [vaultPath id]) ↔ SameFiles srv id t t' :=
  shelf_eq_iff h.rooted h'.rooted h.linkFree h'.linkFree _

/-- While requests are for other vaults, the files of the one stay as they are, and the answers
are those that there would be if other files were in it. -/
theorem Elsewhere.sealed (hgit : CheckoutStays srv.checkout) {t : State}
    (hd : t.db.vaults.Canonical) (ht : (vaultSite srv.vaultService hroot).Open t.files.tree)
    {later : List Call} (haway : Elsewhere srv id t later) :
    SameFiles srv id t.files.tree (srv.run t later).files.tree ∧
      ∀ tree, (vaultSite srv.vaultService hroot).Open tree →
        (∀ j, j ≠ id → SameFiles srv j t.files.tree tree) →
          srv.replies ⟨t.db, ⟨tree, t.files.locks⟩⟩ later = srv.replies t later := by
  constructor
  · have hself : Blind srv hroot id _ _ t t :=
      ⟨rfl, rfl, _, _, ht.shelved, ht.shelved, rfl, rfl, fun _ _ => rfl⟩
    obtain ⟨-, -, -, σ, σ', hshelved, -, hkept, -⟩ := run_blind hgit hd hself later haway
    have hlater := hshelved.open_ id
    exact (shelf_sameFiles ht hlater).mp
      (hkept.symm.trans (hshelved.shelf_eq id hlater.rooted).symm)
  · intro tree htree hsame
    have hother : Blind srv hroot id _ _ t ⟨t.db, ⟨tree, t.files.locks⟩⟩ :=
      ⟨rfl, rfl, _, _, ht.shelved, htree.shelved, rfl, rfl,
        fun j hj => (shelf_sameFiles ht htree).mpr (hsame j hj)⟩
    exact (run_blind hgit hd hother later haway).1.symm

/-! ### Requests of others -/

/-- No request of the run is answered for the user. -/
def NotBy (srv : Server) (userID : Int) : State → List Call → Prop
  | _, [] => True
  | s, c :: cs =>
    (∀ user, c.caller srv s = some user → user.id ≠ userID) ∧ NotBy srv userID (c.after srv s) cs

/-- A vault that is found for one user alone is not the vault of a request of another. -/
theorem Theirs.elsewhere {slug path : Bytes} {userID : Int} {s : State} {c : Call}
    (h : Theirs id slug path userID s.db)
    (hother : ∀ user, c.caller srv s = some user → user.id ≠ userID) {item : VaultRow}
    (hi : c.vault srv s = some item) : item.id ≠ id := by
  obtain ⟨user, huser, hslug⟩ := Option.bind_eq_some_iff.mp hi
  obtain ⟨slug', -, hvault⟩ := Option.bind_eq_some_iff.mp hslug
  obtain ⟨⟨v, role⟩, hv, rfl⟩ := Option.map_eq_some_iff.mp hvault
  obtain ⟨-, -, -, m, hm, hvid, hu, -⟩ := vaultForUserBySlug_some.mp hv
  obtain ⟨m', hm', hvid', hu'⟩ := h.member
  rintro he
  have hsame := h.owned.one m hm m' hm' (hvid.trans (he.trans hvid'.symm))
  exact hother user huser (hu.symm.trans (hsame ▸ hu'))

theorem NotBy.elsewhere {slug path : Bytes} {userID : Int} {s : State}
    (ht : Theirs id slug path userID s.db) {calls : List Call} (hby : NotBy srv userID s calls) :
    Elsewhere srv id s calls := by
  induction calls generalizing s with
  | nil => trivial
  | cons c calls ih =>
    exact ⟨fun item => ht.elsewhere hby.1, ih (c.keeps ht fun _ _ => Theirs.step) hby.2⟩

/-- There is no repository to check a file out of. -/
theorem smallServer_checkout : CheckoutStays smallServer.checkout := fun _ _ _ => .none

end Mdock.Http
