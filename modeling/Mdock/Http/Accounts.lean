import Mathlib.Logic.Relation
import Mdock.Http.Server
import Mdock.Lib.Triple

/-! What requests do to users, sessions and vaults. Whatever is asked, the tables change by a
few kinds of statements, and what holds in every run is read off these. -/
namespace Mdock.Http
open Mdock.Go Mdock.Lib Mdock.Store Mdock.Locks.Expiry Mdock.App Relation

/-- A change of the tables by a request that would draw the session id `draw`, and takes no vault
out of the archive but one that is `freed`. -/
inductive Change (draw : Bytes) (freed : Int → Prop) (d : Db) : Db → Prop
  | loggedIn {u : User} (expiresAt createdAt : Instant) : u ∈ d.users.table.rows →
      u.disabled = false → d.sessions.get? draw = none →
      Change draw freed d
        { d with sessions := d.sessions.upsert ⟨draw, u.id, expiresAt, createdAt⟩ }
  | ended (p : Session → Bool) : Change draw freed d { d with sessions := d.sessions.deleteWhere p }
  | password (login hash : Bytes) : Change draw freed d { d with
      users := d.users.setPassword login hash
      sessions := d.users.deleteSessionsForLogin d.sessions login }
  | disabled {login : Bytes} {u : User} : d.users.getUserByLogin login = some u →
      (u.activeAdmin = true → 2 ≤ d.users.countActiveAdmins) → Change draw freed d { d with
        users := d.users.setUserDisabled login true
        sessions := (d.users.setUserDisabled login true).deleteSessionsForLogin d.sessions login }
  | enabled (login : Bytes) :
      Change draw freed d { d with users := d.users.setUserDisabled login false }
  | vault (id : Int) (f : Store.Vault → Store.Vault) (hs : ∀ v, (f v).slug = v.slug)
      (hp : ∀ v, (f v).path = v.path) (hi : ∀ v, (f v).id = v.id)
      (ha : ∀ v, v.archived = true → (f v).archived = true ∨ freed id) :
      Change draw freed d { d with vaults := d.vaults.updateByID id f hs hp hi }
  | registered {login hash : Bytes} {isAdmin : Bool} {d' : Db} :
      d.users.getUserByLogin login = none → (isAdmin = true ↔ d.users.table.rows = []) →
      Founded (d.users.seq + 1) { d with users := d.users.insert login hash isAdmin } d' →
      Change draw freed d d'
  | founded {userID : Int} {d' : Db} : Founded userID d d' → Change draw freed d d'

/-- What any number of changes leads to. -/
abbrev Comes (draw : Bytes) (freed : Int → Prop) (d d' : Db) : Prop :=
  ReflTransGen (Change draw freed) d d'

/-! ### Every request makes such changes -/

section Creation
variable {env : Creation.Env} {freed : Int → Prop} {d₀ d d' : Db}

theorem prepareVault_triple (p : Db → Prop) :
    Op.Triple p (Creation.prepareVault env) (fun _ => p) fun _ => p :=
  Op.Keeps.triple (φ := id) Creation.keeps_prepareVault p

theorem stmt_triple {faults : Step → Bool} (s : Step) (p : Db → Prop) :
    Op.Triple p (stmt faults s) (fun _ => p) fun _ => p :=
  Op.Keeps.triple (φ := id) (keeps_stmt s) p

/-- A user is there who is not disabled. -/
def Active (d : Db) (userID : Int) : Prop :=
  ∃ u ∈ d.users.table.rows, u.id = userID ∧ u.disabled = false

theorem createSession_triple (userID : Int) :
    Op.Triple (fun d => Comes env.draw freed d₀ d ∧ Active d userID)
      (Creation.createSession env userID) (fun _ => Comes env.draw freed d₀)
      fun _ => Comes env.draw freed d₀ := by
  refine ((stmt_triple _ _).mono (fun _ h => h) (fun _ _ h => h) fun _ _ h => h.1).bind fun _ => ?_
  refine ((stmt_triple _ _).mono (fun _ h => h) (fun _ _ h => h) fun _ _ h => h.1).bind fun _ => ?_
  refine (Op.triple_get (Q := fun d t => d = t ∧ Comes env.draw freed d₀ t ∧ Active t userID)
    fun s h => ⟨rfl, h⟩).bind fun d => ?_
  refine (Op.triple_require (Q := fun _ t => d = t ∧ (Comes env.draw freed d₀ t ∧ Active t userID) ∧
    t.sessions.get? env.draw = none) ?_ fun _ _ h => h.2.1).bind fun _ => ?_
  · rintro ⟨hfree, -⟩ s ⟨rfl, h⟩
    exact ⟨rfl, h, Option.isNone_iff_eq_none.mp hfree⟩
  · refine (Op.triple_modify (Q := fun _ => Comes env.draw freed d₀) ?_).bind fun _ =>
      Op.triple_pure fun _ h => h
    rintro s ⟨-, ⟨hc, u, hu, rfl, hactive⟩, hfree⟩
    exact hc.tail (.loggedIn _ _ hu hactive hfree)

theorem createUser_ok {login password : Bytes} {hash : Option Bytes} {isAdmin : Bool}
    {now : Instant} {faults : Step → Bool} {draw : Bytes} {a : User × Store.Vault}
    (hadmin : isAdmin = true ↔ d.users.table.rows = [])
    (h : Store.createUser faults login password hash isAdmin now d = (.ok a, d')) :
    Change draw freed d d' ∧ Active d' a.1.id := by
  obtain ⟨hash, hnone, hid, htx⟩ := createUser_tx h
  have hf := createVaultForUserTx_founded htx
  refine ⟨.registered hnone hadmin hf, ?_⟩
  rw [Active, hf.users]
  exact ⟨_, (Users.mem_insert hnone).mpr (.inr rfl), hid.symm, rfl⟩

theorem createUser_triple {login password : Bytes} {hash : Option Bytes} {isAdmin : Bool}
    {now : Instant} {faults : Step → Bool} {draw : Bytes}
    (hadmin : isAdmin = true ↔ d.users.table.rows = []) :
    Op.Triple (fun s => s = d) (Store.createUser faults login password hash isAdmin now)
      (fun a d' => Comes draw freed d d' ∧ Active d' a.1.id) fun _ d' => Comes draw freed d d' := by
  rintro s rfl
  constructor
  · intro a d' h
    obtain ⟨hc, hactive⟩ := createUser_ok hadmin h
    exact ⟨.single hc, hactive⟩
  · intro e d' h
    have he : d' = s := atomic_createUser (φ := id) _ _ _ _ _ s e d' h
    rw [he]

theorem registerUser_triple (username password setupToken : Bytes) :
    Op.Triple (fun s => s = d) (Creation.registerUser env username password setupToken)
      (fun _ => Comes env.draw freed d) fun _ => Comes env.draw freed d := by
  have hrefl : ∀ s, s = d → Comes env.draw freed d s := fun s h => h ▸ .refl
  refine ((stmt_triple _ _).mono (fun _ h => h) (fun _ _ h => h) fun _ => hrefl).bind fun _ => ?_
  refine (Op.triple_get (Q := fun a s => a = d ∧ s = d) fun _ h => ⟨h, h⟩).bind fun d₁ => ?_
  refine Op.Triple.bind (Q := fun _ s => s = d ∧ d.users.countUsers = 0)
    (Op.triple_require ?_ fun _ s h => hrefl s h.2) fun _ => ?_
  · rintro hzero s ⟨rfl, rfl⟩
    exact ⟨rfl, hzero⟩
  · refine Op.Triple.bind (Q := fun _ s => s = d ∧ d.users.countUsers = 0)
      (Op.triple_require (fun _ _ h => h) fun _ s h => hrefl s h.1) fun _ => ?_
    rintro s ⟨rfl, hzero⟩
    have hadmin : true = true ↔ s.users.table.rows = [] := by
      simpa [Users.countUsers] using hzero
    refine (((createUser_triple hadmin).bind fun a => ?_) : Op.Triple _ _ _ _) s rfl
    refine ((prepareVault_triple _).mono (fun _ h => h) (fun _ _ h => h) fun _ _ h => h.1).bind
      fun _ => ?_
    exact (createSession_triple a.1.id).bind fun _ => Op.triple_pure fun _ h => h

theorem adminCreate_triple {username password : Bytes} (hne : d.users.table.rows ≠ []) :
    Op.Triple (fun s => s = d) (Creation.createUser env username password)
      (fun _ => Comes env.draw freed d) fun _ => Comes env.draw freed d := by
  refine (createUser_triple (by simpa using hne)).bind fun a => ?_
  refine ((prepareVault_triple _).mono (fun _ h => h.1) (fun _ _ h => h) fun _ _ h => h).bind
    fun _ => Op.triple_pure fun _ h => h

theorem createVault_triple {userID : Int} {name : Bytes} :
    Op.Triple (fun s => s = d) (Creation.createVault env userID name)
      (fun _ => Comes env.draw freed d) fun _ => Comes env.draw freed d := by
  have hmade : Op.Triple (fun s => s = d)
      (createVaultForUser env.faults userID name kindShared env.now)
      (fun _ => Comes env.draw freed d) fun _ => Comes env.draw freed d := by
    rintro s rfl
    refine ⟨fun v d' h => .single (.founded (createVaultForUser_founded h)), fun e d' h => ?_⟩
    have he : d' = s := atomic_createVaultForUser (φ := id) _ _ _ _ s e d' h
    rw [he]
  exact hmade.bind fun _ => (prepareVault_triple _).bind fun _ => Op.triple_pure fun _ h => h

end Creation

section Handlers
variable {srv : Server} {env : Env} {user : User} {slug login password : Bytes}
  {body : Option Fields} {freed : Int → Prop} {d : Db}

theorem register_comes : Comes env.draw freed d (srv.register env body d).2 := by
  cases body with
  | none => exact .refl
  | some f =>
    have h : Comes (srv.creation env f.password).draw freed d (Creation.registerUser
        (srv.creation env f.password) f.username f.password f.setupToken d).2 :=
      (registerUser_triple _ _ _).after rfl
    simp only [Server.register]
    split
    · exact .refl
    · split <;> (rename_i heq; rw [heq] at h; exact h)

theorem authenticate_active {users : Users} {u : User}
    (h : Accounts.authenticate srv.bcrypt users login password = some u) :
    u ∈ users.table.rows ∧ u.disabled = false := by
  obtain ⟨hget, hp⟩ := Option.filter_eq_some_iff.mp h
  simp only [Bool.and_eq_true, Bool.not_eq_true'] at hp
  exact ⟨Keyed.mem_of_get? hget, hp.1⟩

theorem login_comes : Comes env.draw freed d (srv.login env body d).2 := by
  cases body with
  | none => exact .refl
  | some f =>
    simp only [Server.login]
    split
    · exact .refl
    · split
      · exact .refl
      · rename_i u hu
        obtain ⟨hmem, hactive⟩ := authenticate_active hu
        have h : Comes (srv.creation env f.password).draw freed d (Creation.createSession
            (srv.creation env f.password) u.id d).2 :=
          (createSession_triple u.id).after ⟨.refl, u, hmem, rfl, hactive⟩
        split <;> (rename_i heq; rw [heq] at h; exact h)

theorem setPassword_comes : Comes env.draw freed d (srv.setPassword env login password d).2 := by
  unfold Server.setPassword
  split
  · exact .refl
  · split
    · exact .refl
    · split
      · exact .refl
      · exact .single (.password _ _)

theorem changeOwnPassword_comes :
    Comes env.draw freed d (srv.changeOwnPassword env user body d).2 := by
  cases body with
  | none => exact .refl
  | some f =>
    have h : Comes env.draw freed d (srv.setPassword env user.login f.newPassword d).2 :=
      setPassword_comes
    simp only [Server.changeOwnPassword]
    split
    · exact .refl
    · split
      · exact .refl
      · split <;> (rename_i heq; rw [heq] at h; exact h)

theorem adminSetPassword_comes :
    Comes env.draw freed d (srv.adminSetPassword env login body d).2 := by
  cases body with
  | none => exact .refl
  | some f =>
    have h : Comes env.draw freed d (srv.setPassword env login f.password d).2 := setPassword_comes
    simp only [Server.adminSetPassword]
    split
    · exact .refl
    · split <;> (rename_i heq; rw [heq] at h; exact h)

theorem adminCreateUser_comes (hne : d.users.table.rows ≠ []) :
    Comes env.draw freed d (srv.adminCreateUser env body d).2 := by
  cases body with
  | none => exact .refl
  | some f =>
    have h : Comes (srv.creation env f.password).draw freed d (Creation.createUser
        (srv.creation env f.password) f.username f.password d).2 :=
      (adminCreate_triple hne).after rfl
    simp only [Server.adminCreateUser]
    split
    · exact .refl
    · split <;> (rename_i heq; rw [heq] at h; exact h)

theorem setUserDisabled_comes (disabled : Bool) :
    Comes env.draw freed d (Server.adminSetUserDisabled login disabled d).2 := by
  unfold Server.adminSetUserDisabled
  cases hget : d.users.getUserByLogin login with
  | none => exact .refl
  | some u =>
    simp only
    split
    · exact .refl
    · rename_i hguard
      cases disabled with
      | false => exact .single (.enabled login)
      | true =>
        refine .single (.disabled hget fun ha => ?_)
        simp only [User.activeAdmin, Bool.and_eq_true, Bool.not_eq_true'] at ha
        simp only [ha.1, ha.2, Bool.false_eq_true, not_false_eq_true, true_and, not_le] at hguard
        exact hguard

theorem adminRoute_comes (hne : d.users.table.rows ≠ []) (route : AdminRoute) :
    Comes env.draw freed d (srv.adminRoute env body d route).2 := by
  cases route with
  | users => exact .refl
  | createUser => exact adminCreateUser_comes hne
  | setPassword login => exact adminSetPassword_comes
  | disableUser login => exact setUserDisabled_comes true
  | enableUser login => exact setUserDisabled_comes false
  | revokeSessions login =>
    simp only [Server.adminRoute, Server.adminRevokeSessions]
    split
    · exact .refl
    · exact .single (.ended _)

theorem createVault_comes : Comes env.draw freed d (srv.createVault env user body d).2 := by
  cases body with
  | none => exact .refl
  | some f =>
    have h : Comes (srv.creation env f.password).draw freed d (Creation.createVault
        (srv.creation env f.password) user.id f.name d).2 := createVault_triple.after rfl
    simp only [Server.createVault]
    split
    · exact .refl
    · split <;> (rename_i heq; rw [heq] at h; exact h)

theorem renameVault_comes : Comes env.draw freed d (Server.renameVault user slug body d).2 := by
  cases body with
  | none => exact .refl
  | some f =>
    simp only [Server.renameVault]
    split
    · exact .refl
    · split
      · exact .refl
      · exact .single (.vault _ _ _ _ _ fun _ ha => .inl ha)

theorem requireVaultOwner_ok {item : Store.Vault}
    (h : Server.requireVaultOwner user slug d = .ok item) :
    item ∈ d.vaults.table.rows ∧ item.slug = slug := by
  unfold Server.requireVaultOwner at h
  split at h
  · cases h
  · rename_i hv
    split at h
    · cases h
      obtain ⟨hmem, hslug, -⟩ := vaultForUserBySlug_some.mp hv
      exact ⟨hmem, hslug⟩
    · cases h

/-- The owner's request is answered with the vault as it is then. -/
theorem setVaultArchived_ok {item : Store.Vault} (archived : Bool)
    (h : Server.requireVaultOwner user slug d = .ok item) :
    (Server.setVaultArchived user slug archived d).1.status = 200 := by
  have hthere : ({ d with vaults := d.vaults.setArchived item.id archived } : Db).vaultByID item.id
      ≠ none := by
    intro hnone
    have hrow : { item with archived := archived } ∈
        (d.vaults.setArchived item.id archived).table.rows :=
      Vaults.mem_setArchived.mpr ⟨item, (requireVaultOwner_ok h).1, (if_pos rfl).symm⟩
    refine List.find?_eq_none.mp hnone _ hrow ?_
    exact decide_eq_true rfl
  simp only [Server.setVaultArchived, h, Server.updated]
  split
  · exact absurd ‹_› hthere
  · rfl

theorem setVaultArchived_comes (archived : Bool) (hfreed : ∀ item, archived = false →
      Server.requireVaultOwner user slug d = .ok item → freed item.id) :
    Comes env.draw freed d (Server.setVaultArchived user slug archived d).2 := by
  unfold Server.setVaultArchived
  split
  · exact .refl
  · rename_i item hitem
    refine .single (.vault _ _ _ _ _ fun v _ => ?_)
    cases archived with
    | true => exact .inl rfl
    | false => exact .inr (hfreed item rfl hitem)

theorem vaultRoute_comes (r : Request) (slug : Bytes) (s : State) (route : VaultRoute)
    (hfreed : ∀ item, route = .unarchive →
      Server.requireVaultOwner user slug s.db = .ok item → freed item.id) :
    Comes env.draw freed s.db (srv.vaultRoute env user r slug s route).2.db := by
  cases route with
  | rename => exact renameVault_comes
  | archive => exact setVaultArchived_comes true fun _ h => by cases h
  | unarchive => exact setVaultArchived_comes false fun item _ => hfreed item rfl
  | _ => exact .refl

theorem userRoute_comes (r : Request) (s : State) (route : UserRoute)
    (hfreed : ∀ slug item, route = .vault slug .unarchive →
      Server.requireVaultOwner user slug s.db = .ok item → freed item.id) :
    Comes env.draw freed s.db (srv.userRoute env user r s route).2.db := by
  cases route with
  | logout =>
    simp only [Server.userRoute, deleteSession]
    split
    · exact .refl
    · exact .single (.ended _)
  | changeOwnPassword => exact changeOwnPassword_comes
  | createVault => exact createVault_comes
  | vault slug route =>
    exact vaultRoute_comes r slug s route fun item hroute => hfreed slug item (hroute ▸ rfl)
  | me | vaults _ => exact .refl

/-- A session is let in for a user who is there and is not disabled. -/
theorem validateSession_some {users : Users} {sessions : Sessions} {now : Instant} {id : Bytes}
    (h : users.validateSession sessions now id = some user) :
    user ∈ users.table.rows ∧ user.disabled = false ∧
      ∃ r ∈ sessions.rows, r.id = id ∧ r.userID = user.id := by
  unfold Users.validateSession at h
  cases hr : sessions.get? id with
  | none =>
    rw [hr] at h
    cases h
  | some r =>
    simp only [hr] at h
    split at h
    · cases h
    · rename_i u hu
      split at h
      · cases h
      · split at h
        · cases h
        · rename_i hok
          cases h
          have hid : user.id = r.userID := by simpa using List.find?_some hu
          exact ⟨List.mem_of_find?_eq_some hu, by simpa using fun hd => hok (.inr hd), r,
            Keyed.mem_of_get? hr, Keyed.key_of_get? hr, hid.symm⟩

theorem requireSession_ok {session : Bytes} (h : Server.requireSession env d session = .ok user) :
    d.users.validateSession d.sessions env.now session = some user := by
  unfold Server.requireSession at h
  split at h
  · cases h
  · split at h
    · cases h
      assumption
    · split at h <;> cases h

end Handlers

/-- The request is accepted for taking the vault of the slug out of the archive. -/
def Call.unarchives (srv : Server) (s : State) (slug : Bytes) : Call → Prop
  | .api env r => r.route = .user (.vault slug .unarchive) ∧ (srv.serve env r s).1.status = 200
  | .dav .. => False

/-- The vaults that a request takes out of the archive. -/
def Call.freed (srv : Server) (s : State) (c : Call) (id : Int) : Prop :=
  ∃ v ∈ s.db.vaults.table.rows, v.id = id ∧ c.unarchives srv s v.slug

section Calls
variable {srv : Server} {env : Env}

theorem serve_comes (r : Request) (s : State) :
    Comes env.draw ((Call.api env r).freed srv s) s.db (srv.serve env r s).2.db := by
  unfold Server.serve
  split
  · exact register_comes
  · exact login_comes
  · rename_i route hroute
    split
    · exact .refl
    · rename_i u hu
      split
      · rename_i hcsrf
        refine userRoute_comes r s _ fun slug item hun hitem => ?_
        subst hun
        obtain ⟨hmem, rfl⟩ := requireVaultOwner_ok hitem
        refine ⟨item, hmem, rfl, hroute, ?_⟩
        simp only [Server.serve, hroute, hu, if_pos hcsrf]
        exact setVaultArchived_ok false hitem
      · exact .refl
  · split
    · exact .refl
    · rename_i u hu
      split
      · split
        · have hmem := (validateSession_some (requireSession_ok hu)).1
          exact adminRoute_comes (List.ne_nil_of_mem hmem) _
        · exact .refl
      · exact .refl

theorem serveDAV_db (auth : Option (Bytes × Bytes)) (r : WebDAV.Request) (s : State) :
    (srv.serveDAV env auth r s).2.db = s.db := by
  unfold Server.serveDAV
  split <;> rfl

/-- Whatever is asked, the tables change only so. -/
theorem Call.comes (srv : Server) (s : State) (c : Call) :
    Comes c.draw (c.freed srv s) s.db (c.after srv s).db := by
  cases c with
  | api env r => exact serve_comes r s
  | dav env auth r =>
    rw [Call.after, serveDAV_db]

/-- What the changes of a request keep holds after it. -/
theorem Call.keeps {p : Db → Prop} {s : State} (c : Call) (hs : p s.db)
    (hstep : ∀ d d', p d → Change c.draw (c.freed srv s) d d' → p d') :
    p (c.after srv s).db := by
  have hcomes := Call.comes srv s c
  generalize (c.after srv s).db = d at hcomes
  induction hcomes with
  | refl => exact hs
  | tail _ hlast ih => exact hstep _ _ ih hlast

end Calls

/-- What the changes keep holds in every run whose session ids are among the given ones. -/
theorem Server.run_invariant {p : Db → Prop} (ids : Bytes → Prop)
    (hstep : ∀ draw freed d d', ids draw → p d → Change draw freed d d' → p d') (srv : Server)
    {s : State} (hs : p s.db) {calls : List Call} (hcalls : ∀ c ∈ calls, ids c.draw) :
    p (srv.run s calls).db := by
  induction calls generalizing s with
  | nil => exact hs
  | cons c calls ih =>
    have hc : ids c.draw := hcalls c List.mem_cons_self
    exact ih (c.keeps hs fun d d' => hstep _ _ d d' hc) fun c' hc' =>
      hcalls c' (List.mem_cons_of_mem c hc')

/-- Where no session id matters. -/
theorem Server.run_always {p : Db → Prop}
    (hstep : ∀ draw freed d d', p d → Change draw freed d d' → p d') (srv : Server) {s : State}
    (hs : p s.db) (calls : List Call) : p (srv.run s calls).db :=
  srv.run_invariant (fun _ => True) (fun draw freed d d' _ => hstep draw freed d d') hs
    fun _ _ => trivial

end Mdock.Http
