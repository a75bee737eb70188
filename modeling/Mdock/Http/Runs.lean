import Mdock.Http.Accounts
import Mdock.Store.Places

/-! What holds in every run of requests on a store that was empty: there is one administrator,
and a vault has one member. -/
namespace Mdock.Http
open Mdock.Go Mdock.Lib Mdock.Store Mdock.Locks.Expiry Mdock.App

/-! ### The administrator -/

/-- The user is there with this id and login, not disabled, and the only administrator. -/
def AdminIs (id : Int) (login : Bytes) (users : Users) : Prop :=
  ∃ a ∈ users.table.rows, a.id = id ∧ a.login = login ∧ a.activeAdmin = true ∧
    ∀ u ∈ users.table.rows, u.isAdmin = true → u = a

section Admin
variable {users : Users} {id : Int} {login draw : Bytes} {freed : Int → Prop}

theorem AdminIs.countActiveAdmins (h : AdminIs id login users) : users.countActiveAdmins ≤ 1 := by
  obtain ⟨a, -, -, -, -, honly⟩ := h
  rw [Users.countActiveAdmins]
  have hall : ∀ u ∈ users.table.rows.filter User.activeAdmin, u = a := by
    intro u hu
    obtain ⟨hmem, hadmin⟩ := List.mem_filter.mp hu
    simp only [User.activeAdmin, Bool.and_eq_true] at hadmin
    exact honly u hmem hadmin.1
  have hnodup : (users.table.rows.filter User.activeAdmin).Nodup :=
    (List.Nodup.of_map _ users.ids).filter _
  generalize users.table.rows.filter User.activeAdmin = l at hall hnodup
  rw [List.eq_replicate_of_mem hall] at hnodup
  simpa using List.nodup_replicate.mp hnodup

/-- An update that leaves ids, logins and administrators alone, and does not disable the one. -/
theorem AdminIs.update {p : User → Bool} {f : User → User} {hl : ∀ u, (f u).login = u.login}
    (h : AdminIs id login users) (hi : ∀ u, (f u).id = u.id)
    (hadmin : ∀ u, (f u).isAdmin = u.isAdmin)
    (hactive : ∀ u ∈ users.table.rows, u.login = login → p u = true → u.activeAdmin = true →
      (f u).disabled = false) : AdminIs id login (users.update p f hl hi) := by
  obtain ⟨a, ha, rfl, rfl, hon, honly⟩ := h
  refine ⟨if p a then f a else a, Users.mem_update.mpr ⟨a, ha, rfl⟩, ?_, ?_, ?_, ?_⟩
  · split <;> simp only [hi]
  · split <;> simp only [hl]
  · split
    · rename_i hp
      have hf := hactive a ha rfl hp hon
      simp only [User.activeAdmin, Bool.and_eq_true] at hon ⊢
      exact ⟨(hadmin a).trans hon.1, by simp [hf]⟩
    · exact hon
  · intro u hu hu'
    obtain ⟨b, hb, rfl⟩ := Users.mem_update.mp hu
    rw [honly b hb (by split at hu' <;> simp_all)]

theorem AdminIs.insert {login' password : Bytes} (h : AdminIs id login users)
    (hfree : users.getUserByLogin login' = none) :
    AdminIs id login (users.insert login' password false) := by
  obtain ⟨a, ha, hid, hlogin, hon, honly⟩ := h
  refine ⟨a, (Users.mem_insert hfree).mpr (.inl ha), hid, hlogin, hon, fun u hu hadmin => ?_⟩
  rcases (Users.mem_insert hfree).mp hu with hu | rfl
  · exact honly u hu hadmin
  · cases hadmin

theorem AdminIs.step {d d' : Db} (h : AdminIs id login d.users)
    (hc : Change draw freed d d') : AdminIs id login d'.users := by
  cases hc with
  | loggedIn | ended | vault => exact h
  | password login' hash =>
    refine h.update (by intro u; rfl) (by intro u; rfl) fun u _ _ _ ha => ?_
    simp only [User.activeAdmin, Bool.and_eq_true, Bool.not_eq_true'] at ha
    exact ha.2
  | disabled hget hguard =>
    rename_i login' v
    refine h.update (by intro u; rfl) (by intro u; rfl) fun u hu hlogin hp ha => ?_
    -- the login is that of the one administrator, who would not be let go
    have hv : v = u := by
      have hu' := Keyed.get?_of_mem hu
      rw [of_decide_eq_true hp] at hu'
      exact Option.some.inj (hget.symm.trans hu')
    have hle := h.countActiveAdmins
    have htwo := hguard (hv ▸ ha)
    omega
  | enabled login' =>
    exact h.update (by intro u; rfl) (by intro u; rfl) (by intros; rfl)
  | registered hfree hadmin hf =>
    rename_i login' hash isAdmin
    rw [hf.users]
    cases isAdmin with
    | false => exact h.insert hfree
    | true =>
      obtain ⟨a, ha, -⟩ := h
      rw [hadmin.mp rfl] at ha
      cases ha
  | founded hf => exact hf.users ▸ h

/-- Nobody is there, or one administrator is. -/
def Governed (d : Db) : Prop :=
  d.users.table.rows = [] ∨ ∃ id login, AdminIs id login d.users

theorem Governed.step {d d' : Db} (h : Governed d) (hc : Change draw freed d d') :
    Governed d' := by
  rcases h with h | ⟨id, login, h⟩
  · cases hc with
    | loggedIn | ended | vault => exact .inl h
    | password | disabled | enabled =>
      refine .inl ?_
      simp only [Users.setPassword, Users.setUserDisabled, Users.update, Keyed.updateWhere, h,
        List.map_nil]
    | registered hfree hadmin hf =>
      rename_i login' hash isAdmin
      obtain rfl : isAdmin = true := hadmin.mpr h
      refine .inr ⟨d.users.seq + 1, login', ?_⟩
      rw [hf.users]
      refine ⟨_, (Users.mem_insert hfree).mpr (.inr rfl), rfl, rfl, rfl, fun u hu _ => ?_⟩
      rcases (Users.mem_insert hfree).mp hu with hu | rfl
      · rw [h] at hu
        cases hu
      · rfl
    | founded hf => exact .inl (hf.users ▸ h)
  · exact .inr ⟨id, login, h.step hc⟩

end Admin

/-! ### Vaults and their members -/

/-- A user with the id is there. -/
def HasUser (d : Db) (id : Int) : Prop := ∃ u ∈ d.users.table.rows, u.id = id

/-- A vault with the id, the slug and the path is there. -/
def HasVault (d : Db) (id : Int) (slug path : Bytes) : Prop :=
  ∃ v ∈ d.vaults.table.rows, v.id = id ∧ v.slug = slug ∧ v.path = path

/-- Every vault has one member, its owner, and every user has a vault. -/
structure Owned (d : Db) : Prop where
  owner : ∀ v ∈ d.vaults.table.rows, ∃ m ∈ d.members.rows, m.vaultID = v.id
  one : ∀ m ∈ d.members.rows, ∀ m' ∈ d.members.rows, m.vaultID = m'.vaultID → m = m'
  role : ∀ m ∈ d.members.rows, m.role = roleOwner
  user : ∀ m ∈ d.members.rows, HasUser d m.userID
  vault : ∀ m ∈ d.members.rows, ∃ slug path, HasVault d m.vaultID slug path
  home : ∀ u ∈ d.users.table.rows, ∃ m ∈ d.members.rows, m.userID = u.id

section Vaults
variable {d d' : Db} {id : Int} {slug path draw : Bytes} {freed : Int → Prop}

theorem hasUser_update {p : User → Bool} {f : User → User} {hl : ∀ u, (f u).login = u.login}
    (hi : ∀ u, (f u).id = u.id) {users : Users} : (∃ u ∈ (users.update p f hl hi).table.rows,
      u.id = id) ↔ ∃ u ∈ users.table.rows, u.id = id := by
  constructor
  · rintro ⟨u, hu, rfl⟩
    obtain ⟨a, ha, rfl⟩ := Users.mem_update.mp hu
    exact ⟨a, ha, by split <;> simp only [hi]⟩
  · rintro ⟨a, ha, rfl⟩
    exact ⟨_, Users.mem_update.mpr ⟨a, ha, rfl⟩, by split <;> simp only [hi]⟩

/-- Ids, slugs and paths of vaults stay. -/
theorem hasVault_update {vid : Int} {f : Store.Vault → Store.Vault} (hs : ∀ v, (f v).slug = v.slug)
    (hp : ∀ v, (f v).path = v.path) (hi : ∀ v, (f v).id = v.id) :
    HasVault { d with vaults := d.vaults.updateByID vid f hs hp hi } id slug path ↔
      HasVault d id slug path := by
  constructor
  · rintro ⟨v, hv, rfl, rfl, rfl⟩
    obtain ⟨a, ha, rfl⟩ := (Vaults.mem_updateByID hs hp hi).mp hv
    exact ⟨a, ha, by split <;> simp only [hi, hs, hp, and_self]⟩
  · rintro ⟨a, ha, rfl, rfl, rfl⟩
    refine ⟨_, (Vaults.mem_updateByID hs hp hi).mpr ⟨a, ha, rfl⟩, ?_⟩
    split <;> simp only [hi, hs, hp, and_self]

/-- Where users keep their ids and vaults and members are the same. -/
theorem Owned.of_users (h : Owned d) (hv : d'.vaults = d.vaults) (hm : d'.members = d.members)
    (hu : ∀ id, HasUser d' id ↔ HasUser d id) : Owned d' := by
  refine ⟨hv ▸ hm ▸ h.owner, hm ▸ h.one, hm ▸ h.role, fun m hmem => ?_, fun m hmem => ?_,
    fun u hmem => ?_⟩
  · exact (hu _).mpr (h.user m (hm ▸ hmem))
  · obtain ⟨slug, path, hvault⟩ := h.vault m (hm ▸ hmem)
    exact ⟨slug, path, by rwa [HasVault, hv]⟩
  · obtain ⟨w, hw, he⟩ := (hu u.id).mp ⟨u, hmem, rfl⟩
    rw [hm, ← he]
    exact h.home w hw

theorem Owned.updateByID {vid : Int} {f : Store.Vault → Store.Vault}
    (hs : ∀ v, (f v).slug = v.slug) (hp : ∀ v, (f v).path = v.path) (hi : ∀ v, (f v).id = v.id)
    (h : Owned d) : Owned { d with vaults := d.vaults.updateByID vid f hs hp hi } := by
  refine ⟨fun v hv => ?_, h.one, h.role, h.user, fun m hm => ?_, h.home⟩
  · obtain ⟨a, ha, rfl⟩ := (Vaults.mem_updateByID hs hp hi).mp hv
    obtain ⟨m, hm, he⟩ := h.owner a ha
    exact ⟨m, hm, he.trans (by split <;> simp only [hi])⟩
  · obtain ⟨slug, path, hvault⟩ := h.vault m hm
    exact ⟨slug, path, (hasVault_update hs hp hi).mpr hvault⟩

/-- A vault that is made has a new id, and its maker is its only member. -/
theorem Owned.founded {userID : Int} {d₁ : Db} (h : Owned d) (hf : Founded userID d₁ d')
    (hv : d₁.vaults = d.vaults) (hm : d₁.members = d.members)
    (husers : ∀ u ∈ d'.users.table.rows, u.id = userID ∨ ∃ m ∈ d.members.rows, m.userID = u.id)
    (hkept : ∀ id, HasUser d id → HasUser d' id) : Owned d' := by
  obtain ⟨v, now, hrows, hid, -, -, -, hmembers⟩ := hf.rows
  rw [hv] at hrows hid
  rw [hm] at hmembers
  have hold : ∀ w ∈ d.vaults.table.rows, w.id ≠ v.id := fun w hw he => by
    have hle := d.vaults.le_seq w hw
    omega
  have hother : ∀ m ∈ d.members.rows, m.vaultID ≠ v.id := fun m hmem => by
    obtain ⟨slug, path, w, hw, he, -⟩ := h.vault m hmem
    exact he ▸ hold w hw
  have hmem : ∀ m, m ∈ d'.members.rows ↔
      m = ⟨v.id, userID, roleOwner, now⟩ ∨ m ∈ d.members.rows := by
    intro m
    rw [hmembers, Keyed.mem_upsert]
    refine or_congr_right (and_iff_left_of_imp fun hm he => ?_)
    exact hother m hm (congrArg Prod.fst he)
  have hvault : ∀ w, w ∈ d'.vaults.table.rows ↔ w ∈ d.vaults.table.rows ∨ w = v := fun w => by
    rw [hrows, List.mem_append, List.mem_singleton]
  refine ⟨fun w hw => ?_, fun m hm m' hm' he => ?_, fun m hm => ?_, fun m hm => ?_, fun m hm => ?_,
    fun u hu => ?_⟩
  · rcases (hvault w).mp hw with hw | rfl
    · obtain ⟨m, hm, he⟩ := h.owner w hw
      exact ⟨m, (hmem m).mpr (.inr hm), he⟩
    · exact ⟨_, (hmem _).mpr (.inl rfl), rfl⟩
  · rcases (hmem m).mp hm with rfl | hm <;> rcases (hmem m').mp hm' with rfl | hm'
    · rfl
    · exact absurd he.symm (hother m' hm')
    · exact absurd he (hother m hm)
    · exact h.one m hm m' hm' he
  · rcases (hmem m).mp hm with rfl | hm
    · rfl
    · exact h.role m hm
  · rcases (hmem m).mp hm with rfl | hm
    · rw [HasUser, hf.users]
      exact hf.user
    · exact hkept _ (h.user m hm)
  · rcases (hmem m).mp hm with rfl | hm
    · exact ⟨v.slug, v.path, v, (hvault v).mpr (.inr rfl), rfl, rfl, rfl⟩
    · obtain ⟨slug, path, w, hw, hrest⟩ := h.vault m hm
      exact ⟨slug, path, w, (hvault w).mpr (.inl hw), hrest⟩
  · rcases husers u hu with he | ⟨m, hm, he⟩
    · exact ⟨_, (hmem _).mpr (.inl rfl), he.symm⟩
    · exact ⟨m, (hmem m).mpr (.inr hm), he⟩

theorem Owned.step (h : Owned d) (hc : Change draw freed d d') : Owned d' := by
  cases hc with
  | loggedIn | ended => exact ⟨h.owner, h.one, h.role, h.user, h.vault, h.home⟩
  | password | disabled | enabled =>
    exact h.of_users rfl rfl fun id => hasUser_update (by intro u; rfl)
  | vault vid f hs hp hi => exact h.updateByID hs hp hi
  | registered hfree hadmin hf =>
    refine h.founded hf rfl rfl (fun u hu => ?_) fun id hid => ?_
    · rw [hf.users] at hu
      rcases (Users.mem_insert hfree).mp hu with hu | rfl
      · exact .inr (h.home u hu)
      · exact .inl rfl
    · obtain ⟨u, hu, he⟩ := hid
      rw [HasUser, hf.users]
      exact ⟨u, (Users.mem_insert hfree).mpr (.inl hu), he⟩
  | founded hf =>
    refine h.founded hf rfl rfl (fun u hu => .inr (h.home u (hf.users ▸ hu))) fun id hid => ?_
    rwa [HasUser, hf.users]

/-- The vault is there, and its member is the user. -/
structure Theirs (id : Int) (slug path : Bytes) (userID : Int) (d : Db) : Prop where
  owned : Owned d
  vault : HasVault d id slug path
  member : ∃ m ∈ d.members.rows, m.vaultID = id ∧ m.userID = userID

theorem Theirs.founded {userID userID' : Int} {d₁ : Db} (h : Theirs id slug path userID d)
    (hf : Founded userID' d₁ d') (hv : d₁.vaults = d.vaults) (hm : d₁.members = d.members)
    (ho : Owned d') : Theirs id slug path userID d' := by
  obtain ⟨v, now, hrows, hid, -, -, -, hmembers⟩ := hf.rows
  obtain ⟨w, hw, rfl, hrest⟩ := h.vault
  obtain ⟨m, hmem, hvid, hu⟩ := h.member
  refine ⟨ho, ⟨w, ?_, rfl, hrest⟩, m, ?_, hvid, hu⟩
  · rw [hrows, hv]
    exact List.mem_append_left _ hw
  · rw [hmembers, hm]
    refine Keyed.mem_upsert.mpr (.inr ⟨hmem, fun he => ?_⟩)
    have hnew : m.vaultID = v.id := congrArg Prod.fst he
    have hle := d.vaults.le_seq w hw
    rw [hv] at hid
    omega

theorem Theirs.step {userID : Int} (h : Theirs id slug path userID d)
    (hc : Change draw freed d d') : Theirs id slug path userID d' := by
  have ho := h.owned.step hc
  cases hc with
  | loggedIn | ended | password | disabled | enabled => exact ⟨ho, h.vault, h.member⟩
  | vault vid f hs hp hi => exact ⟨ho, (hasVault_update hs hp hi).mpr h.vault, h.member⟩
  | registered hfree hadmin hf => exact h.founded hf rfl rfl ho
  | founded hf => exact h.founded hf rfl rfl ho

/-- A lookup of the vault by its slug finds it for that user alone. -/
theorem Theirs.lookup {userID : Int} (h : Theirs id slug path userID d) : ∃ v ∈ d.vaults.table.rows,
    v.id = id ∧ v.path = path ∧ ∀ other, d.vaultForUserBySlug other slug true =
      if other = userID then some (v, roleOwner) else none := by
  obtain ⟨v, hv, rfl, rfl, rfl⟩ := h.vault
  obtain ⟨m, hm, hvid, rfl⟩ := h.member
  refine ⟨v, hv, rfl, rfl, fun other => ?_⟩
  split
  · rename_i he
    exact vaultForUserBySlug_some.mpr
      ⟨hv, rfl, .inl rfl, m, hm, hvid, he.symm, h.owned.role m hm⟩
  · rename_i hne
    rw [Option.eq_none_iff_forall_ne_some]
    rintro ⟨w, role⟩ hw
    obtain ⟨hmem, hslug, -, m', hm', hvid', rfl, -⟩ := vaultForUserBySlug_some.mp hw
    have hsame : w = v := List.inj_on_of_nodup_map d.vaults.table.nodup hmem hv hslug
    rw [hsame, ← hvid] at hvid'
    exact hne (congrArg Member.userID (h.owned.one m' hm' m hm hvid'))

theorem Canonical.step (h : d.vaults.Canonical) (hc : Change draw freed d d') :
    d'.vaults.Canonical := by
  have hfounded : ∀ {userID : Int} {d₁ : Db}, Founded userID d₁ d' → d₁.vaults = d.vaults →
      d'.vaults.Canonical := by
    rintro userID d₁ hf hv w hw
    obtain ⟨v, now, hrows, -, -, hslug, hpath, -⟩ := hf.rows
    rw [hrows, hv, List.mem_append, List.mem_singleton] at hw
    rcases hw with hw | rfl
    · exact h w hw
    · exact ⟨hslug, hpath⟩
  cases hc with
  | loggedIn | ended | password | disabled | enabled => exact h
  | vault vid f hs hp hi =>
    intro w hw
    obtain ⟨a, ha, rfl⟩ := (Vaults.mem_updateByID hs hp hi).mp hw
    have hold := h a ha
    split
    · rw [hs, hp, hi]
      exact hold
    · exact hold
  | registered hfree hadmin hf => exact hfounded hf rfl
  | founded hf => exact hfounded hf rfl

end Vaults

variable (srv : Server) {s : State}

/-- Once a user is there, the same one is the only administrator and not disabled, whatever is
asked from then on. -/
theorem one_administrator (hs : s.db = nothing) (calls : List Call)
    (hused : (srv.run s calls).db.users.table.rows ≠ []) :
    ∃ id login, ∀ later, ∃ a ∈ (srv.run (srv.run s calls) later).db.users.table.rows,
      a.id = id ∧ a.login = login ∧ a.isAdmin = true ∧ a.disabled = false ∧
        ∀ u ∈ (srv.run (srv.run s calls) later).db.users.table.rows, u.isAdmin = true → u = a := by
  have hgov : Governed (srv.run s calls).db := by
    refine srv.run_always (fun _ _ _ _ => Governed.step) (.inl ?_) calls
    rw [hs]
    rfl
  rcases hgov with h | ⟨id, login, h⟩
  · exact absurd h hused
  · refine ⟨id, login, fun later => ?_⟩
    obtain ⟨a, ha, hid, hlogin, hon, honly⟩ :=
      srv.run_always (p := fun d => AdminIs id login d.users) (fun _ _ _ _ => AdminIs.step) h
        later
    simp only [User.activeAdmin, Bool.and_eq_true, Bool.not_eq_true'] at hon
    exact ⟨a, ha, hid, hlogin, hon.1, hon.2, honly⟩

/-- A server for examples. -/
def smallServer : Server :=
  ⟨Accounts.saltedText, id, fun _ _ _ _ => none, fun _ => true, Vault.noteService, 30000000000, [],
    3600000000000⟩

/-- Nothing fails, and the id is drawn. -/
def drawing (id : Bytes) : Env :=
  ⟨fun _ => false, 0, fun _ => 0, [], id, [], true, true⟩

def fresh : State := ⟨nothing, ⟨bare, Keyed.empty⟩⟩

def registerAnn : Call := .api (drawing (utf8 "s1"))
  { route := .pub .register, body := some { username := utf8 "ann", password := utf8 "secret" } }

theorem one_administrator_ann : ∃ id login, ∀ later,
    ∃ a ∈ (smallServer.run (smallServer.run fresh [registerAnn]) later).db.users.table.rows,
      a.id = id ∧ a.login = login ∧ a.isAdmin = true ∧ a.disabled = false ∧
        ∀ u ∈ (smallServer.run (smallServer.run fresh [registerAnn]) later).db.users.table.rows,
          u.isAdmin = true → u = a :=
  one_administrator smallServer rfl [registerAnn] (by decide +kernel)

theorem owned_run (hs : s.db = nothing) (calls : List Call) : Owned (srv.run s calls).db := by
  refine srv.run_always (fun _ _ _ _ => Owned.step) ?_ calls
  rw [hs]
  have hnone : ∀ {α : Type} {p : α → Prop}, ∀ x ∈ ([] : List α), p x := fun x hx => by cases hx
  exact ⟨hnone, hnone, hnone, hnone, hnone, hnone⟩

theorem canonical_run (hs : s.db = nothing) (calls : List Call) :
    (srv.run s calls).db.vaults.Canonical := by
  refine srv.run_always (fun _ _ _ _ => Canonical.step) ?_ calls
  rw [hs]
  intro v hv
  cases hv

theorem Owned.theirs {d : Db} (ho : Owned d) {v : Store.Vault} (hv : v ∈ d.vaults.table.rows) :
    ∃ u ∈ d.users.table.rows, Theirs v.id v.slug v.path u.id d := by
  obtain ⟨m, hm, he⟩ := ho.owner v hv
  obtain ⟨u, hu, huser⟩ := ho.user m hm
  exact ⟨u, hu, ho, ⟨v, hv, rfl, rfl, rfl⟩, m, hm, he, huser.symm⟩

/-- Every user has a vault, and every vault is found by one user, who is its owner, and by
nobody else, whatever is asked from then on. -/
theorem vaults_owned (hs : s.db = nothing) (calls : List Call) :
    let d := (srv.run s calls).db
    (∀ u ∈ d.users.table.rows,
        ∃ slug v, d.vaultForUserBySlug u.id slug true = some (v, roleOwner)) ∧
      ∀ v ∈ d.vaults.table.rows, ∃ u ∈ d.users.table.rows, ∀ later,
        let d' := (srv.run (srv.run s calls) later).db
        ∃ v' ∈ d'.vaults.table.rows, v'.id = v.id ∧ v'.path = v.path ∧
          ∀ other, d'.vaultForUserBySlug other v.slug true =
            if other = u.id then some (v', roleOwner) else none := by
  have ho := owned_run srv hs calls
  constructor
  · intro u hu
    obtain ⟨m, hm, he⟩ := ho.home u hu
    obtain ⟨slug, path, v, hv, hid, rfl, -⟩ := ho.vault m hm
    exact ⟨v.slug, v, vaultForUserBySlug_some.mpr
      ⟨hv, rfl, .inl rfl, m, hm, hid.symm, he, ho.role m hm⟩⟩
  · intro v hv
    obtain ⟨u, hu, ht⟩ := ho.theirs hv
    exact ⟨u, hu, fun later => (srv.run_always (fun _ _ _ _ => Theirs.step) ht later).lookup⟩

theorem vaults_owned_ann : (smallServer.run fresh [registerAnn]).db.vaults.table.rows ≠ [] ∧
    ∀ v ∈ (smallServer.run fresh [registerAnn]).db.vaults.table.rows,
      ∃ u ∈ (smallServer.run fresh [registerAnn]).db.users.table.rows, ∀ later,
        let d := (smallServer.run (smallServer.run fresh [registerAnn]) later).db
        ∃ v' ∈ d.vaults.table.rows, v'.id = v.id ∧ v'.path = v.path ∧
          ∀ other, d.vaultForUserBySlug other v.slug true =
            if other = u.id then some (v', roleOwner) else none :=
  ⟨by decide +kernel, (vaults_owned smallServer rfl [registerAnn]).2⟩

/-! ### Sessions that are ended -/

/-- The sessions that a request, once it is answered with 200, has ended. -/
def ends (d : Db) (user : User) (r : Request) (row : Session) : Prop :=
  match r.route with
  | .user .logout => row.id = r.session
  | .user .changeOwnPassword => row.userID = user.id
  | .admin (.setPassword login) | .admin (.disableUser login) | .admin (.revokeSessions login) =>
    ∃ u, d.users.getUserByLogin login = some u ∧ u.id = row.userID
  | _ => False

section Sessions
variable {srv} {env : Env} {d : Db} {user : User} {login password : Bytes} {row : Session}

theorem get?_deleteSessionsForLogin {users : Users} {sessions : Sessions} {u : User}
    (hu : users.getUserByLogin login = some u) (hrow : row ∈ sessions.rows)
    (he : u.id = row.userID) :
    (users.deleteSessionsForLogin sessions login).get? row.id = none := by
  rw [Users.deleteSessionsForLogin, Keyed.get?_deleteWhere, Keyed.get?_of_mem hrow,
    Option.filter_eq_none_iff]
  rintro r hr
  cases hr
  have hany : ∃ x ∈ users.table.rows, x.login = login ∧ x.id = row.userID :=
    ⟨u, Keyed.mem_of_get? hu, Keyed.key_of_get? hu, he⟩
  simpa using hany

theorem setPassword_ends {u : User} (hu : d.users.getUserByLogin login = some u)
    (hrow : row ∈ d.sessions.rows) (he : u.id = row.userID) {d' : Db}
    (h : srv.setPassword env login password d = (some true, d')) :
    d'.sessions.get? row.id = none := by
  unfold Server.setPassword at h
  split at h
  · cases h
  · split at h
    · cases h
    · split at h
      · cases h
      · cases h
        exact get?_deleteSessionsForLogin hu hrow he

theorem changeOwnPassword_ends {body : Option Fields}
    (hu : d.users.getUserByLogin user.login = some user) (hrow : row ∈ d.sessions.rows)
    (he : user.id = row.userID) : (srv.changeOwnPassword env user body d).1.status = 200 →
      (srv.changeOwnPassword env user body d).2.sessions.get? row.id = none := by
  intro hok
  cases body with
  | none => cases hok
  | some f =>
    revert hok
    simp only [Server.changeOwnPassword]
    split
    · exact fun hok => by cases hok
    · split
      · exact fun hok => by cases hok
      · split
        · rename_i hset
          exact fun _ => setPassword_ends hu hrow he hset
        · exact fun hok => by cases hok

theorem adminSetPassword_ends {body : Option Fields} {u : User}
    (hu : d.users.getUserByLogin login = some u) (hrow : row ∈ d.sessions.rows)
    (he : u.id = row.userID) (hok : (srv.adminSetPassword env login body d).1.status = 200) :
    (srv.adminSetPassword env login body d).2.sessions.get? row.id = none := by
  cases body with
  | none => cases hok
  | some f =>
    revert hok
    simp only [Server.adminSetPassword]
    split
    · exact fun hok => by cases hok
    · split
      · rename_i hset
        exact fun _ => setPassword_ends hu hrow he hset
      · exact fun hok => by cases hok
      · exact fun hok => by cases hok

theorem disable_ends {u : User} (hu : d.users.getUserByLogin login = some u)
    (hrow : row ∈ d.sessions.rows) (he : u.id = row.userID)
    (hok : (Server.adminSetUserDisabled login true d).1.status = 200) :
    (Server.adminSetUserDisabled login true d).2.sessions.get? row.id = none := by
  have hget : (d.users.setUserDisabled login true).getUserByLogin login =
      some (if decide (u.login = login) then { u with disabled := true } else u) := by
    have h := Keyed.get?_updateWhere d.users.table (fun u => decide (u.login = login))
      (fun u => { u with disabled := true }) (fun _ => rfl) login
    rw [show d.users.table.get? login = some u from hu] at h
    exact h
  revert hok
  simp only [Server.adminSetUserDisabled, hu, if_true]
  split
  · exact fun hok => by cases hok
  · exact fun _ => get?_deleteSessionsForLogin hget hrow (by split <;> exact he)

theorem adminRoute_ends {body : Option Fields} {route : AdminRoute}
    (hroute : route = .setPassword login ∨ route = .disableUser login ∨
      route = .revokeSessions login) {u : User} (hu : d.users.getUserByLogin login = some u)
    (hrow : row ∈ d.sessions.rows) (he : u.id = row.userID)
    (hok : (srv.adminRoute env body d route).1.status = 200) :
    (srv.adminRoute env body d route).2.sessions.get? row.id = none := by
  rcases hroute with rfl | rfl | rfl
  · exact adminSetPassword_ends hu hrow he hok
  · exact disable_ends hu hrow he hok
  · simp only [Server.adminRoute, Server.adminRevokeSessions, hu]
    exact get?_deleteSessionsForLogin hu hrow he

theorem get?_deleteSession {sessions : Sessions} (hne : row.id ≠ []) :
    (deleteSession sessions row.id).get? row.id = none := by
  rw [deleteSession, if_neg hne, Keyed.get?_deleteWhere, Option.filter_eq_none_iff]
  intro r hr
  simpa using Keyed.key_of_get? hr

theorem admin_ends {r : Request} {route : AdminRoute} (hr : r.route = .admin route)
    (hin : Server.requireSession env d r.session = .ok user) {files : App.World}
    (hok : (srv.serve env r ⟨d, files⟩).1.status = 200)
    (h : (srv.adminRoute env r.body d route).1.status = 200 →
      (srv.adminRoute env r.body d route).2.sessions.get? row.id = none) :
    (srv.serve env r ⟨d, files⟩).2.db.sessions.get? row.id = none := by
  revert hok
  simp only [Server.serve, hr, hin]
  split
  · split
    · exact h
    · exact fun hok => by cases hok
  · exact fun hok => by cases hok

theorem user_ends {r : Request} {route : UserRoute} (hr : r.route = .user route)
    (hin : Server.requireSession env d r.session = .ok user) {files : App.World}
    (hok : (srv.serve env r ⟨d, files⟩).1.status = 200)
    (h : (srv.userRoute env user r ⟨d, files⟩ route).1.status = 200 →
      (srv.userRoute env user r ⟨d, files⟩ route).2.db.sessions.get? row.id = none) :
    (srv.serve env r ⟨d, files⟩).2.db.sessions.get? row.id = none := by
  revert hok
  simp only [Server.serve, hr, hin]
  split
  · exact h
  · exact fun hok => by cases hok

/-- Once a request has ended a session, it is not there. -/
theorem serve_ends {r : Request} (hin : Server.requireSession env d r.session = .ok user)
    {files : App.World} (hok : (srv.serve env r ⟨d, files⟩).1.status = 200)
    (hrow : row ∈ d.sessions.rows) (he : ends d user r row) :
    (srv.serve env r ⟨d, files⟩).2.db.sessions.get? row.id = none := by
  have huser := (validateSession_some (requireSession_ok hin)).1
  unfold ends at he
  split at he
  · rename_i hr
    refine user_ends hr hin hok fun _ => ?_
    simp only [Server.userRoute, ← he]
    refine get?_deleteSession fun hnil => ?_
    rw [Server.requireSession, if_pos (he.symm.trans hnil)] at hin
    cases hin
  · rename_i hr
    exact user_ends hr hin hok (changeOwnPassword_ends (Keyed.get?_of_mem huser) hrow he.symm)
  · rename_i login hr
    obtain ⟨u, hu, he⟩ := he
    exact admin_ends hr hin hok (adminRoute_ends (.inl rfl) hu hrow he)
  · rename_i login hr
    obtain ⟨u, hu, he⟩ := he
    exact admin_ends hr hin hok (adminRoute_ends (.inr (.inl rfl)) hu hrow he)
  · rename_i login hr
    obtain ⟨u, hu, he⟩ := he
    exact admin_ends hr hin hok (adminRoute_ends (.inr (.inr rfl)) hu hrow he)
  · cases he

/-- A session that is gone comes back only when its id is drawn again. -/
theorem gone_step {id draw : Bytes} {freed : Int → Prop} {d' : Db} (hne : draw ≠ id)
    (h : d.sessions.get? id = none) (hc : Change draw freed d d') : d'.sessions.get? id = none := by
  have hdeleted : ∀ p, (d.sessions.deleteWhere p).get? id = none := fun p => by
    rw [Keyed.get?_deleteWhere, h]
    rfl
  cases hc with
  | loggedIn => rwa [Keyed.get?_upsert, if_neg hne]
  | ended p => exact hdeleted p
  | password | disabled => exact hdeleted _
  | enabled | vault => exact h
  | registered _ _ hf => rw [hf.sessions, h]
  | founded hf => rw [hf.sessions, h]

theorem requireSession_gone {id : Bytes} (h : d.sessions.get? id = none) :
    Server.requireSession env d id = .error (fail 401 "unauthorized") := by
  have hnone : d.users.validateSession d.sessions env.now id = none := by
    simp only [Users.validateSession, h]
  have hrows : ∀ r ∈ d.sessions.rows, r.id ≠ id := by
    rintro r hr rfl
    rw [Keyed.get?_of_mem hr] at h
    cases h
  unfold Server.requireSession
  split
  · rfl
  · rw [hnone]
    simp only
    rw [if_neg]
    rintro ⟨r, hr, he, -⟩
    exact hrows r hr he

end Sessions

/-- A session that a request has ended is refused from then on, whatever is asked in between,
unless its id is drawn again. -/
theorem ended_sessions_refused {env : Env} {r : Request} {user : User} {row : Session}
    (hin : Server.requireSession env s.db r.session = .ok user)
    (hok : (srv.serve env r s).1.status = 200) (hrow : row ∈ s.db.sessions.rows)
    (he : ends s.db user r row) {later : List Call} (hdraw : ∀ c ∈ later, c.draw ≠ row.id)
    {env' : Env} {r' : Request} (hsession : r'.session = row.id)
    (hroute : ∀ route, r'.route ≠ .pub route) :
    let t := srv.run (srv.serve env r s).2 later
    srv.serve env' r' t = (fail 401 "unauthorized", t) := by
  have hgone : (srv.run (srv.serve env r s).2 later).db.sessions.get? row.id = none :=
    srv.run_invariant (fun draw => draw ≠ row.id) (fun _ _ _ _ => gone_step)
      (serve_ends hin hok hrow he) hdraw
  intro t
  have hrefused : Server.requireSession env' t.db r'.session = .error (fail 401 "unauthorized") :=
    hsession ▸ requireSession_gone hgone
  unfold Server.serve
  split
  · exact absurd ‹_› (hroute _)
  · exact absurd ‹_› (hroute _)
  · rw [hrefused]
  · rw [hrefused]

def loginAnn : Call := .api (drawing (utf8 "s2"))
  { route := .pub .login, body := some { username := utf8 "ann", password := utf8 "secret" } }

/-- Ann registers, ends her session and logs in again. -/
theorem ended_sessions_refused_ann :
    let s := smallServer.run fresh [registerAnn]
    let logout : Request := ⟨.user .logout, utf8 "s1", utf8 "x", utf8 "x", none⟩
    let me : Request := ⟨.user .me, utf8 "s1", [], [], none⟩
    let t := smallServer.run (smallServer.serve (drawing []) logout s).2 [loginAnn]
    smallServer.serve (drawing []) me t = (fail 401 "unauthorized", t) := by
  intro s logout me t
  have hin : (Server.requireSession (drawing []) s.db (utf8 "s1")).toOption =
      some ⟨1, utf8 "ann", utf8 "secret", true, false⟩ := by decide +kernel
  cases hu : Server.requireSession (drawing []) s.db (utf8 "s1") with
  | error reply =>
    rw [hu] at hin
    cases hin
  | ok user =>
    have hrow : ∃ row ∈ s.db.sessions.rows, row.id = utf8 "s1" := by decide +kernel
    obtain ⟨row, hrow, hid⟩ := hrow
    have hdraw : ∀ c ∈ [loginAnn], c.draw ≠ row.id := fun c hc => by
      rw [List.mem_singleton.mp hc, hid]
      decide
    exact ended_sessions_refused smallServer (r := logout) hu (by decide +kernel) hrow hid hdraw
      hid.symm (by simp [me])

end Mdock.Http
