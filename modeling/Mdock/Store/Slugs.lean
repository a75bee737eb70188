import Mdock.Lib.Run
import Mdock.Store.Vaults
import Mdock.Vault.Path

/-! The slugs and the directories of the vaults, over all the users and vaults that are
created. -/
namespace Mdock.Store
open Mdock.Go Mdock.Lib

/-! ### What `Slug` returns -/

/-- `[a-z0-9]`. -/
def isAlnum (c : UInt8) : Prop := 0x61 ≤ c ∧ c ≤ 0x7A ∨ 0x30 ≤ c ∧ c ≤ 0x39

instance (c : UInt8) : Decidable (isAlnum c) := inferInstanceAs (Decidable (_ ∨ _))

/-- `[a-z0-9]+(-[a-z0-9]+)*`. -/
inductive IsSlug : Bytes → Prop
  | run {b : Bytes} : b ≠ [] → (∀ c ∈ b, isAlnum c) → IsSlug b
  | dash {b r : Bytes} : IsSlug b → r ≠ [] → (∀ c ∈ r, isAlnum c) → IsSlug (b ++ Store.dash :: r)

namespace IsSlug
variable {b : Bytes} {c : UInt8}

theorem ne_nil (h : IsSlug b) : b ≠ [] := by
  cases h with
  | run hne => exact hne
  | dash => simp

theorem concat (h : IsSlug b) (hc : isAlnum c) : IsSlug (b ++ [c]) := by
  have snoc : ∀ {r : Bytes}, (∀ c ∈ r, isAlnum c) → ∀ c' ∈ r ++ [c], isAlnum c' := by
    intro r hr c' hc'
    rcases List.mem_append.mp hc' with hm | hm
    · exact hr c' hm
    · rwa [List.mem_singleton.mp hm]
  cases h with
  | run hne hb => exact .run (by simp) (snoc hb)
  | dash hb hne hr =>
    rw [List.append_assoc, List.cons_append]
    exact .dash hb (by simp) (snoc hr)

theorem getLast? (h : IsSlug b) : ∃ c, b.getLast? = some c ∧ c ≠ Store.dash := by
  have last : ∀ {r : Bytes}, r ≠ [] → (∀ c ∈ r, isAlnum c) →
      ∃ c, r.getLast? = some c ∧ c ≠ Store.dash := by
    intro r hne hr
    refine ⟨r.getLast hne, List.getLast?_eq_some_getLast hne, fun he => ?_⟩
    exact absurd (he ▸ hr _ (List.getLast_mem hne)) (by decide)
  cases h with
  | run hne hb => exact last hne hb
  | dash hb hne hr =>
    obtain ⟨c, hc, hd⟩ := last hne hr
    refine ⟨c, ?_, hd⟩
    rw [List.getLast?_append, List.getLast?_cons, hc]
    rfl

end IsSlug

/-- What the loop has built: nothing, a slug, or a slug and a dash. -/
def Building (b : Bytes × Bool) : Prop :=
  b = ([], false) ∨ (IsSlug b.1 ∧ b.2 = false) ∨ ∃ s, IsSlug s ∧ b = (s ++ [dash], true)

theorem isAlnum_of_rune {r : Char} (h : isSlugRune r) : isAlnum (UInt8.ofNat r.toNat) := by
  rcases isSlugByte_of_rune h with h' | h' | h'
  · exact .inl h'
  · exact .inr h'
  · have hn : (97 ≤ r.toNat ∧ r.toNat ≤ 122) ∨ (48 ≤ r.toNat ∧ r.toNat ≤ 57) := h
    have ht := congrArg UInt8.toNat h'
    rw [UInt8.toNat_ofNat'] at ht
    change _ = 45 at ht
    omega

theorem building_slugStep {b : Bytes × Bool} (h : Building b) (r : Char) :
    Building (slugStep b r) := by
  by_cases hr : isSlugRune r
  · have hc := isAlnum_of_rune hr
    have hone : ∀ c ∈ [UInt8.ofNat r.toNat], isAlnum c := by simpa using hc
    rw [slugStep, if_pos hr]
    refine .inr (.inl ⟨?_, rfl⟩)
    rcases h with rfl | ⟨hs, -⟩ | ⟨s, hs, rfl⟩
    · exact .run (by simp) hone
    · exact hs.concat hc
    · rw [List.append_assoc]
      exact .dash hs (by simp) hone
  · rw [slugStep, if_neg hr]
    rcases h with rfl | ⟨hs, hl⟩ | ⟨s, hs, rfl⟩
    · exact .inl (by simp)
    · rw [if_pos (by simp [hl, hs.ne_nil])]
      exact .inr (.inr ⟨b.1, hs, rfl⟩)
    · exact .inr (.inr ⟨s, hs, by simp⟩)

theorem building_foldl (rs : List Char) {b : Bytes × Bool} (h : Building b) :
    Building (rs.foldl slugStep b) := by
  induction rs generalizing b with
  | nil => exact h
  | cons r rs ih => exact ih (building_slugStep h r)

theorem trimDashes_of_isSlug {b : Bytes} (h : IsSlug b) : trimDashes b = b := by
  obtain ⟨c, hc, hd⟩ := h.getLast?
  rw [← List.head?_reverse] at hc
  obtain ⟨rest, hrest⟩ := List.head?_eq_some_iff.mp hc
  rw [trimDashes, hrest, List.dropWhile_cons_of_neg (by simpa using hd), ← hrest,
    List.reverse_reverse]

theorem trimDashes_dash (b : Bytes) : trimDashes (b ++ [dash]) = trimDashes b := by
  simp [trimDashes]

/-- `Slug` returns a slug. -/
theorem isSlug_slug (input : List Char) : IsSlug (slug input) := by
  have h := building_foldl (input.map toLower) (.inl rfl : Building ([], false))
  unfold slug
  simp only
  generalize (input.map toLower).foldl slugStep ([], false) = b at h ⊢
  rcases h with rfl | ⟨hs, -⟩ | ⟨s, hs, rfl⟩
  · exact .run (by decide) (by decide +kernel)
  · rw [trimDashes_of_isSlug hs, if_neg hs.ne_nil]
    exact hs
  · simp only
    rw [trimDashes_dash, trimDashes_of_isSlug hs, if_neg hs.ne_nil]
    exact hs

/-! ### Slugs are left alone -/

theorem runes_ascii {s : Bytes} (h : ∀ c ∈ s, c < 0x80) :
    runes s = s.map fun c => Char.ofNat c.toNat := by
  have go : ∀ (s : Bytes) (fuel : Nat), s.length ≤ fuel → (∀ c ∈ s, c < 0x80) →
      decodeRunes fuel s = s.map fun c => Char.ofNat c.toNat := by
    intro s
    induction s with
    | nil => intro fuel _ _; cases fuel <;> rfl
    | cons c s ih =>
      intro fuel hf hs
      cases fuel with
      | zero => exact absurd hf (by simp)
      | succ fuel =>
        have hc : runeTail c = some [] := if_pos (hs c (by simp))
        rw [decodeRunes, hc]
        simp only [List.length_nil, List.take_zero, List.drop_zero, List.foldl_nil, if_true,
          List.map_cons]
        rw [ih fuel (by simpa using hf) fun c' hc' => hs c' (List.mem_cons_of_mem c hc')]
        rfl
  exact go s _ le_rfl h

/-- The rune of a byte of a slug. -/
theorem slugByte_rune {c : UInt8} (h : isAlnum c ∨ c = dash) : c < 0x80 ∧
    toLower (Char.ofNat c.toNat) = Char.ofNat c.toNat ∧
    (isSlugRune (Char.ofNat c.toNat) ↔ isAlnum c) ∧ UInt8.ofNat (Char.ofNat c.toNat).toNat = c := by
  have all : ∀ n < 256, isAlnum (UInt8.ofNat n) ∨ UInt8.ofNat n = dash → UInt8.ofNat n < 0x80 ∧
      toLower (Char.ofNat n) = Char.ofNat n ∧
      (isSlugRune (Char.ofNat n) ↔ isAlnum (UInt8.ofNat n)) ∧
      UInt8.ofNat (Char.ofNat n).toNat = UInt8.ofNat n := by decide +kernel
  have hc := all c.toNat c.toNat_lt
  rw [UInt8.ofNat_toNat] at hc
  exact hc h

theorem IsSlug.bytes {b : Bytes} (h : IsSlug b) : ∀ c ∈ b, isAlnum c ∨ c = Store.dash := by
  induction h with
  | run _ hb => exact fun c hc => .inl (hb c hc)
  | dash _ _ hr ih =>
    intro c hc
    rcases List.mem_append.mp hc with hc | hc
    · exact ih c hc
    · rcases List.mem_cons.mp hc with rfl | hc
      · exact .inr rfl
      · exact .inl (hr c hc)

theorem foldl_slugStep_run {b : Bytes × Bool} {r : Bytes} (hne : r ≠ [])
    (h : ∀ c ∈ r, isAlnum c) :
    (r.map fun c => Char.ofNat c.toNat).foldl slugStep b = (b.1 ++ r, false) := by
  induction r generalizing b with
  | nil => exact absurd rfl hne
  | cons c r ih =>
    obtain ⟨-, -, hrune, hbyte⟩ := slugByte_rune (.inl (h c (by simp)))
    rw [List.map_cons, List.foldl_cons, slugStep, if_pos (hrune.mpr (h c (by simp))), hbyte]
    cases r with
    | nil => rfl
    | cons d r =>
      rw [ih (by simp) fun c' hc' => h c' (List.mem_cons_of_mem c hc')]
      simp

theorem foldl_slugStep_slug {b : Bytes} (h : IsSlug b) :
    (b.map fun c => Char.ofNat c.toNat).foldl slugStep ([], false) = (b, false) := by
  induction h with
  | run hne hb => exact foldl_slugStep_run hne hb
  | @dash b r hb hne hr ih =>
    obtain ⟨-, -, hrune, -⟩ := slugByte_rune (.inr rfl)
    have hdash : slugStep (b, false) (Char.ofNat Store.dash.toNat) = (b ++ [Store.dash], true) := by
      rw [slugStep, if_neg (fun hs => absurd (hrune.mp hs) (by decide)),
        if_pos (by simp [hb.ne_nil])]
    rw [List.map_append, List.foldl_append, ih, List.map_cons, List.foldl_cons, hdash,
      foldl_slugStep_run hne hr, List.append_assoc]
    rfl

/-- `Slug` leaves a slug alone. -/
theorem slug_of_isSlug {b : Bytes} (h : IsSlug b) : slug (runes b) = b := by
  have hlower : (b.map fun c => Char.ofNat c.toNat).map toLower =
      b.map fun c => Char.ofNat c.toNat := by
    rw [List.map_map]
    exact List.map_congr_left fun c hc => (slugByte_rune (h.bytes c hc)).2.1
  unfold slug
  simp only
  rw [runes_ascii fun c hc => (slugByte_rune (h.bytes c hc)).1, hlower, foldl_slugStep_slug h,
    trimDashes_of_isSlug h, if_neg h.ne_nil]

/-! ### The slugs a vault can get -/

theorem sprintInt_natCast {n : Nat} (h : n ≠ 0) : sprintInt n = decimal n n := by
  have hn : ¬ (n : Int) < 0 := by omega
  have hz : ¬ (n : Int) = 0 := by omega
  rw [sprintInt, if_neg hn, if_neg hz, Int.natAbs_natCast, List.nil_append]

theorem isSlug_of_mem_vaultSlugs {name s : Bytes} (h : s ∈ vaultSlugs name) : IsSlug s := by
  obtain ⟨i, hi, rfl⟩ := List.mem_map.mp h
  obtain ⟨n, -, rfl⟩ : ∃ n : Nat, n < 100 ∧ i = n := by simpa using hi
  by_cases hn : n = 0
  · simp only [hn, Nat.cast_zero, if_true]
    exact isSlug_slug _
  · have hi : ¬ (n : Int) = 0 := by omega
    have hd : utf8 "-" = [dash] := by decide
    simp only [hi, if_false, hd, List.append_assoc, List.singleton_append]
    rw [← Nat.cast_succ, sprintInt_natCast (by omega)]
    exact .dash (isSlug_slug _) (decimal_ne_nil (by omega)) fun c hc =>
      .inr (decimal_digits _ _ c hc)

/-! ### The tables -/

/-- The slugs that are taken. -/
def Vaults.slugs (t : Vaults) : List Bytes := t.table.rows.map Vault.slug

def vaultPath (id : Int) : Bytes := utf8 "vault-" ++ sprintInt id

/-- Every vault has a slug and a directory of its own number. -/
def Vaults.Canonical (t : Vaults) : Prop :=
  ∀ v ∈ t.table.rows, IsSlug v.slug ∧ v.path = vaultPath v.id

theorem pendingVaultPath_ne (slug : Bytes) (id : Int) : pendingVaultPath slug ≠ vaultPath id := by
  have hp : (pendingVaultPath slug).head? = some 0x5F := by rfl
  have hv : (vaultPath id).head? = some 0x76 := by rfl
  intro he
  rw [he, hv] at hp
  exact absurd hp (by decide)

/-- Only a slug that is taken keeps a row out. -/
theorem Vaults.insert_none {t : Vaults} (ht : t.Canonical) {name slug kind : Bytes} {now : Instant}
    (h : t.insert name slug kind (pendingVaultPath slug) now = none) : slug ∈ t.slugs := by
  unfold Vaults.insert at h
  split at h
  · cases h
  · rename_i hno
    by_contra hslug
    refine hno ⟨hslug, fun hm => ?_⟩
    obtain ⟨v, hv, he⟩ := List.mem_map.mp hm
    exact pendingVaultPath_ne slug v.id (he.symm.trans (ht v hv).2)

section Inserted
variable {faults : Step → Bool} {d d' : Db} {userID : Int} {name kind : Bytes} {now : Instant}
variable {slugs : List Bytes}

theorem stmt_avoids (s : Step) : Op.Avoids .noSlug (stmt faults s) :=
  Op.avoids_require _ (by decide)

theorem stmt_noSlug {α : Type} {s : Step} {f : Unit → Op CreateErr Db α}
    (h : (stmt faults s >>= f) d = (.error .noSlug, d')) : f () d = (.error .noSlug, d') := by
  obtain ⟨⟨⟩, d₁, hstmt, h₁⟩ := Op.Avoids.of_bind (stmt_avoids s) h
  obtain ⟨-, rfl⟩ := stmt_ok.mp hstmt
  exact h₁

theorem require_noSlug {α : Type} {p : Prop} [Decidable p] {e : CreateErr}
    {f : Unit → Op CreateErr Db α} (he : e ≠ .noSlug)
    (h : (Op.require p e >>= f) d = (.error .noSlug, d')) : f () d = (.error .noSlug, d') := by
  obtain ⟨⟨⟩, d₁, hreq, h₁⟩ := Op.Avoids.of_bind (Op.avoids_require p he) h
  obtain ⟨-, rfl⟩ := Op.require_ok.mp hreq
  exact h₁

theorem insertMember_avoids (m : Member) : Op.Avoids .noSlug (insertMember faults m) :=
  (stmt_avoids _).bind fun _ => Op.avoids_get.bind fun _ =>
    (Op.avoids_require _ (by decide)).bind fun _ => Op.avoids_modify _

theorem setVaultPath_avoids (id : Int) (path : Bytes) :
    Op.Avoids .noSlug (setVaultPath faults id path) := by
  refine (stmt_avoids _).bind fun _ => Op.avoids_get.bind fun d => ?_
  split
  · exact Op.avoids_ofExcept (by decide)
  · exact Op.avoids_modify _

/-- The loop runs out of slugs only when all of them are taken. -/
theorem insertVault_noSlug (hd : d.vaults.Canonical)
    (h : insertVault faults userID name kind now slugs d = (.error .noSlug, d')) :
    ∀ s ∈ slugs, s ∈ d.vaults.slugs := by
  induction slugs with
  | nil => simp
  | cons slug slugs ih =>
    have h₁ := stmt_noSlug h
    obtain ⟨d₂, d₃, hget, h₂⟩ := Op.Avoids.of_bind Op.avoids_get h₁
    obtain ⟨rfl, rfl⟩ := Op.get_ok.mp hget
    generalize hins : d₃.vaults.insert name slug kind (pendingVaultPath slug) now = r at h₂
    cases r with
    | none =>
      intro s hs
      rcases List.mem_cons.mp hs with rfl | hs
      · exact Vaults.insert_none hd hins
      · exact ih h₂ s hs
    | some a =>
      refine absurd h₂ (Op.Avoids.bind (Op.avoids_modify _) (fun _ => ?_) _ _)
      exact (stmt_avoids _).bind fun _ => (insertMember_avoids _).bind fun _ =>
        (setVaultPath_avoids _ _).bind fun _ => Op.avoids_pure _

theorem createVaultForUserTx_rows {v : Vault}
    (h : createVaultForUserTx faults userID name kind now d = (.ok v, d')) :
    d'.vaults.table.rows = d.vaults.table.rows ++ [v] ∧ IsSlug v.slug ∧
      v.path = vaultPath v.id := by
  obtain ⟨⟨⟩, d₁, hreq, h₁⟩ := Op.bind_ok.mp h
  obtain ⟨-, rfl⟩ := Op.require_ok.mp hreq
  obtain ⟨hrows, hslug, hpath⟩ := insertVault_rows h₁
  exact ⟨hrows, isSlug_of_mem_vaultSlugs hslug, hpath⟩

theorem createVaultForUserTx_canonical {v : Vault} (hd : d.vaults.Canonical)
    (h : createVaultForUserTx faults userID name kind now d = (.ok v, d')) :
    d'.vaults.Canonical := by
  obtain ⟨hrows, hslug, hpath⟩ := createVaultForUserTx_rows h
  intro u hu
  rw [hrows] at hu
  rcases List.mem_append.mp hu with hu | hu
  · exact hd u hu
  · rw [List.mem_singleton.mp hu]
    exact ⟨hslug, hpath⟩

theorem createVaultForUserTx_noSlug (hd : d.vaults.Canonical)
    (h : createVaultForUserTx faults userID name kind now d = (.error .noSlug, d')) :
    ∀ s ∈ vaultSlugs (trimSpace name), s ∈ d.vaults.slugs := by
  exact insertVault_noSlug hd (require_noSlug (by decide) h)

end Inserted

/-! ### Over all creations -/

/-- The calls of the store that make vaults; `EnsurePersonalVault` makes the second. -/
inductive VaultCall
  | createUser (faults : Step → Bool) (login password : Bytes) (hash : Option Bytes)
      (isAdmin : Bool) (now : Instant)
  | createVaultForUser (faults : Step → Bool) (userID : Int) (name kind : Bytes) (now : Instant)

namespace VaultCall

def run : VaultCall → Op CreateErr Db Vault
  | .createUser faults login password hash isAdmin now => do
    let r ← Store.createUser faults login password hash isAdmin now
    pure r.2
  | .createVaultForUser faults userID name kind now =>
    Store.createVaultForUser faults userID name kind now

/-- The name the vault is given. -/
def name : VaultCall → Bytes
  | .createUser _ login _ _ _ _ => trimSpace (trimSpace login)
  | .createVaultForUser _ _ name _ _ => trimSpace name

variable {c : VaultCall} {d d' : Db} {v : Vault}

/-- A call that succeeds has run the transaction's body on a state with the same vaults. -/
theorem run_ok (h : c.run d = (.ok v, d')) : ∃ faults userID name kind now d₁,
    d₁.vaults = d.vaults ∧ createVaultForUserTx faults userID name kind now d₁ = (.ok v, d') := by
  cases c with
  | createVaultForUser faults userID name kind now =>
    obtain ⟨⟨⟩, d₁, hreq, h₁⟩ := Op.bind_ok.mp h
    obtain ⟨-, rfl⟩ := Op.require_ok.mp hreq
    exact ⟨_, _, _, _, _, d₁, rfl, withTx_ok h₁⟩
  | createUser faults login password hash isAdmin now =>
    obtain ⟨⟨u, v'⟩, d₁, hcreate, hpure⟩ := Op.bind_ok.mp h
    obtain ⟨rfl, rfl⟩ := Op.pure_ok.mp hpure
    obtain ⟨hash, -, -, htx⟩ := createUser_tx hcreate
    exact ⟨_, _, _, _, _, { d with users := d.users.insert (trimSpace login) hash isAdmin }, rfl,
      htx⟩

theorem run_error {e : CreateErr} (h : c.run d = (.error e, d')) : d' = d := by
  cases c with
  | createVaultForUser faults userID name kind now =>
    exact atomic_createVaultForUser (φ := id) userID name kind now d e d' h
  | createUser faults login password hash isAdmin now =>
    exact (atomic_createUser (φ := id) login password hash isAdmin now).returning Prod.snd d e d' h

theorem run_canonical (hd : d.vaults.Canonical) (c : VaultCall) : (c.run d).2.vaults.Canonical := by
  generalize hr : c.run d = r
  obtain ⟨res, d'⟩ := r
  cases res with
  | error e =>
    rw [run_error hr]
    exact hd
  | ok v =>
    obtain ⟨_, _, _, _, _, d₁, hsame, htx⟩ := run_ok hr
    have hd₁ : d₁.vaults.Canonical := by
      rw [hsame]
      exact hd
    exact createVaultForUserTx_canonical hd₁ htx

theorem withTx_noSlug {α : Type} {faults : Step → Bool} {body : Op CreateErr Db α}
    (h : withTx faults body d = (.error .noSlug, d')) : ∃ t, body d = (.error .noSlug, t) := by
  obtain ⟨-, t, ht⟩ := Op.transaction_error.mp h
  rcases Op.bind_error.mp (stmt_noSlug ht) with hbody | ⟨a, d₂, -, h₂⟩
  · exact ⟨t, hbody⟩
  · refine absurd h₂ (Op.Avoids.bind (stmt_avoids _) (fun _ => ?_) _ _)
    exact Op.avoids_pure _

theorem createUser_noSlug {faults : Step → Bool} {login password : Bytes} {hash : Option Bytes}
    {isAdmin : Bool} {now : Instant}
    (h : Store.createUser faults login password hash isAdmin now d = (.error .noSlug, d')) :
    ∃ d₁ t, d₁.vaults = d.vaults ∧ createVaultForUserTx faults (d.users.seq + 1) (trimSpace login)
      kindPersonal now d₁ = (.error .noSlug, t) := by
  have h₁ := stmt_noSlug (require_noSlug (by decide) h)
  obtain ⟨d₁, d₂, hget, h₂⟩ := Op.Avoids.of_bind Op.avoids_get h₁
  obtain ⟨rfl, rfl⟩ := Op.get_ok.mp hget
  have h₃ := require_noSlug (by decide) h₂
  cases hash with
  | none => exact absurd h₃ (Op.avoids_ofExcept (by decide) _ _)
  | some hash =>
    obtain ⟨t, ht⟩ := withTx_noSlug h₃
    obtain ⟨d₃, d₄, hget', h₄⟩ := Op.Avoids.of_bind Op.avoids_get (stmt_noSlug ht)
    obtain ⟨rfl, rfl⟩ := Op.get_ok.mp hget'
    have h₅ := require_noSlug (by decide) h₄
    obtain ⟨⟨⟩, d₅, hmod, h₆⟩ := Op.Avoids.of_bind (Op.avoids_modify _) h₅
    obtain rfl := Op.modify_ok.mp hmod
    have h₉ := stmt_noSlug h₆
    rcases Op.bind_error.mp h₉ with htx | ⟨a, e₃, -, hpure⟩
    · exact ⟨{ d₄ with users := d₄.users.insert (trimSpace login) hash isAdmin }, t, rfl, htx⟩
    · exact absurd hpure (Op.avoids_pure _ _ _)

/-- A call fails for want of a slug only if the name's slug and all its variants are taken. -/
theorem run_noSlug (hd : d.vaults.Canonical) (h : c.run d = (.error .noSlug, d')) :
    ∀ s ∈ vaultSlugs c.name, s ∈ d.vaults.slugs := by
  cases c with
  | createVaultForUser faults userID name kind now =>
    obtain ⟨t, ht⟩ := withTx_noSlug (require_noSlug (by decide) h)
    exact createVaultForUserTx_noSlug hd ht
  | createUser faults login password hash isAdmin now =>
    rcases Op.bind_error.mp h with hcreate | ⟨a, d₁, -, hpure⟩
    · obtain ⟨d₁, t, hsame, htx⟩ := createUser_noSlug hcreate
      rw [← hsame] at hd ⊢
      exact createVaultForUserTx_noSlug hd htx
    · exact absurd hpure (Op.avoids_pure _ _ _)

end VaultCall

/-- The store from its first start on; a call that fails leaves what its `Rollback` leaves. -/
def creations : Machine Db VaultCall where
  init d := d.vaults = Vaults.empty
  step d c := some (c.run d).2

theorem creations_canonical {d : Db} (h : creations.Reach d) : d.vaults.Canonical := by
  have hinit : ∀ d, creations.init d → d.vaults.Canonical := by
    intro d hd v hv
    rw [show d.vaults = Vaults.empty from hd] at hv
    cases hv
  have hstep : ∀ d c d', d.vaults.Canonical → creations.step d c = some d' →
      d'.vaults.Canonical := by
    intro d c d' hd hs
    obtain rfl := Option.some.inj hs
    exact VaultCall.run_canonical hd c
  exact h.invariant hinit hstep

theorem sprintInt_bytes (n : Int) : ∀ c ∈ sprintInt n, isAlnum c ∨ c = dash := by
  intro c hc
  rcases List.mem_append.mp hc with hc | hc
  · split at hc
    · have hd : utf8 "-" = [dash] := by decide
      rw [hd] at hc
      exact .inr (List.mem_singleton.mp hc)
    · cases hc
  · split at hc
    · have hd : utf8 "0" = [0x30] := by decide
      rw [hd] at hc
      rw [List.mem_singleton.mp hc]
      exact .inl (by decide)
    · exact .inl (.inr (decimal_digits _ _ c hc))

theorem isName_vaultPath (id : Int) : IsName (vaultPath id) := by
  have hhead : (vaultPath id).head? = some 0x76 := rfl
  have hne : ∀ t : Bytes, t.head? ≠ some 0x76 → vaultPath id ≠ t := fun t ht he => ht (he ▸ hhead)
  refine ⟨hne _ (by decide), hne _ (by decide), hne _ (by decide), fun hm => ?_⟩
  rcases List.mem_append.mp hm with hm | hm
  · exact absurd hm (by decide)
  · exact absurd (sprintInt_bytes id _ hm) (by decide)

/-- The directory of a vault is one name, right below the root. -/
theorem safeRelPath_vaultPath (id : Int) :
    Vault.safeRelPath (vaultPath id) = .ok (vaultPath id) := by
  have hname := isName_vaultPath id
  have hhead : (vaultPath id).head? = some 0x76 := rfl
  have hclean : clean (vaultPath id) = vaultPath id :=
    clean_names (List.cons_ne_nil (vaultPath id) []) (by simpa using hname)
  have hslash : vaultPath id ≠ [slash] := fun he => hname.2.2.2 (by rw [he]; simp)
  have hup : ¬ dotdot ++ [slash] <+: vaultPath id := by
    rintro ⟨t, ht⟩
    rw [← ht] at hhead
    exact absurd (Option.some.inj hhead) (by decide)
  have hgit : Vault.dotGit ≠ vaultPath id := fun he => by
    rw [← he] at hhead
    exact absurd hhead (by decide)
  rw [Vault.safeRelPath, if_neg (by simp [hname.1, hname.2.1, hslash]), hhead, if_neg (by decide),
    hclean, if_neg hname.2.1, if_neg (by simp [hname.2.2.1, hup]),
    split_of_not_mem hname.2.2.2, if_neg (by simpa using hgit)]

/-- `Slug` returns slugs and leaves them alone; in every store that creations lead to, the
slugs and the directories of the vaults are proper and distinct, and a creation that finds no
slug has tried all of them in vain and leaves nothing. -/
theorem slugs_canonical {d : Db} (h : creations.Reach d) :
    (∀ input, IsSlug (slug input) ∧ slug (runes (slug input)) = slug input) ∧
    (∀ v ∈ d.vaults.table.rows, IsSlug v.slug ∧ v.path = vaultPath v.id ∧
      Vault.safeRelPath v.path = .ok v.path) ∧
    d.vaults.slugs.Nodup ∧ (d.vaults.table.rows.map Vault.path).Nodup ∧
    ∀ (c : VaultCall) d', c.run d = (.error .noSlug, d') →
      d' = d ∧ ∀ s ∈ vaultSlugs c.name, s ∈ d.vaults.slugs := by
  have hd := creations_canonical h
  refine ⟨fun input => ⟨isSlug_slug input, slug_of_isSlug (isSlug_slug input)⟩, fun v hv => ?_,
    d.vaults.table.nodup, d.vaults.paths,
    fun c d' hc => ⟨VaultCall.run_error hc, VaultCall.run_noSlug hd hc⟩⟩
  obtain ⟨hslug, hpath⟩ := hd v hv
  exact ⟨hslug, hpath, hpath ▸ safeRelPath_vaultPath v.id⟩

def nothing : Db := ⟨Users.empty, Vaults.empty, Keyed.empty, Keyed.empty⟩

/-- A user and two vaults of one name. -/
def slugCollision : List VaultCall :=
  [.createUser (fun _ => false) (utf8 "alice") (utf8 "secret") (some []) false 0,
    .createVaultForUser (fun _ => false) 1 (utf8 "Team Notes") kindShared 0,
    .createVaultForUser (fun _ => false) 1 (utf8 "Team Notes") kindShared 0]

theorem slugs_canonical_collision : ∃ d, creations.run nothing slugCollision = some d ∧
    d.vaults.slugs = [utf8 "alice", utf8 "team-notes", utf8 "team-notes-2"] ∧
    d.vaults.table.rows.map Vault.path = [utf8 "vault-1", utf8 "vault-2", utf8 "vault-3"] ∧
    d.vaults.slugs.Nodup := by
  have hrun : ((creations.run nothing slugCollision).map fun d =>
      (d.vaults.slugs, d.vaults.table.rows.map Vault.path)) =
      some ([utf8 "alice", utf8 "team-notes", utf8 "team-notes-2"],
        [utf8 "vault-1", utf8 "vault-2", utf8 "vault-3"]) := by decide +kernel
  obtain ⟨d, hd, he⟩ := Option.map_eq_some_iff.mp hrun
  have hinit : creations.init nothing := rfl
  have hreach : creations.Reach d := Machine.Reach.run slugCollision (.init hinit) hd
  exact ⟨d, hd, congrArg Prod.fst he, congrArg Prod.snd he, (slugs_canonical hreach).2.2.1⟩

end Mdock.Store
