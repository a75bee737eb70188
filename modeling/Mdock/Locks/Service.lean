import Mathlib.Data.List.Sort
import Mdock.Go.Time
import Mdock.Lib.Keyed

/-! `locks.Service` over the table `file_locks`. Every method is the sequence of SQL
statements of the source; a call that runs alone is their composition. -/
namespace Mdock.Locks
open Mdock.Go Mdock.Lib

/-- A row of `file_locks`. The two time columns hold RFC 3339 texts; a row keeps the
instants they are the texts of. -/
structure Row where
  vaultID : Int
  path : Bytes
  owner : Bytes
  source : Bytes
  expiresAt : Instant
  heartbeatAt : Instant
  deriving DecidableEq

def Row.key (r : Row) : Int × Bytes := (r.vaultID, r.path)

abbrev FileLocks := Keyed Row.key

structure Lock where
  vaultID : Int
  path : Bytes
  owner : Bytes
  source : Bytes
  expiresAt : Instant
  deriving DecidableEq

inductive Err
  | required | sql | parseExpiry | locked | notOwner
  deriving DecidableEq

/-- The comparison `expires_at <= ?` of `CleanupExpired`, on the stored texts. -/
def expiredText (now : Instant) (r : Row) : Bool := decide (format r.expiresAt ≤ format now)

def cleanupExpired (t : FileLocks) (now : Instant) : FileLocks := t.deleteWhere (expiredText now)

/-- What `Acquire` makes of the row it selected. -/
def checkExisting (existing : Option Row) (now : Instant) (owner : Bytes) : Except Err Unit :=
  match existing with
  | none => .ok ()
  | some r =>
    match reparse r.expiresAt with
    | none => .error .parseExpiry
    | some expiresAt => if now < expiresAt ∧ r.owner ≠ owner then .error .locked else .ok ()

def validArgs (vaultID : Int) (path owner source : Bytes) : Prop :=
  vaultID ≠ 0 ∧ path ≠ [] ∧ owner ≠ [] ∧ source ≠ []

instance (vaultID : Int) (path owner source : Bytes) :
    Decidable (validArgs vaultID path owner source) := inferInstanceAs (Decidable (_ ∧ _ ∧ _ ∧ _))

def acquire (t : FileLocks) (now : Instant) (vaultID : Int) (path owner source : Bytes)
    (ttl : Int) : Except Err Lock × FileLocks :=
  if validArgs vaultID path owner source then
    match checkExisting ((cleanupExpired t now).get? (vaultID, path)) now owner with
    | .error e => (.error e, cleanupExpired t now)
    | .ok () =>
      (.ok ⟨vaultID, path, owner, source, now + ttl⟩,
        (cleanupExpired t now).upsert ⟨vaultID, path, owner, source, now + ttl, now⟩)
  else (.error .required, t)

def Row.toLock (r : Row) : Except Err Lock :=
  match reparse r.expiresAt with
  | none => .error .parseExpiry
  | some e => .ok ⟨r.vaultID, r.path, r.owner, r.source, e⟩

def get (t : FileLocks) (now : Instant) (vaultID : Int) (path : Bytes) :
    Except Err (Option Lock) × FileLocks :=
  match (cleanupExpired t now).get? (vaultID, path) with
  | none => (.ok none, cleanupExpired t now)
  | some r => (r.toLock.map some, cleanupExpired t now)

/-- SQLite's `substr(s, 1, n)`, which counts characters: a lead byte from 0xC0 up takes
its continuation bytes along. -/
def substr : Nat → Bytes → Bytes
  | 0, _ => []
  | _ + 1, [] => []
  | n + 1, b :: s =>
    if 0xC0 ≤ b then
      b :: (s.takeWhile fun c => 0x80 ≤ c && c < 0xC0) ++
        substr n (s.dropWhile fun c => 0x80 ≤ c && c < 0xC0)
    else b :: substr n s

/-- The `WHERE` clause of `ActiveUnder`; the length of the prefix is counted in bytes. -/
def under (vaultID : Int) (path : Bytes) (r : Row) : Bool :=
  decide (r.vaultID = vaultID ∧
    (r.path = path ∨ substr (path ++ [slash]).length r.path = path ++ [slash]))

def activeUnder (t : FileLocks) (now : Instant) (vaultID : Int) (path : Bytes) :
    Except Err (List Lock) × FileLocks :=
  let rows := ((cleanupExpired t now).rows.filter (under vaultID path)).insertionSort
    fun r r' => r.path ≤ r'.path
  (rows.mapM Row.toLock, cleanupExpired t now)

/-- The `WHERE` clause that names one lock of one owner. -/
def mine (vaultID : Int) (path owner : Bytes) (r : Row) : Bool :=
  decide (r.vaultID = vaultID ∧ r.path = path ∧ r.owner = owner)

def Row.beat (now : Instant) (ttl : Int) (r : Row) : Row :=
  { r with expiresAt := now + ttl, heartbeatAt := now }

theorem Row.key_beat (now : Instant) (ttl : Int) (r : Row) : (r.beat now ttl).key = r.key := rfl

def heartbeat (t : FileLocks) (now : Instant) (vaultID : Int) (path owner : Bytes) (ttl : Int) :
    Except Err Unit × FileLocks :=
  (if t.rows.any (mine vaultID path owner) then .ok () else .error .notOwner,
    t.updateWhere (mine vaultID path owner) (Row.beat now ttl) (Row.key_beat now ttl))

def release (t : FileLocks) (vaultID : Int) (path owner : Bytes) : FileLocks :=
  t.deleteWhere (mine vaultID path owner)

/-! ### Each method seen through one key -/

/-- Who the table says has the file, and until when. -/
def onRecord (t : FileLocks) (k : Int × Bytes) : Option (Bytes × Instant) :=
  (t.get? k).map fun r => (r.owner, r.expiresAt)

theorem onRecord_eq_some {t : FileLocks} {k : Int × Bytes} {o : Bytes} {e : Instant} :
    onRecord t k = some (o, e) ↔ ∃ r, t.get? k = some r ∧ r.owner = o ∧ r.expiresAt = e := by
  simp [onRecord, Option.map_eq_some_iff]

theorem onRecord_upsert (t : FileLocks) (r : Row) (k : Int × Bytes) :
    onRecord (t.upsert r) k =
      if (r.vaultID, r.path) = k then some (r.owner, r.expiresAt) else onRecord t k := by
  rw [onRecord, Keyed.get?_upsert, Row.key]
  split <;> rfl

theorem get?_cleanupExpired (t : FileLocks) (now : Instant) (k : Int × Bytes) :
    (cleanupExpired t now).get? k = (t.get? k).filter fun r => !expiredText now r :=
  Keyed.get?_deleteWhere t _ k

theorem get?_cleanupExpired_some {t : FileLocks} {now : Instant} {k : Int × Bytes} {r : Row} :
    (cleanupExpired t now).get? k = some r ↔
      t.get? k = some r ∧ ¬ format r.expiresAt ≤ format now := by
  rw [get?_cleanupExpired, Option.filter_eq_some_iff]
  simp [expiredText]

theorem checkExisting_ok {existing : Option Row} {now : Instant} {owner : Bytes} :
    checkExisting existing now owner = .ok () ↔
      ∀ r, existing = some r → (reparse r.expiresAt).isSome ∧
        (r.owner = owner ∨ r.expiresAt ≤ now) := by
  cases existing with
  | none => simp [checkExisting]
  | some r =>
    by_cases hy : 0 ≤ year r.expiresAt ∧ year r.expiresAt ≤ 9999
    · by_cases hl : now < r.expiresAt ∧ r.owner ≠ owner
      · simp [checkExisting, reparse, hy, hl]
      · simp only [checkExisting, reparse, hy, hl, if_true, if_false, Option.some.injEq,
          forall_eq', Option.isSome_some, and_self, true_and, true_iff]
        by_cases ho : r.owner = owner
        · exact .inl ho
        · exact .inr (not_lt.mp fun h => hl ⟨h, ho⟩)
    · simp [checkExisting, reparse, hy]

/-- All that a successful `Acquire` tells: what it returned, the table it left, and that no
row it met was a live one of another owner. -/
theorem acquire_ok {t t' : FileLocks} {now : Instant} {vaultID : Int}
    {path owner source : Bytes} {ttl : Int} {l : Lock}
    (h : acquire t now vaultID path owner source ttl = (.ok l, t')) :
    validArgs vaultID path owner source ∧
      l = ⟨vaultID, path, owner, source, now + ttl⟩ ∧
      t' = (cleanupExpired t now).upsert ⟨vaultID, path, owner, source, now + ttl, now⟩ ∧
      ∀ r, t.get? (vaultID, path) = some r →
        r.owner = owner ∨ format r.expiresAt ≤ format now ∨ r.expiresAt ≤ now := by
  unfold acquire at h
  split at h
  · rename_i hv
    split at h
    · cases h
    · rename_i hc
      obtain ⟨hl, rfl⟩ := Prod.mk.injEq .. ▸ h
      refine ⟨hv, (Except.ok.inj hl).symm, rfl, fun r hr => ?_⟩
      by_cases ht : format r.expiresAt ≤ format now
      · exact .inr (.inl ht)
      · rcases (checkExisting_ok.mp hc r (get?_cleanupExpired_some.mpr ⟨hr, ht⟩)).2 with ho | he
        · exact .inl ho
        · exact .inr (.inr he)
  · cases h

/-- An `Acquire` that fails only cleans up. -/
theorem acquire_error {t t' : FileLocks} {now : Instant} {vaultID : Int}
    {path owner source : Bytes} {ttl : Int} {e : Err}
    (h : acquire t now vaultID path owner source ttl = (.error e, t')) :
    t' = t ∨ t' = cleanupExpired t now := by
  unfold acquire at h
  split at h
  · split at h
    · cases h
      exact .inr rfl
    · cases h
  · cases h
    exact .inl rfl

theorem mine_of_key {r : Row} {k : Int × Bytes} (h : r.key = k) (vaultID : Int)
    (path owner : Bytes) :
    mine vaultID path owner r = decide (k = (vaultID, path) ∧ r.owner = owner) := by
  rw [← h]
  simp [mine, Row.key, and_assoc]

theorem get?_release_some {t : FileLocks} {vaultID : Int} {path owner : Bytes} {k : Int × Bytes}
    {r : Row} : (release t vaultID path owner).get? k = some r ↔
      t.get? k = some r ∧ ¬ (k = (vaultID, path) ∧ r.owner = owner) := by
  rw [release, Keyed.get?_deleteWhere, Option.filter_eq_some_iff]
  refine and_congr_right fun hr => ?_
  rw [mine_of_key (Keyed.key_of_get? hr), Bool.not_eq_true', decide_eq_false_iff_not]

theorem get?_heartbeat_some {t : FileLocks} {now : Instant} {vaultID : Int} {path owner : Bytes}
    {ttl : Int} {k : Int × Bytes} {r : Row} :
    (heartbeat t now vaultID path owner ttl).2.get? k = some r ↔ ∃ r₀, t.get? k = some r₀ ∧
      r = if k = (vaultID, path) ∧ r₀.owner = owner then r₀.beat now ttl else r₀ := by
  rw [heartbeat, Keyed.get?_updateWhere, Option.map_eq_some_iff]
  refine exists_congr fun r₀ => and_congr_right fun hr => ?_
  rw [mine_of_key (Keyed.key_of_get? hr)]
  simp only [decide_eq_true_eq]
  exact eq_comm

/-! ### Locks in force -/

/-- The lock has not run out, nor does its text say so. -/
def InForce (r : Row) (now : Instant) : Prop :=
  ¬ format r.expiresAt ≤ format now ∧ now < r.expiresAt

instance (r : Row) (now : Instant) : Decidable (InForce r now) :=
  inferInstanceAs (Decidable (_ ∧ _))

theorem mem_cleanupExpired {t : FileLocks} {now : Instant} {r : Row} (hr : r ∈ t.rows)
    (hf : InForce r now) : r ∈ (cleanupExpired t now).rows := by
  rw [cleanupExpired, Keyed.mem_deleteWhere]
  exact ⟨hr, by simpa [expiredText] using hf.1⟩

/-- An `Acquire` that succeeds met no lock in force but the owner's own. -/
theorem acquire_owner {t t' : FileLocks} {now : Instant} {vaultID : Int}
    {path owner source : Bytes} {ttl : Int} {l : Lock}
    (h : acquire t now vaultID path owner source ttl = (.ok l, t')) {r : Row} (hr : r ∈ t.rows)
    (hk : r.key = (vaultID, path)) (hf : InForce r now) : r.owner = owner := by
  rcases (acquire_ok h).2.2.2 r (hk ▸ Keyed.get?_of_mem hr) with ho | ht | he
  · exact ho
  · exact absurd ht hf.1
  · exact absurd he (not_le_of_gt hf.2)

/-- Locks of others that are in force survive an `Acquire`. -/
theorem mem_acquire {t t' : FileLocks} {now : Instant} {vaultID : Int}
    {path owner source : Bytes} {ttl : Int} {l : Lock}
    (h : acquire t now vaultID path owner source ttl = (.ok l, t')) {r : Row} (hr : r ∈ t.rows)
    (ho : r.owner ≠ owner) (hf : InForce r now) : r ∈ t'.rows := by
  rw [(acquire_ok h).2.2.1, Keyed.mem_upsert]
  exact .inr ⟨mem_cleanupExpired hr hf, fun hk => ho (acquire_owner h hr hk hf)⟩

theorem mem_release {t : FileLocks} {vaultID : Int} {path owner : Bytes} {r : Row}
    (hr : r ∈ t.rows) (ho : r.owner ≠ owner) : r ∈ (release t vaultID path owner).rows := by
  rw [release, Keyed.mem_deleteWhere]
  exact ⟨hr, by simp [mine, ho]⟩

theorem get_table (t : FileLocks) (now : Instant) (vaultID : Int) (path : Bytes) :
    (get t now vaultID path).2 = cleanupExpired t now := by
  unfold get
  split <;> rfl

/-- Where `Get` finds nothing, no lock is in force. -/
theorem get_none {t t' : FileLocks} {now : Instant} {vaultID : Int} {path : Bytes}
    (h : get t now vaultID path = (.ok none, t')) {r : Row} (hr : r ∈ t.rows)
    (hk : r.key = (vaultID, path)) : ¬ InForce r now := by
  intro hf
  have hget := Keyed.get?_of_mem (mem_cleanupExpired hr hf)
  rw [hk] at hget
  unfold get at h
  rw [hget] at h
  simp only [Prod.mk.injEq] at h
  cases hl : r.toLock <;> rw [hl] at h <;> cases h.1

/-- Where `ActiveUnder` finds nothing, no lock it asks for is in force. -/
theorem activeUnder_nil {t t' : FileLocks} {now : Instant} {vaultID : Int} {path : Bytes}
    (h : activeUnder t now vaultID path = (.ok [], t')) {r : Row} (hr : r ∈ t.rows)
    (hu : under vaultID path r = true) : ¬ InForce r now := by
  intro hf
  have hm : r ∈ ((cleanupExpired t now).rows.filter (under vaultID path)).insertionSort
      fun r r' => r.path ≤ r'.path := by
    rw [List.mem_insertionSort, List.mem_filter]
    exact ⟨mem_cleanupExpired hr hf, hu⟩
  have hnil := congrArg Prod.fst h
  simp only [activeUnder] at hnil
  cases hrows : ((cleanupExpired t now).rows.filter (under vaultID path)).insertionSort
      fun r r' => r.path ≤ r'.path with
  | nil => simp [hrows] at hm
  | cons a as =>
    rw [hrows, List.mapM_cons] at hnil
    cases ha : a.toLock with
    | error e => simp [ha, bind, Except.bind] at hnil
    | ok b =>
      cases has : as.mapM Row.toLock with
      | error e => simp [ha, has, bind, Except.bind] at hnil
      | ok bs => simp [ha, has, bind, Except.bind, pure, Except.pure] at hnil

end Mdock.Locks
