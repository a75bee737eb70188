import Mdock.Lib.Lease
import Mdock.Lib.Run
import Mdock.Locks.Service

/-! Expiry decided by comparing texts. The statements that delete expired rows compare
RFC 3339 texts; what they delete is what has expired only for times that sort like their
texts. The methods run one after the other here, on a clock that never goes back. -/
namespace Mdock.Locks.Expiry
open Mdock.Go Mdock.Lib

/-- A row of `sessions`. -/
structure Session where
  id : Bytes
  userID : Int
  expiresAt : Instant
  createdAt : Instant

abbrev Sessions := Keyed Session.id

/-- `Store.DeleteExpiredSessions`. -/
def deleteExpiredSessions (t : Sessions) (now : Instant) : Sessions :=
  t.deleteWhere fun r => decide (format r.expiresAt ≤ format now)

section Delete
variable {κ ρ : Type} {key : ρ → κ}

/-- `u` is `t` less the rows that have expired by `now`. -/
def DeletesExpired (expiresAt : ρ → Instant) (now : Instant) (t u : Keyed key) : Prop :=
  ∀ r, r ∈ u.rows ↔ r ∈ t.rows ∧ now < expiresAt r

theorem deletesExpired_iff (expiresAt : ρ → Instant) (now : Instant) (t : Keyed key) :
    DeletesExpired expiresAt now t
        (t.deleteWhere fun r => decide (format (expiresAt r) ≤ format now)) ↔
      ∀ r ∈ t.rows, SortAlike (expiresAt r) now := by
  simp only [DeletesExpired, Keyed.mem_deleteWhere, decide_eq_false_iff_not]
  refine forall_congr' fun r => ?_
  rw [and_congr_right_iff]
  refine forall_congr' fun _ => ?_
  rw [← format_le_iff, ← not_lt (a := now)]
  exact not_iff_comm.trans iff_comm

end Delete

/-- The clock, the table, and the `ExpiresAt` that each owner was last returned for a file
it has not released since. -/
structure State where
  clock : Instant
  locks : FileLocks
  granted : Int × Bytes → Bytes → Option Instant

inductive Act
  | tick (now : Instant)
  | acquire (vaultID : Int) (path owner source : Bytes) (ttl : Int)
  | get (vaultID : Int) (path : Bytes)
  | activeUnder (vaultID : Int) (path : Bytes)
  | heartbeat (vaultID : Int) (path owner : Bytes) (ttl : Int)
  | release (vaultID : Int) (path owner : Bytes)
  | cleanupExpired

def State.grant (s : State) (k : Int × Bytes) (owner : Bytes) (e : Option Instant) :
    Int × Bytes → Bytes → Option Instant :=
  Function.update s.granted k (Function.update (s.granted k) owner e)

def step (s : State) : Act → Option State
  | .tick now => if s.clock ≤ now then some { s with clock := now } else none
  | .acquire vaultID path owner source ttl =>
    match Locks.acquire s.locks s.clock vaultID path owner source ttl with
    | (.ok l, t) =>
      some { s with locks := t, granted := s.grant (vaultID, path) owner (some l.expiresAt) }
    | (.error _, t) => some { s with locks := t }
  | .get vaultID path => some { s with locks := (Locks.get s.locks s.clock vaultID path).2 }
  | .activeUnder vaultID path =>
    some { s with locks := (Locks.activeUnder s.locks s.clock vaultID path).2 }
  | .heartbeat vaultID path owner ttl =>
    some { s with locks := (Locks.heartbeat s.locks s.clock vaultID path owner ttl).2 }
  | .release vaultID path owner =>
    some { s with
      locks := Locks.release s.locks vaultID path owner
      granted := s.grant (vaultID, path) owner none }
  | .cleanupExpired => some { s with locks := Locks.cleanupExpired s.locks s.clock }

/-- Any table and any clock, nothing promised yet. -/
def machine : Machine State Act where
  init s := ∀ k o, s.granted k o = none
  step := step

/-- Every row that has not expired sorts after the clock. -/
def sorted (s : State) : Bool :=
  s.locks.rows.all fun r => decide (r.expiresAt ≤ s.clock ∨ SortAlike r.expiresAt s.clock)

/-- A method that cleans up meets rows that sort like their times; a heartbeat does not
shorten what its owner was promised. -/
def guard (s : State) : Act → Bool
  | .acquire .. | .get .. | .activeUnder .. | .cleanupExpired => sorted s
  | .heartbeat vaultID path owner ttl =>
    (s.granted (vaultID, path) owner).all fun e => decide (e ≤ s.clock ∨ e ≤ s.clock + ttl)
  | _ => true

/-- No `Acquire` succeeds now on a file that another owner was promised for longer. -/
def KeepsPromises (s : State) : Prop :=
  ∀ vaultID path owner source ttl l t,
    Locks.acquire s.locks s.clock vaultID path owner source ttl = (.ok l, t) →
    ∀ o e, o ≠ owner → s.granted (vaultID, path) o = some e → e ≤ s.clock

def State.backed (s : State) : Prop := ∀ k, Backed (s.granted k) (onRecord s.locks k) s.clock

theorem expired_of_sorted {s : State} (h : sorted s = true) {r : Row} (hr : r ∈ s.locks.rows)
    (ht : format r.expiresAt ≤ format s.clock) : r.expiresAt ≤ s.clock := by
  rcases of_decide_eq_true (List.all_eq_true.mp h r hr) with he | he
  · exact he
  · exact ((format_le_iff _ _).mpr he).mp ht

theorem grant_self (s : State) (k : Int × Bytes) (owner : Bytes) (e : Option Instant) :
    s.grant k owner e k = Function.update (s.granted k) owner e := Function.update_self ..

theorem grant_of_ne (s : State) {k k' : Int × Bytes} (h : k' ≠ k) (owner : Bytes)
    (e : Option Instant) : s.grant k owner e k' = s.granted k' := Function.update_of_ne h _ _

/-- Cleaning up where the texts sort costs no promise. -/
theorem backed_cleanup {s : State} (hs : s.backed) (hg : sorted s = true) (k : Int × Bytes) :
    Backed (s.granted k) (onRecord (Locks.cleanupExpired s.locks s.clock) k) s.clock := by
  refine (hs k).expire fun o e hr => ?_
  obtain ⟨r, hget, rfl, rfl⟩ := onRecord_eq_some.mp hr
  by_cases ht : format r.expiresAt ≤ format s.clock
  · exact .inl (expired_of_sorted hg (Keyed.mem_of_get? hget) ht)
  · exact .inr (onRecord_eq_some.mpr ⟨r, get?_cleanupExpired_some.mpr ⟨hget, ht⟩, rfl, rfl⟩)

/-- What a successful `Acquire` found on record. -/
theorem record_free {s : State} (hg : sorted s = true) {vaultID : Int} {path owner source : Bytes}
    {ttl : Int} {l : Lock} {t : FileLocks}
    (h : Locks.acquire s.locks s.clock vaultID path owner source ttl = (.ok l, t))
    (o : Bytes) (e : Instant) (hr : onRecord s.locks (vaultID, path) = some (o, e)) :
    o = owner ∨ e ≤ s.clock := by
  obtain ⟨r, hget, rfl, rfl⟩ := onRecord_eq_some.mp hr
  rcases (acquire_ok h).2.2.2 r hget with ho | ht | he
  · exact .inl ho
  · exact .inr (expired_of_sorted hg (Keyed.mem_of_get? hget) ht)
  · exact .inr he

theorem backed_acquire {s t : State} (hs : s.backed) (hg : sorted s = true) {vaultID : Int}
    {path owner source : Bytes} {ttl : Int}
    (h : step s (.acquire vaultID path owner source ttl) = some t) : t.backed := by
  simp only [step] at h
  split at h
  · rename_i l locks hacq
    cases h
    obtain ⟨-, rfl, rfl, -⟩ := acquire_ok hacq
    intro k
    change Backed (s.grant (vaultID, path) owner (some (s.clock + ttl)) k) _ s.clock
    rw [onRecord_upsert]
    by_cases hk : (vaultID, path) = k
    · subst hk
      rw [grant_self, if_pos rfl]
      exact (hs _).grant (record_free hg hacq)
    · rw [grant_of_ne s (Ne.symm hk), if_neg hk]
      exact backed_cleanup hs hg k
  · rename_i e locks hacq
    cases h
    rcases acquire_error hacq with rfl | rfl
    · exact hs
    · exact backed_cleanup hs hg

theorem backed_heartbeat {s t : State} (hs : s.backed) {vaultID : Int} {path owner : Bytes}
    {ttl : Int} (hg : guard s (.heartbeat vaultID path owner ttl) = true)
    (h : step s (.heartbeat vaultID path owner ttl) = some t) : t.backed := by
  cases h
  intro k
  by_cases hk : ∃ r, s.locks.get? k = some r ∧ k = (vaultID, path) ∧ r.owner = owner
  · obtain ⟨r, hget, rfl, rfl⟩ := hk
    have hrec : onRecord (Locks.heartbeat s.locks s.clock vaultID path r.owner ttl).2
        (vaultID, path) = some (r.owner, s.clock + ttl) :=
      onRecord_eq_some.mpr ⟨_, get?_heartbeat_some.mpr ⟨r, hget, rfl⟩, by simp [Row.beat]⟩
    change Backed (s.granted _) (onRecord (Locks.heartbeat ..).2 _) s.clock
    rw [hrec]
    refine (hs _).renew (onRecord_eq_some.mpr ⟨r, hget, rfl, rfl⟩) fun p hp => ?_
    simpa [guard, hp] using hg
  · refine (hs k).expire fun o e hr => ?_
    obtain ⟨r, hget, rfl, rfl⟩ := onRecord_eq_some.mp hr
    refine .inr (onRecord_eq_some.mpr ⟨r, get?_heartbeat_some.mpr ⟨r, hget, ?_⟩, rfl, rfl⟩)
    rw [if_neg fun hc => hk ⟨r, hget, hc⟩]

theorem backed_release {s t : State} (hs : s.backed) {vaultID : Int} {path owner : Bytes}
    (h : step s (.release vaultID path owner) = some t) : t.backed := by
  cases h
  intro k
  change Backed (s.grant (vaultID, path) owner none k) (onRecord (Locks.release ..) k) s.clock
  by_cases hk : k = (vaultID, path)
  · subst hk
    rw [grant_self]
    refine (hs (vaultID, path)).giveUp (o := owner) (fun o' e ho' => ?_) fun o' e hne hr => ?_
    · by_cases hne : o' = owner
      · subst hne
        simp at ho'
      · exact ⟨hne, by rwa [Function.update_of_ne hne] at ho'⟩
    · obtain ⟨r, hget, rfl, rfl⟩ := onRecord_eq_some.mp hr
      exact onRecord_eq_some.mpr ⟨r, get?_release_some.mpr ⟨hget, fun h => hne h.2⟩, rfl, rfl⟩
  · rw [grant_of_ne s hk]
    refine (hs k).expire fun o e hr => ?_
    obtain ⟨r, hget, rfl, rfl⟩ := onRecord_eq_some.mp hr
    exact .inr (onRecord_eq_some.mpr
      ⟨r, get?_release_some.mpr ⟨hget, fun h => hk h.1⟩, rfl, rfl⟩)

theorem backed_step {s t : State} {a : Act} (hs : s.backed) (hg : guard s a = true)
    (h : step s a = some t) : t.backed := by
  cases a with
  | tick now =>
    simp only [step, Option.ite_none_right_eq_some, Option.some.injEq] at h
    obtain ⟨hle, rfl⟩ := h
    exact fun k => (hs k).later hle
  | acquire vaultID path owner source ttl => exact backed_acquire hs hg h
  | get vaultID path =>
    cases h
    rw [get_table]
    exact backed_cleanup hs hg
  | activeUnder vaultID path =>
    cases h
    exact backed_cleanup hs hg
  | heartbeat vaultID path owner ttl => exact backed_heartbeat hs hg h
  | release vaultID path owner => exact backed_release hs h
  | cleanupExpired =>
    cases h
    exact backed_cleanup hs hg

/-- Runs whose clean-ups meet rows that sort like their times keep every promise. -/
theorem keepsPromises_of_sorted {s : State}
    (h : machine.ReachVia (fun s a => guard s a = true) s) (hg : sorted s = true) :
    KeepsPromises s := by
  have hs : s.backed := by
    refine h.invariant ?_ fun s a t hi hg hs => backed_step hi hg hs
    intro s hs k o e ho
    simp [hs k o] at ho
  intro vaultID path owner source ttl l t hacq o e hne ho
  exact (hs _).free (record_free hg hacq) hne ho

/-- Text decides expiry by time exactly where texts sort like times: one comparison with the
clock, the rows either statement deletes, and the promises of `Acquire` over a run. -/
theorem expiry_by_text (n : Instant) :
    (∀ e, (format e ≤ format n ↔ e ≤ n) ↔ SortAlike e n) ∧
    (∀ t : FileLocks, DeletesExpired Row.expiresAt n t (cleanupExpired t n) ↔
      ∀ r ∈ t.rows, SortAlike r.expiresAt n) ∧
    (∀ t : Sessions, DeletesExpired Session.expiresAt n t (deleteExpiredSessions t n) ↔
      ∀ r ∈ t.rows, SortAlike r.expiresAt n) ∧
    ∀ s, machine.ReachVia (fun s a => guard s a = true) s → s.clock = n → sorted s = true →
      KeepsPromises s :=
  ⟨fun e => format_le_iff e n, deletesExpired_iff Row.expiresAt n,
    deletesExpired_iff Session.expiresAt n, fun _ hs _ => keepsPromises_of_sorted hs⟩

def fresh (clock : Instant) : State := ⟨clock, Keyed.empty, fun _ _ => none⟩

/-- 2024-01-01T00:00:00.51Z. -/
def newYear : Instant := 1704067200510000000

/-- A lock that ends 60 seconds later, at `.51` of a second, is gone at `.5`: as text
`.51Z` comes before `.5Z`. -/
theorem expiry_by_text_early :
    (¬ ∀ e n : Instant, format e ≤ format n ↔ e ≤ n) ∧
    (¬ ∀ (t : FileLocks) now, DeletesExpired Row.expiresAt now t (cleanupExpired t now)) ∧
    (¬ ∀ (t : Sessions) now,
      DeletesExpired Session.expiresAt now t (deleteExpiredSessions t now)) ∧
    ¬ ∀ s, machine.Reach s → KeepsPromises s := by
  let ends : Instant := newYear + 60 * 1000000000
  let early : Instant := ends - 10000000
  have hclash : ¬ SortAlike ends early := by decide
  refine ⟨fun h => hclash ((format_le_iff _ _).mp (h ends early)), fun h => ?_, fun h => ?_,
    fun h => ?_⟩
  · let row : Row := ⟨1, utf8 "note.md", utf8 "a", utf8 "web", ends, newYear⟩
    exact hclash ((deletesExpired_iff Row.expiresAt early (Keyed.empty.upsert row)).mp
      (h _ early) row (by decide))
  · let row : Session := ⟨utf8 "id", 1, ends, newYear⟩
    exact hclash ((deletesExpired_iff Session.expiresAt early (Keyed.empty.upsert row)).mp
      (h _ early) row (Keyed.mem_upsert.mpr (.inl rfl)))
  · have hinit : machine.Reach (fresh newYear) := .init fun _ _ => rfl
    obtain ⟨s, hs, hp⟩ := hinit.run_any
      [.acquire 1 (utf8 "note.md") (utf8 "a") (utf8 "web") (60 * 1000000000), .tick early]
      (p := fun s => decide (s.clock = early ∧
        s.granted (1, utf8 "note.md") (utf8 "a") = some ends ∧
        (Locks.acquire s.locks early 1 (utf8 "note.md") (utf8 "b") (utf8 "web") 60).1 =
          .ok ⟨1, utf8 "note.md", utf8 "b", utf8 "web", early + 60⟩)) (by decide)
    obtain ⟨hc, ha, hb⟩ := of_decide_eq_true hp
    have hle := h s hs 1 (utf8 "note.md") (utf8 "b") (utf8 "web") 60 _ _
      (by rw [hc]; exact Prod.ext hb rfl) (utf8 "a") ends (by decide) ha
    rw [hc] at hle
    exact absurd hle (by decide)

/-- With whole seconds apart, the lock passes on when its time is over. -/
theorem expiry_by_text_in_time : ∃ s, machine.Reach s ∧ KeepsPromises s ∧
    s.granted (1, utf8 "note.md") (utf8 "a") = some (newYear + 60 * 1000000000) ∧
    s.granted (1, utf8 "note.md") (utf8 "b") = some (newYear + 121 * 1000000000) := by
  have hinit : machine.ReachVia (fun s a => guard s a = true) (fresh newYear) :=
    .init fun _ _ => rfl
  obtain ⟨s, hs, hp⟩ := hinit.run_any
    [.acquire 1 (utf8 "note.md") (utf8 "a") (utf8 "web") (60 * 1000000000),
      .tick (newYear + 61 * 1000000000),
      .acquire 1 (utf8 "note.md") (utf8 "b") (utf8 "web") (60 * 1000000000)]
    (p := fun s => sorted s && decide (
      s.granted (1, utf8 "note.md") (utf8 "a") = some (newYear + 60 * 1000000000) ∧
      s.granted (1, utf8 "note.md") (utf8 "b") = some (newYear + 121 * 1000000000))) (by decide)
  obtain ⟨hg, hp⟩ := Bool.and_eq_true_iff.mp hp
  exact ⟨s, hs.reach, (expiry_by_text _).2.2.2 s hs rfl hg, of_decide_eq_true hp⟩

end Mdock.Locks.Expiry
