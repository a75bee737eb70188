import Mdock.Lib.Lease
import Mdock.Lib.Run
import Mdock.Locks.Service

/-! `Acquire` as the statements it issues, interleaved with those of other calls on the
same file. Between the select and the upsert of one call another may take the lock; runs
in which no upsert hits a live lock and no cleanup drops one keep the locks exclusive. -/
namespace Mdock.Locks.Race
open Mdock.Go Mdock.Lib

/-- The arguments of one `Acquire` and the time it read on entry. -/
structure Request where
  source : Bytes
  ttl : Int
  now : Instant
  deriving DecidableEq

/-- How far the `Acquire` of an owner has come. -/
inductive Call
  | idle
  | entered (q : Request)
  | cleaned (q : Request)
  | selected (q : Request)
  | acquired (l : Lock)
  | failed (e : Err)
  | released
  deriving DecidableEq

def Call.afterRelease : Call → Call
  | .acquired _ => .released
  | c => c

structure State where
  clock : Instant
  locks : FileLocks
  call : Bytes → Call

/-- `ok` tells whether the statement was executed or failed without effect. -/
inductive Act
  | tick (now : Instant)
  | enter (owner source : Bytes) (ttl : Int)
  | cleanup (owner : Bytes) (ok : Bool)
  | select (owner : Bytes) (ok : Bool)
  | upsert (owner : Bytes) (ok : Bool)
  | release (owner : Bytes) (ok : Bool)

def State.setCall (s : State) (owner : Bytes) (c : Call) : State :=
  { s with call := Function.update s.call owner c }

variable (vaultID : Int) (path : Bytes)

def step (s : State) : Act → Option State
  | .tick now => if s.clock ≤ now then some { s with clock := now } else none
  | .enter owner source ttl =>
    match s.call owner with
    | .idle => some (s.setCall owner
        (if validArgs vaultID path owner source then .entered ⟨source, ttl, s.clock⟩
          else .failed .required))
    | _ => none
  | .cleanup owner ok =>
    match s.call owner with
    | .entered q => some (if ok then
        State.setCall { s with locks := cleanupExpired s.locks q.now } owner (.cleaned q)
        else s.setCall owner (.failed .sql))
    | _ => none
  | .select owner ok =>
    match s.call owner with
    | .cleaned q => some (s.setCall owner
        (if ok then
          match checkExisting (s.locks.get? (vaultID, path)) q.now owner with
          | .ok () => .selected q
          | .error e => .failed e
        else .failed .sql))
    | _ => none
  | .upsert owner ok =>
    match s.call owner with
    | .selected q => some (if ok then
        State.setCall
          { s with locks :=
              s.locks.upsert ⟨vaultID, path, owner, q.source, q.now + q.ttl, q.now⟩ }
          owner (.acquired ⟨vaultID, path, owner, q.source, q.now + q.ttl⟩)
        else s.setCall owner (.failed .sql))
    | _ => none
  | .release owner ok =>
    some (if ok then
      State.setCall { s with locks := release s.locks vaultID path owner } owner
        (s.call owner).afterRelease
      else s)

/-- Any table and any clock, no call begun. -/
def machine : Machine State Act where
  init s := ∀ owner, s.call owner = .idle
  step := step vaultID path

/-- What each owner was promised and has not released. -/
def State.granted (s : State) (owner : Bytes) : Option Instant :=
  match s.call owner with
  | .acquired l => some l.expiresAt
  | _ => none

def State.record (s : State) : Option (Bytes × Instant) :=
  onRecord s.locks (vaultID, path)

/-- Two owners never both hold the lock with time left. -/
def MutualExclusion (s : State) : Prop :=
  ∀ o l o' l', s.call o = .acquired l → s.call o' = .acquired l' →
    s.clock < l.expiresAt → s.clock < l'.expiresAt → o = o'

/-- An upsert meets no live lock of another owner, a cleanup drops no live lock. -/
def guard (s : State) : Act → Bool
  | .upsert owner true => (s.locks.get? (vaultID, path)).all fun r =>
      decide (r.owner = owner ∨ r.expiresAt ≤ s.clock)
  | .cleanup owner true =>
    match s.call owner with
    | .entered q => (s.locks.get? (vaultID, path)).all fun r =>
        !expiredText q.now r || decide (r.expiresAt ≤ s.clock)
    | _ => true
  | _ => true

variable {vaultID path}

theorem granted_setCall (s : State) (owner : Bytes) {c : Call} (hc : ∀ l, c ≠ .acquired l)
    {o : Bytes} {e : Instant} (h : (s.setCall owner c).granted o = some e) :
    o ≠ owner ∧ s.granted o = some e := by
  by_cases ho : o = owner
  · subst ho
    simp only [State.granted, State.setCall, Function.update_self] at h
    cases c <;> simp_all
  · refine ⟨ho, ?_⟩
    simpa [State.granted, State.setCall, Function.update_of_ne ho] using h

theorem granted_setCall_acquired (s : State) (owner : Bytes) (l : Lock) :
    (s.setCall owner (.acquired l)).granted =
      Function.update s.granted owner (some l.expiresAt) := by
  funext o
  by_cases ho : o = owner
  · subst ho
    simp [State.granted, State.setCall]
  · simp [State.granted, State.setCall, Function.update_of_ne ho]

/-- Everything a step can do to the record and to the promises. -/
theorem step_cases {s t : State} {a : Act} (h : step vaultID path s a = some t) :
    s.clock ≤ t.clock ∧
    ((t.locks = s.locks ∧ ∀ o e, t.granted o = some e → s.granted o = some e) ∨
    (∃ owner, ∃ q : Request, a = .cleanup owner true ∧ s.call owner = .entered q ∧
      t.locks = cleanupExpired s.locks q.now ∧
      ∀ o e, t.granted o = some e → s.granted o = some e) ∨
    (∃ owner, ∃ q : Request, a = .upsert owner true ∧ t.clock = s.clock ∧
      t.locks = s.locks.upsert ⟨vaultID, path, owner, q.source, q.now + q.ttl, q.now⟩ ∧
      t.granted = Function.update s.granted owner (some (q.now + q.ttl))) ∨
    ∃ owner, a = .release owner true ∧ t.locks = release s.locks vaultID path owner ∧
      ∀ o e, t.granted o = some e → o ≠ owner ∧ s.granted o = some e) := by
  cases a with
  | tick now =>
    simp only [step, Option.ite_none_right_eq_some, Option.some.injEq] at h
    obtain ⟨hle, rfl⟩ := h
    exact ⟨hle, .inl ⟨rfl, fun o e ho => ho⟩⟩
  | enter owner source ttl =>
    simp only [step] at h
    split at h
    · cases h
      refine ⟨le_rfl, .inl ⟨rfl, fun o e ho => (granted_setCall s owner ?_ ho).2⟩⟩
      intro l
      split <;> simp
    · cases h
  | cleanup owner ok =>
    simp only [step] at h
    split at h
    · rename_i q hq
      cases h
      cases ok with
      | true =>
        exact ⟨le_rfl, .inr (.inl ⟨owner, q, rfl, hq, rfl, fun o e ho =>
          (granted_setCall { s with locks := _ } owner (by simp) ho).2⟩)⟩
      | false =>
        exact ⟨le_rfl, .inl ⟨rfl, fun o e ho => (granted_setCall s owner (by simp) ho).2⟩⟩
    · cases h
  | select owner ok =>
    simp only [step] at h
    split at h
    · cases h
      refine ⟨le_rfl, .inl ⟨rfl, fun o e ho => (granted_setCall s owner ?_ ho).2⟩⟩
      intro l
      split
      · split <;> simp
      · simp
    · cases h
  | upsert owner ok =>
    simp only [step] at h
    split at h
    · rename_i q hq
      cases h
      cases ok with
      | true =>
        exact ⟨le_rfl, .inr (.inr (.inl ⟨owner, q, rfl, rfl, rfl,
          granted_setCall_acquired { s with locks := _ } owner _⟩))⟩
      | false =>
        exact ⟨le_rfl, .inl ⟨rfl, fun o e ho => (granted_setCall s owner (by simp) ho).2⟩⟩
    · cases h
  | release owner ok =>
    simp only [step, Option.some.injEq] at h
    subst h
    cases ok with
    | true =>
      have hc : ∀ l, (s.call owner).afterRelease ≠ .acquired l := by
        intro l
        cases s.call owner <;> simp [Call.afterRelease]
      exact ⟨le_rfl, .inr (.inr (.inr ⟨owner, rfl, rfl, fun o e ho =>
        granted_setCall { s with locks := _ } owner hc ho⟩))⟩
    | false => exact ⟨le_rfl, .inl ⟨rfl, fun o e ho => ho⟩⟩

def State.backed (vaultID : Int) (path : Bytes) (s : State) : Prop :=
  Backed s.granted (s.record vaultID path) s.clock

theorem record_eq_some {s : State} {o : Bytes} {e : Instant} :
    s.record vaultID path = some (o, e) ↔
      ∃ r, s.locks.get? (vaultID, path) = some r ∧ r.owner = o ∧ r.expiresAt = e :=
  onRecord_eq_some

theorem backed_step {s t : State} {a : Act} (hs : s.backed vaultID path)
    (hg : guard vaultID path s a = true) (h : step vaultID path s a = some t) :
    t.backed vaultID path := by
  obtain ⟨hclock, hread | ⟨owner, q, rfl, hq, hl, hsub⟩ | ⟨owner, q, rfl, hck, hl, hgr⟩ |
    ⟨owner, rfl, hl, hsub⟩⟩ := step_cases h
  · have hrec : t.record vaultID path = s.record vaultID path := by rw [State.record, hread.1]; rfl
    rw [State.backed, hrec]
    exact (hs.later hclock).fewer hread.2
  · -- a row that survives is the old one, a row that is dropped has run out
    refine ((hs.expire fun o e hr => ?_).fewer hsub).later hclock
    obtain ⟨r, hget, rfl, rfl⟩ := record_eq_some.mp hr
    by_cases htext : format r.expiresAt ≤ format q.now
    · simp only [guard, hq, hget, Option.all_some, expiredText, htext, decide_true, Bool.not_true,
        Bool.false_or, decide_eq_true_eq] at hg
      exact .inl hg
    · refine .inr (record_eq_some.mpr ⟨r, ?_, rfl, rfl⟩)
      rw [hl]
      exact get?_cleanupExpired_some.mpr ⟨hget, htext⟩
  · have hrec : t.record vaultID path = some (owner, q.now + q.ttl) := by
      rw [record_eq_some, hl]
      exact ⟨_, Keyed.get?_upsert_self s.locks _, rfl, rfl⟩
    rw [State.backed, hgr, hrec, hck]
    refine hs.grant fun o' e' hr => ?_
    obtain ⟨r, hget, rfl, rfl⟩ := record_eq_some.mp hr
    simpa [guard, hget] using hg
  · refine (hs.giveUp hsub fun o' e hne hr => ?_).later hclock
    obtain ⟨r, hget, rfl, rfl⟩ := record_eq_some.mp hr
    refine record_eq_some.mpr ⟨r, ?_, rfl, rfl⟩
    rw [hl]
    exact get?_release_some.mpr ⟨hget, fun h => hne h.2⟩

theorem mutualExclusion_of_backed {s : State} (h : s.backed vaultID path) : MutualExclusion s := by
  intro o l o' l' ho ho' hlt hlt'
  exact h.exclusive o _ o' _ (by simp [State.granted, ho]) (by simp [State.granted, ho']) hlt hlt'

/-- Runs whose upserts and cleanups respect live locks keep the lock exclusive. -/
theorem acquire_exclusive (vaultID : Int) (path : Bytes) (s : State)
    (h : (machine vaultID path).ReachVia (fun s a => guard vaultID path s a = true) s) :
    MutualExclusion s := by
  apply mutualExclusion_of_backed
  refine h.invariant ?_ ?_
  · intro s hs o e ho
    simp [State.granted, hs o] at ho
  · exact fun s a t hi hg hs => backed_step hi hg hs

/-- Outside the guard the lock is not exclusive: an upsert over the live lock of a holder
leaves two of them. -/
theorem upsert_over_live {s t : State} {owner : Bytes} {q : Request}
    (hq : s.call owner = .selected q) (h : step vaultID path s (.upsert owner true) = some t)
    {o : Bytes} {l : Lock} (ho : s.call o = .acquired l) (hlive : s.clock < l.expiresAt)
    (hmine : s.clock < q.now + q.ttl) : ¬ MutualExclusion t := by
  have hne : o ≠ owner := by
    rintro rfl
    rw [hq] at ho
    cases ho
  simp only [step, hq, if_true, Option.some.injEq] at h
  subst h
  intro hm
  refine hne (hm o l owner _ ?_ (Function.update_self ..) hlive hmine)
  exact (Function.update_of_ne hne _ _).trans ho

def fresh : State := ⟨0, Keyed.empty, fun _ => .idle⟩

/-- Both selects run before either upsert, and both calls succeed. -/
theorem acquire_race : ¬ ∀ s, (machine 1 (utf8 "note.md")).Reach s → MutualExclusion s := by
  intro h
  let a := utf8 "a"
  let b := utf8 "b"
  let lock (owner : Bytes) : Lock := ⟨1, utf8 "note.md", owner, utf8 "web", 60⟩
  have hinit : (machine 1 (utf8 "note.md")).Reach fresh := .init fun _ => rfl
  obtain ⟨s, hs, hp⟩ := hinit.run_any
    [.enter a (utf8 "web") 60, .enter b (utf8 "web") 60, .cleanup a true, .cleanup b true,
      .select a true, .select b true, .upsert a true, .upsert b true]
    (p := fun s => decide (s.clock = 0 ∧ s.call a = .acquired (lock a) ∧
      s.call b = .acquired (lock b))) (by decide)
  obtain ⟨hc, ha, hb⟩ := of_decide_eq_true hp
  have hab := h s hs a (lock a) b (lock b) ha hb (by rw [hc]; decide) (by rw [hc]; decide)
  exact absurd hab (by decide)

/-- One call after the other, with a release between them, stays in the guard. -/
theorem acquire_exclusive_in_turn : ∃ s,
    s.call (utf8 "b") = .acquired ⟨1, utf8 "note.md", utf8 "b", utf8 "web", 60⟩ ∧
    MutualExclusion s := by
  let a := utf8 "a"
  let b := utf8 "b"
  have hinit : (machine 1 (utf8 "note.md")).ReachVia
      (fun s a => guard 1 (utf8 "note.md") s a = true) fresh := .init fun _ => rfl
  obtain ⟨s, hs, hp⟩ := hinit.run_any
    [.enter a (utf8 "web") 60, .cleanup a true, .select a true, .upsert a true, .release a true,
      .enter b (utf8 "web") 60, .cleanup b true, .select b true, .upsert b true]
    (p := fun s => decide (s.call b = .acquired ⟨1, utf8 "note.md", b, utf8 "web", 60⟩))
    (by decide)
  exact ⟨s, of_decide_eq_true hp, acquire_exclusive 1 (utf8 "note.md") s hs⟩

end Mdock.Locks.Race
