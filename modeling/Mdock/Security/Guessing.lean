import Mdock.Lib.Run
import Mdock.Security.RateLimit

/-! Any number of logins at a time. Each asks `Allow`, checks the password and then tells the
limiter: `Handler.login` and the `authenticate` of the WebDAV handler, where a request without
credentials is one that fails its check. -/
namespace Mdock.Security
open Mdock.Go Mdock.Lib

/-- How far a request has come. -/
inductive Phase
  | checking (key : Bytes)
  | failed (key : Bytes)
  | passed (key : Bytes)
  | done
  deriving DecidableEq

/-- `history` are the calls that the limiter has got. -/
structure State where
  clock : Nat
  attempts : Attempts
  requests : List Phase
  history : History

inductive Act
  | tick (n : Nat)
  | allow (key : Bytes)
  | authenticate (i : Nat) (ok : Bool)
  | internalError (i : Nat)
  | recordFailure (i : Nat)
  | reset (i : Nat)

namespace State
variable (l : RateLimiter) (s : State)

def setPhase (i : Nat) (p : Phase) : State := { s with requests := s.requests.set i p }

def allow (key : Bytes) : State :=
  let r := l.allow s.clock key s.attempts
  { s with
    attempts := r.2
    requests := s.requests ++ [if r.1 then .checking key else .done]
    history := s.history ++ [(s.clock, .allow key)] }

def recordFailure (i : Nat) (key : Bytes) : State :=
  { s.setPhase i .done with
    attempts := l.recordFailure s.clock key s.attempts
    history := s.history ++ [(s.clock, .recordFailure key)] }

def reset (i : Nat) (key : Bytes) : State :=
  { s.setPhase i .done with
    attempts := RateLimiter.reset key s.attempts
    history := s.history ++ [(s.clock, .reset key)] }

end State

def step (l : RateLimiter) (s : State) : Act → Option State
  | .tick n => some { s with clock := s.clock + n }
  | .allow key => some (s.allow l key)
  | .authenticate i ok =>
    match s.requests[i]? with
    | some (.checking key) => some (s.setPhase i (if ok then .passed key else .failed key))
    | _ => none
  | .internalError i =>
    match s.requests[i]? with
    | some (.checking _) => some (s.setPhase i .done)
    | _ => none
  | .recordFailure i =>
    match s.requests[i]? with
    | some (.failed key) => some (s.recordFailure l i key)
    | _ => none
  | .reset i =>
    match s.requests[i]? with
    | some (.passed key) => some (s.reset i key)
    | _ => none

def machine (l : RateLimiter) : Machine State Act where
  init s := s.attempts = (fun _ => none) ∧ s.requests = [] ∧ s.history = []
  step := step l

/-- In no window have more than `limit` failed checks been let through. -/
def Bounded (l : RateLimiter) (s : State) : Prop :=
  ∀ key last n, lastWindow l.span (failures key s.history) = some (last, n) → (n : Int) ≤ l.limit

/-- The check of the request is under way, or its failure is still to be recorded. -/
def Phase.pending (key : Bytes) : Phase → Bool
  | .checking k | .failed k => keyOf k = keyOf key
  | .passed _ | .done => false

namespace State

def pending (s : State) (key : Bytes) : Nat := s.requests.countP (Phase.pending key)

/-- The failures in the window of the key that is open. -/
def openFailures (l : RateLimiter) (s : State) (key : Bytes) : Nat :=
  match lastWindow l.span (failures key s.history) with
  | some (last, n) => if s.clock ≤ last then n else 0
  | none => 0

end State

/-- A request that comes while others of its key are pending finds the key exhausted, or room
left for all of them to fail. -/
def leavesRoom (l : RateLimiter) (s : State) : Act → Prop
  | .allow key => s.pending key = 0 ∨ l.limit ≤ s.openFailures l key ∨
      s.pending key + s.openFailures l key < l.limit
  | _ => True

instance (l : RateLimiter) (s : State) (a : Act) : Decidable (leavesRoom l s a) :=
  match a with
  | .allow _ => inferInstanceAs (Decidable (_ ∨ _ ∨ _))
  | .tick _ | .authenticate _ _ | .internalError _ | .recordFailure _ | .reset _ => .isTrue trivial

/-! ### What a step can do -/

inductive Step (l : RateLimiter) (s : State) : Act → State → Prop
  | tick (n : Nat) : Step l s (.tick n) { s with clock := s.clock + n }
  | allow (key : Bytes) : Step l s (.allow key) (s.allow l key)
  | authenticate {i : Nat} {key : Bytes} (hp : s.requests[i]? = some (.checking key)) (ok : Bool) :
      Step l s (.authenticate i ok) (s.setPhase i (if ok then .passed key else .failed key))
  | internalError {i : Nat} {key : Bytes} (hp : s.requests[i]? = some (.checking key)) :
      Step l s (.internalError i) (s.setPhase i .done)
  | recordFailure {i : Nat} {key : Bytes} (hp : s.requests[i]? = some (.failed key)) :
      Step l s (.recordFailure i) (s.recordFailure l i key)
  | reset {i : Nat} {key : Bytes} (hp : s.requests[i]? = some (.passed key)) :
      Step l s (.reset i) (s.reset i key)

variable {l : RateLimiter} {s t : State}

theorem step_cases {a : Act} (h : step l s a = some t) : Step l s a t := by
  cases a with
  | tick n =>
    cases h
    exact .tick n
  | allow key =>
    cases h
    exact .allow key
  | authenticate i ok =>
    simp only [step] at h
    split at h
    · cases h
      exact .authenticate ‹_› ok
    · cases h
  | internalError i =>
    simp only [step] at h
    split at h
    · cases h
      exact .internalError ‹_›
    · cases h
  | recordFailure i =>
    simp only [step] at h
    split at h
    · cases h
      exact .recordFailure ‹_›
    · cases h
  | reset i =>
    simp only [step] at h
    split at h
    · cases h
      exact .reset ‹_›
    · cases h

/-! ### What is pending and what is recorded -/

theorem countP_setPhase {i : Nat} {p q : Phase} (h : s.requests[i]? = some p)
    (f : Phase → Bool) : (s.setPhase i q).requests.countP f + (if f p then 1 else 0) =
      s.requests.countP f + if f q then 1 else 0 := by
  obtain ⟨hi, rfl⟩ := List.getElem?_eq_some_iff.mp h
  have hle : (if f s.requests[i] then 1 else 0) ≤ s.requests.countP f := by
    split
    · exact List.countP_pos_iff.mpr ⟨_, List.getElem_mem hi, ‹_›⟩
    · exact Nat.zero_le _
  have hset : (s.setPhase i q).requests.countP f = s.requests.countP f -
      (if f s.requests[i] then 1 else 0) + if f q then 1 else 0 := List.countP_set hi
  omega

theorem pending_setPhase {i : Nat} {p q : Phase} (h : s.requests[i]? = some p) (key : Bytes) :
    (s.setPhase i q).pending key + (if p.pending key then 1 else 0) =
      s.pending key + if q.pending key then 1 else 0 := countP_setPhase h _

theorem openFailures_le (hb : Bounded l s) (key : Bytes) :
    (s.openFailures l key : Int) ≤ l.limit := by
  have hpos := l.limit_pos
  unfold State.openFailures
  split
  · rename_i last n hw
    split
    · exact hb key last n hw
    · omega
  · omega

theorem openFailures_congr (hc : t.clock = s.clock) {key : Bytes}
    (hh : failures key t.history = failures key s.history) :
    t.openFailures l key = s.openFailures l key := by
  rw [State.openFailures, State.openFailures, hc, hh]

theorem openFailures_tick (n : Nat) (key : Bytes) :
    ({ s with clock := s.clock + n } : State).openFailures l key ≤ s.openFailures l key := by
  unfold State.openFailures
  split
  · rename_i last m hw
    simp only [hw]
    split_ifs <;> omega
  · exact Nat.zero_le _

/-- A failure counts in the window that is open, or opens one. -/
theorem lastWindow_recordFailure (i : Nat) {k key : Bytes} (hk : keyOf k = keyOf key) :
    ∃ last, s.clock ≤ last ∧
      lastWindow l.span (failures key (s.recordFailure l i k).history) =
        some (last, s.openFailures l key + 1) := by
  simp only [State.recordFailure, State.openFailures, failures_recordFailure, if_pos hk,
    lastWindow_concat]
  cases lastWindow l.span (failures key s.history) with
  | none => exact ⟨_, Nat.le_add_right _ _, rfl⟩
  | some w =>
    by_cases hlast : s.clock ≤ w.1
    · exact ⟨w.1, hlast, by simp [hlast]⟩
    · exact ⟨_, Nat.le_add_right _ l.span, by simp [hlast]⟩

theorem openFailures_recordFailure (i : Nat) {k key : Bytes} (hk : keyOf k = keyOf key) :
    (s.recordFailure l i k).openFailures l key = s.openFailures l key + 1 := by
  obtain ⟨last, hlast, hw⟩ := lastWindow_recordFailure (l := l) (s := s) i hk
  rw [State.openFailures, hw]
  exact if_pos hlast

theorem failures_recordFailure_ne (i : Nat) {k key : Bytes} (hk : keyOf k ≠ keyOf key) :
    failures key (s.recordFailure l i k).history = failures key s.history := by
  rw [State.recordFailure, failures_recordFailure, if_neg hk]

theorem failures_reset_state (i : Nat) (k key : Bytes) :
    failures key (s.reset i k).history = [] ∨
      failures key (s.reset i k).history = failures key s.history := by
  rw [State.reset, failures_reset]
  split
  · exact .inl rfl
  · exact .inr rfl

/-! ### Runs that leave room -/

/-- The map is what the calls have made of it. -/
def Tracked (l : RateLimiter) (s : State) : Prop := Tracks l s.clock s.attempts s.history

theorem tracked_of_reach (hw : l.window.toInt < 2 ^ 62) (h : (machine l).Reach s) :
    Tracked l s := by
  refine h.invariant (fun s hs => ?_) fun s a t ht hs => ?_
  · obtain ⟨ha, -, hh⟩ := hs
    rw [Tracked, ha, hh]
    exact tracks_nil l s.clock
  · cases step_cases hs with
    | tick n => exact Tracks.later ht (Nat.le_add_right _ _)
    | allow key => exact (Tracks.cleanup hw ht).look key
    | authenticate | internalError => exact ht
    | recordFailure => exact (Tracks.cleanup hw ht).note _
    | reset => exact Tracks.reset ht _

/-- Should all that is pending fail, the windows hold no more than `limit` failures. -/
structure Roomy (l : RateLimiter) (s : State) : Prop where
  bounded : Bounded l s
  room : ∀ key, (s.pending key + s.openFailures l key : Int) ≤ l.limit

theorem exhausted_iff (key : Bytes) :
    l.Exhausted s.history s.clock key ↔ l.limit ≤ s.openFailures l key := by
  have hpos := l.limit_pos
  unfold RateLimiter.Exhausted State.openFailures
  constructor
  · rintro ⟨last, n, hw, hlast, hn⟩
    simp only [hw, if_pos hlast]
    exact hn
  · intro hle
    split at hle
    · rename_i last n hw
      split at hle
      · exact ⟨last, n, hw, ‹_›, hle⟩
      · omega
    · omega

/-- `Allow` answers by the failures in the open window. -/
theorem allow_iff (hw : l.window.toInt < 2 ^ 62) (ht : Tracked l s)
    (key : Bytes) : (l.allow s.clock key s.attempts).1 = true ↔ s.openFailures l key < l.limit := by
  have ha := (Tracks.cleanup hw ht).answer key
  rw [exhausted_iff] at ha
  rw [← Bool.not_eq_false, ← not_le]
  exact not_congr ha

theorem openFailures_keyOf {k key : Bytes} (h : keyOf k = keyOf key) :
    s.openFailures l k = s.openFailures l key := by
  have hf : failures k s.history = failures key s.history := by
    simp only [failures, h]
  rw [State.openFailures, State.openFailures, hf]

theorem pending_keyOf {k key : Bytes} (h : keyOf k = keyOf key) :
    s.pending k = s.pending key := by
  have hp : Phase.pending k = Phase.pending key := by
    funext p
    cases p <;> simp [Phase.pending, h]
  rw [State.pending, State.pending, hp]

theorem pending_allow (k key : Bytes) : (s.allow l k).pending key = s.pending key +
    if (l.allow s.clock k s.attempts).1 ∧ keyOf k = keyOf key then 1 else 0 := by
  rw [State.pending, State.allow, List.countP_append, List.countP_singleton]
  congr 1
  cases (l.allow s.clock k s.attempts).1 <;> simp [Phase.pending]

theorem Roomy.allow (hw : l.window.toInt < 2 ^ 62) (h : Roomy l s)
    (ht : Tracked l s) {k : Bytes} (hg : leavesRoom l s (.allow k)) :
    Roomy l (s.allow l k) := by
  have hh : ∀ key, failures key (s.allow l k).history = failures key s.history :=
    fun key => failures_allow key k s.history s.clock
  refine ⟨fun key last n hl => h.bounded key last n (hh key ▸ hl), fun key => ?_⟩
  have hroom := h.room key
  rw [pending_allow, openFailures_congr (s := s) (t := s.allow l k) rfl (hh key)]
  split
  · rename_i hyes
    obtain ⟨hyes, hk⟩ := hyes
    rw [allow_iff hw ht, openFailures_keyOf hk] at hyes
    rw [leavesRoom, openFailures_keyOf hk, pending_keyOf hk] at hg
    push_cast
    omega
  · simpa using hroom

theorem Roomy.setPhase (h : Roomy l s) {i : Nat} {p q : Phase} (hp : s.requests[i]? = some p)
    (hq : ∀ key, q.pending key = true → p.pending key = true) : Roomy l (s.setPhase i q) := by
  refine ⟨h.bounded, fun key => ?_⟩
  have hroom := h.room key
  have hcount := pending_setPhase (q := q) hp key
  have hopen : (s.setPhase i q).openFailures l key = s.openFailures l key :=
    openFailures_congr rfl rfl
  have hle : (if q.pending key then 1 else 0) ≤ if p.pending key then 1 else 0 := by
    by_cases hqk : q.pending key = true
    · rw [if_pos hqk, if_pos (hq key hqk)]
    · rw [if_neg hqk]
      exact Nat.zero_le _
  rw [hopen]
  omega

theorem Roomy.recordFailure (h : Roomy l s) {i : Nat} {k : Bytes}
    (hp : s.requests[i]? = some (.failed k)) : Roomy l (s.recordFailure l i k) := by
  have hroom : ∀ key, ((s.recordFailure l i k).pending key +
      (s.recordFailure l i k).openFailures l key : Int) ≤ l.limit := by
    intro key
    have hroom := h.room key
    have hcount := pending_setPhase (q := .done) hp key
    have hpend : (s.recordFailure l i k).pending key = (s.setPhase i .done).pending key := rfl
    rw [hpend]
    by_cases hk : keyOf k = keyOf key
    · rw [openFailures_recordFailure i hk]
      simp only [Phase.pending, hk, decide_true, if_true, Bool.false_eq_true, if_false] at hcount
      push_cast
      omega
    · rw [openFailures_congr (s := s) (t := s.recordFailure l i k) rfl
        (failures_recordFailure_ne i hk)]
      simp only [Phase.pending, hk, decide_false, Bool.false_eq_true, if_false] at hcount
      omega
  refine ⟨fun key last n hl => ?_, hroom⟩
  by_cases hk : keyOf k = keyOf key
  · obtain ⟨last', -, hl'⟩ := lastWindow_recordFailure (l := l) (s := s) i hk
    rw [hl'] at hl
    cases hl
    have hr := hroom key
    rw [openFailures_recordFailure i hk] at hr
    omega
  · rw [failures_recordFailure_ne i hk] at hl
    exact h.bounded key last n hl

theorem Roomy.reset (h : Roomy l s) {i : Nat} {k : Bytes}
    (hp : s.requests[i]? = some (.passed k)) : Roomy l (s.reset i k) := by
  refine ⟨fun key last n hl => ?_, fun key => ?_⟩
  · rcases failures_reset_state (s := s) i k key with he | he
    · rw [he] at hl
      cases hl
    · exact h.bounded key last n (he ▸ hl)
  · have hroom := h.room key
    have hcount := pending_setPhase (q := .done) hp key
    have hpend : (s.reset i k).pending key = (s.setPhase i .done).pending key := rfl
    simp only [Phase.pending, Bool.false_eq_true, if_false] at hcount
    rw [hpend]
    rcases failures_reset_state (s := s) i k key with he | he
    · have hzero : (s.reset i k).openFailures l key = 0 := by
        rw [State.openFailures, he]
        rfl
      rw [hzero]
      omega
    · rw [openFailures_congr (s := s) (t := s.reset i k) rfl he]
      omega

theorem Roomy.step (hw : l.window.toInt < 2 ^ 62) (h : Roomy l s) (ht : Tracked l s) {a : Act}
    (hg : leavesRoom l s a) (hs : step l s a = some t) : Roomy l t := by
  cases step_cases hs with
  | tick n =>
    refine ⟨h.bounded, fun key => ?_⟩
    have hroom := h.room key
    have hle := openFailures_tick (l := l) (s := s) n key
    have hpend : ({ s with clock := s.clock + n } : State).pending key = s.pending key := rfl
    rw [hpend]
    omega
  | allow => exact h.allow hw ht hg
  | authenticate hp ok =>
    refine h.setPhase hp fun key hq => ?_
    cases ok with
    | true => cases hq
    | false => exact hq
  | internalError hp => exact h.setPhase hp fun key hq => by cases hq
  | recordFailure hp => exact h.recordFailure hp
  | reset hp => exact h.reset hp

theorem roomy_of_reach (hw : l.window.toInt < 2 ^ 62)
    (h : (machine l).ReachVia (leavesRoom l) s) : Roomy l s := by
  induction h with
  | init h =>
    obtain ⟨-, hr, hh⟩ := h
    have hpos := l.limit_pos
    refine ⟨fun key last n hl => ?_, fun key => ?_⟩
    · rw [hh] at hl
      cases hl
    · rw [State.pending, State.openFailures, hr, hh]
      simpa [failures, lastWindow] using hpos.le
  | step hr hg hs ih => exact ih.step hw (tracked_of_reach hw hr.reach) hg hs

/-! ### All that is pending may fail -/

def Phase.underway (key : Bytes) : Phase → Bool
  | .checking k => keyOf k = keyOf key
  | _ => false

/-- The checks of the key that are still under way. -/
def State.underway (s : State) (key : Bytes) : Nat := s.requests.countP (Phase.underway key)

theorem underway_setPhase {i : Nat} {p q : Phase} (h : s.requests[i]? = some p) (key : Bytes) :
    (s.setPhase i q).underway key + (if p.underway key then 1 else 0) =
      s.underway key + if q.underway key then 1 else 0 := countP_setPhase h _

/-- Where more is pending than the limit leaves room for, the requests need only fail. -/
theorem exceeds (key : Bytes) (m : Nat) (hm : s.underway key + s.pending key = m)
    (hover : l.limit < s.pending key + s.openFailures l key) :
    ∃ as u, (machine l).run s as = some u ∧ ¬ Bounded l u := by
  induction m using Nat.strong_induction_on generalizing s with
  | _ m ih =>
    by_cases hzero : s.pending key = 0
    · refine ⟨[], s, rfl, fun hb => ?_⟩
      have hle := openFailures_le hb key
      omega
    · obtain ⟨p, hp, hpend⟩ := List.countP_pos_iff.mp (Nat.pos_of_ne_zero hzero)
      obtain ⟨i, hi⟩ := List.mem_iff_getElem?.mp hp
      cases p with
      | checking k =>
        -- the check fails
        have hk : keyOf k = keyOf key := by simpa [Phase.pending] using hpend
        have hunder := underway_setPhase (q := .failed k) hi key
        have hcount := pending_setPhase (q := .failed k) hi key
        simp only [Phase.underway, hk, decide_true, if_true, Bool.false_eq_true, if_false] at hunder
        simp only [Phase.pending, hk, decide_true, if_true] at hcount
        have hopen : (s.setPhase i (.failed k)).openFailures l key = s.openFailures l key :=
          openFailures_congr rfl rfl
        obtain ⟨as, u, hrun, hu⟩ := ih _ (by omega) (s := s.setPhase i (.failed k)) rfl (by omega)
        refine ⟨.authenticate i false :: as, u, ?_, hu⟩
        simpa [Machine.run, machine, Security.step, hi] using hrun
      | failed k =>
        -- the failure is recorded
        have hk : keyOf k = keyOf key := by simpa [Phase.pending] using hpend
        have hunder := underway_setPhase (q := .done) hi key
        have hcount := pending_setPhase (q := .done) hi key
        simp only [Phase.underway, Bool.false_eq_true, if_false] at hunder
        simp only [Phase.pending, hk, decide_true, if_true, Bool.false_eq_true, if_false] at hcount
        have hopen := openFailures_recordFailure (l := l) (s := s) i hk
        have hunder' : (s.recordFailure l i k).underway key =
            (s.setPhase i .done).underway key := rfl
        have hcount' : (s.recordFailure l i k).pending key =
            (s.setPhase i .done).pending key := rfl
        obtain ⟨as, u, hrun, hu⟩ := ih _ (by omega) (s := s.recordFailure l i k) rfl (by omega)
        refine ⟨.recordFailure i :: as, u, ?_, hu⟩
        simpa [Machine.run, machine, Security.step, hi] using hrun
      | passed | done => cases hpend

/-- While every request that comes leaves room, no window holds more than `limit` failed checks;
a request that does not can be one too many. -/
theorem guessing_bounded (l : RateLimiter) (hw : l.window.toInt < 2 ^ 62) :
    (∀ s, (machine l).ReachVia (leavesRoom l) s → Bounded l s) ∧
    ∀ s a t, (machine l).Reach s → step l s a = some t → ¬ leavesRoom l s a →
      ∃ as u, (machine l).run t as = some u ∧ ¬ Bounded l u := by
  refine ⟨fun s h => (roomy_of_reach hw h).bounded, fun s a t h hs hg => ?_⟩
  cases a with
  | allow k =>
    cases hs
    simp only [leavesRoom, not_or, not_le, not_lt] at hg
    obtain ⟨-, hfew, hmany⟩ := hg
    have hyes := (allow_iff hw (tracked_of_reach hw h) k).mpr hfew
    have hpend := pending_allow (l := l) (s := s) k k
    rw [if_pos ⟨hyes, rfl⟩] at hpend
    have hopen : (s.allow l k).openFailures l k = s.openFailures l k :=
      openFailures_congr (s := s) (t := s.allow l k) rfl (failures_allow k k s.history s.clock)
    exact exceeds k _ rfl (by rw [hpend, hopen]; push_cast; omega)
  | tick | authenticate | internalError | recordFailure | reset => exact absurd trivial hg

def twoTries : RateLimiter := newRateLimiter 2 60000000000

def newState : State := ⟨0, fun _ => none, [], []⟩

theorem newState_init (l : RateLimiter) : (machine l).init newState := ⟨rfl, rfl, rfl⟩

def wrong (i : Nat) : List Act := [.authenticate i false, .recordFailure i]

/-- Two wrong passwords one after the other, and a third that is turned away. -/
theorem guessing_bounded_in_turn : ∃ s : State, s.history.length = 5 ∧
    s.requests = [.done, .done, .done] ∧ Bounded twoTries s := by
  have hrun : ((machine twoTries).runVia (leavesRoom twoTries) newState
      ([.allow []] ++ wrong 0 ++ [.allow []] ++ wrong 1 ++ [.allow []])).any (fun s =>
        decide (s.history.length = 5 ∧ s.requests = [.done, .done, .done])) = true := by
    decide +kernel
  obtain ⟨s, hs, hp⟩ := (Machine.ReachVia.init (newState_init twoTries)).run_any _ hrun
  obtain ⟨hlen, hreq⟩ := of_decide_eq_true hp
  exact ⟨s, hlen, hreq, (guessing_bounded twoTries (by decide)).1 s hs⟩

/-- Three wrong passwords at a time, all asked for before the first is recorded. -/
theorem guessing_unbounded : ¬ ∀ s, (machine twoTries).Reach s → Bounded twoTries s := by
  intro h
  have hinit : (machine twoTries).Reach newState := .init (newState_init twoTries)
  obtain ⟨s, hs, hp⟩ := hinit.run_any
    ([.allow [], .allow [], .allow []] ++ wrong 0 ++ wrong 1 ++ wrong 2)
    (p := fun s =>
      decide (lastWindow twoTries.span (failures [] s.history) = some (60000000000, 3)))
    (by decide +kernel)
  have hle := h s hs [] _ _ (of_decide_eq_true hp)
  exact absurd hle (by decide)

end Mdock.Security
