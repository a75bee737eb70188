import Mdock.Editor.Session

/-! The heartbeats of one session, whatever the server answers and however late. A call is
in flight from its request until it goes on with the answer. -/
namespace Mdock.Editor
open Mdock.Go Mdock.Lib

/-- The answer tells that the lock is lost. -/
def Failure.lost : Failure → Bool
  | .locked | .notOwner => true
  | .other => false

/-- A heartbeat that has still to go on. -/
def Await.beats : Await → Bool
  | .heartbeat | .heartbeatDone => true
  | _ => false

/-- The answer opens the session. -/
def Await.locks : Await → Bool
  | .openLock | .saveLock _ => true
  | _ => false

namespace Heartbeat

/-- A call in flight and, for the record, whether the session was closed since its request. -/
structure Pending where
  await : Await
  stale : Bool
  deriving DecidableEq

/-- The session, its calls in flight, and, for the record, whether the last call of the user
was `close` or `releaseForPageHide`. -/
structure State where
  session : Session
  calls : List Pending
  left : Bool

def newState : State := ⟨{}, [], false⟩

namespace State

def send (s : State) (a : Await) (stale : Bool) : State :=
  { s with calls := s.calls ++ [⟨a, stale⟩] }

def setOpened (s : State) (opened : Bool) : State :=
  { s with session := { s.session with opened := opened } }

def stopHeartbeat (s : State) : State := { s with session := s.session.stopHeartbeat }

def scheduleHeartbeat (s : State) : State :=
  let s' := { s with session := s.session.scheduleHeartbeat }
  if s.session.sendsHeartbeat then s'.send .heartbeat false else s'

def startHeartbeat (s : State) : State := s.stopHeartbeat.scheduleHeartbeat

/-- `close` and `releaseForPageHide`, which differ in how they send the release. -/
def leave (s : State) (a : Await) : State :=
  let s' := { s.stopHeartbeat with calls := s.calls.map fun c => { c with stale := true } }
  if s.session.opened then (s'.setOpened false).send a false else s'

/-- A call goes on with its answer, up to its next request. -/
def resume (s : State) (stale : Bool) : Await → Except Failure Unit → State
  | .openLock, .ok _ => (s.setOpened true).send .openRead false
  | .openRead, .ok _ => s.startHeartbeat
  | .openRead, .error _ => s.leave .release
  | .saveLock content, .ok _ => ((s.setOpened true).startHeartbeat).send (.saveWrite content) false
  | .heartbeat, .error .locked | .heartbeat, .error .notOwner =>
    State.send { s with session := s.session.lockLost } .heartbeatDone stale
  | .heartbeat, _ => s.send .heartbeatDone stale
  | .heartbeatDone, _ => { s with session := s.session.heartbeatDone }
  | _, _ => s

end State

inductive Act
  | callOpen
  | callSave (content : Bytes)
  | callClose
  | callHide
  | timer (n : Nat)
  | deliver (c : Pending) (reply : Except Failure Unit)

def step (s : State) : Act → Option State
  | .callOpen => some { s.send .openLock false with left := false }
  | .callSave content =>
    let a := if s.session.opened then Await.saveWrite content else .saveLock content
    some { s.send a false with left := false }
  | .callClose => some { s.leave .release with left := true }
  | .callHide => some { s.leave .keepalive with left := true }
  | .timer n =>
    if n ∈ s.session.timers then
      some (State.scheduleHeartbeat
        { s with session := { s.session with timers := s.session.timers.erase n } })
    else none
  | .deliver c reply =>
    if c ∈ s.calls then
      some (State.resume { s with calls := s.calls.erase c } c.stale c.await reply)
    else none

def machine : Machine State Act where
  init s := s = newState
  step := step

/-! ### The protocol -/

def State.heartbeats (s : State) : Nat := s.calls.countP fun c => c.await.beats

/-- The armed timers, and the heartbeats in flight where they will arm one. -/
def State.chains (s : State) : Nat :=
  s.session.timers.length + if s.session.opened then s.heartbeats else 0

/-- Left for good, the session ends closed. -/
def State.endsLeft (s : State) : Prop :=
  s.left → s.calls = [] → s.session.opened = false ∧ s.session.timers = []

/-- No answer to a heartbeat from before a close closes the session that was reopened. -/
def State.sparesReopened (s : State) : Prop :=
  ∀ (c : Pending) (f : Failure) (t : State), c.await = .heartbeat → c.stale → f.lost →
    step s (.deliver c (.error f)) = some t → s.session.opened → t.session.opened

/-- An open session starts its heartbeat while no other is in flight. -/
def startsAlone (s : State) : Act → Prop
  | .deliver ⟨.openRead, _⟩ (.ok _) => s.session.opened → s.heartbeats = 0
  | .deliver ⟨.saveLock _, _⟩ (.ok _) => s.heartbeats = 0
  | _ => True

/-- No lock is acquired for a session that was left. -/
def locksInTime (s : State) : Act → Prop
  | .deliver c (.ok _) => c.await.locks → s.left = false
  | _ => True

/-- No lock is acquired while a heartbeat from before a close is in flight. -/
def locksAfresh (s : State) : Act → Prop
  | .deliver c (.ok _) => c.await.locks → ∀ p ∈ s.calls, p.await = .heartbeat → p.stale = false
  | _ => True

/-! ### One chain -/

@[simp] theorem heartbeats_send (s : State) (a : Await) (stale : Bool) :
    (s.send a stale).heartbeats = s.heartbeats + if a.beats then 1 else 0 := by
  simp [State.heartbeats, State.send, List.countP_append, List.countP_singleton]

/-- The timers and the heartbeats in flight are at most one, and `heartbeatID` knows of an
armed timer. -/
structure Single (s : State) : Prop where
  count : s.session.timers.length + s.heartbeats ≤ 1
  armed : ∀ n ∈ s.session.timers, s.session.heartbeatID = .timer n

theorem Single.stop {s : State} (h : Single s) : s.session.stopHeartbeat.timers = [] := by
  cases ht : s.session.timers with
  | nil =>
    simp only [Session.stopHeartbeat, ht]
    split <;> rfl
  | cons n ns =>
    have hns : ns = [] := by
      have hlen := h.count
      rw [ht, List.length_cons] at hlen
      exact List.eq_nil_of_length_eq_zero (by omega)
    have hid := h.armed n (by rw [ht]; exact List.mem_cons_self)
    simp [Session.stopHeartbeat, ht, hns, hid]

theorem Single.of_no_timer {s : State} (ht : s.session.timers = []) (hc : s.heartbeats ≤ 1) :
    Single s := by
  refine ⟨by rw [ht]; simpa using hc, fun n hn => ?_⟩
  rw [ht] at hn
  cases hn

theorem Single.send {s : State} (h : Single s) {a : Await} (ha : a.beats = false) (stale : Bool) :
    Single (s.send a stale) := by
  refine ⟨?_, h.armed⟩
  rw [heartbeats_send, ha]
  exact h.count

theorem Single.setOpened {s : State} (h : Single s) (opened : Bool) :
    Single (s.setOpened opened) :=
  ⟨h.count, h.armed⟩

/-- A heartbeat is sent where nothing is armed and none is in flight. -/
theorem single_scheduleHeartbeat {s : State} (ht : s.session.timers = [])
    (hc : s.heartbeats ≤ 1) (hs : s.session.sendsHeartbeat → s.heartbeats = 0) :
    Single s.scheduleHeartbeat := by
  rw [State.scheduleHeartbeat]
  split
  · rename_i hsend
    refine .of_no_timer ?_ ?_
    · simpa [State.send, Session.scheduleHeartbeat, hsend] using ht
    · rw [heartbeats_send]
      exact le_of_eq (congrArg (· + 1) (hs hsend))
  · rename_i hsend
    refine .of_no_timer ?_ hc
    simpa [Session.scheduleHeartbeat, hsend] using ht

theorem Single.startHeartbeat {s : State} (h : Single s)
    (hs : s.session.opened → s.heartbeats = 0) : Single s.startHeartbeat := by
  have hc := h.count
  refine single_scheduleHeartbeat h.stop (show s.heartbeats ≤ 1 by omega) fun hsend => ?_
  exact hs (by simpa [State.stopHeartbeat, Session.stopHeartbeat, Session.sendsHeartbeat] using hsend)

theorem Single.leave {s : State} (h : Single s) {a : Await} (ha : a.beats = false) :
    Single (s.leave a) := by
  have hs : Single { s.stopHeartbeat with
      calls := s.calls.map fun c => { c with stale := true } } := by
    refine .of_no_timer h.stop ?_
    have hc := h.count
    simp only [State.heartbeats, List.countP_map, Function.comp_def]
    exact (show s.heartbeats ≤ 1 by omega)
  rw [State.leave]
  split
  · exact (hs.setOpened false).send ha false
  · exact hs

theorem heartbeats_erase {s : State} {c : Pending} (hc : c ∈ s.calls) :
    State.heartbeats { s with calls := s.calls.erase c } + (if c.await.beats then 1 else 0) =
      s.heartbeats := by
  have hle : c.await.beats → 0 < s.heartbeats := fun hb => List.countP_pos_iff.mpr ⟨c, hc, hb⟩
  simp only [State.heartbeats, List.countP_erase, hc, true_and] at hle ⊢
  split
  · rename_i hb
    have hpos := hle hb
    omega
  · rfl

theorem Single.erase {s : State} (h : Single s) {c : Pending} (hc : c ∈ s.calls) :
    Single { s with calls := s.calls.erase c } := by
  refine ⟨?_, h.armed⟩
  have hcount := h.count
  have herase := heartbeats_erase hc
  exact (show s.session.timers.length + State.heartbeats { s with calls := s.calls.erase c } ≤ 1 by
    omega)

/-- While a heartbeat goes on, it is the only one, and no timer is armed. -/
theorem Single.alone {s : State} (h : Single s) {c : Pending} (hc : c ∈ s.calls)
    (hb : c.await.beats = true) :
    s.session.timers = [] ∧ State.heartbeats { s with calls := s.calls.erase c } = 0 := by
  have hcount := h.count
  have herase := heartbeats_erase hc
  rw [hb, if_pos rfl] at herase
  exact ⟨List.eq_nil_of_length_eq_zero (by omega), by omega⟩

theorem step_deliver {s t : State} {c : Pending} {reply : Except Failure Unit}
    (h : step s (.deliver c reply) = some t) : c ∈ s.calls ∧
      t = State.resume { s with calls := s.calls.erase c } c.stale c.await reply := by
  simp only [step] at h
  split at h
  · rename_i hc
    cases h
    exact ⟨hc, rfl⟩
  · cases h

theorem Single.deliver {s : State} (h : Single s) {c : Pending} {reply : Except Failure Unit}
    (hc : c ∈ s.calls) (hg : startsAlone s (.deliver c reply)) :
    Single (State.resume { s with calls := s.calls.erase c } c.stale c.await reply) := by
  obtain ⟨a, stale⟩ := c
  have he := h.erase hc
  have hcount : s.heartbeats = 0 →
      State.heartbeats { s with calls := s.calls.erase ⟨a, stale⟩ } = 0 := by
    have herase := heartbeats_erase hc
    omega
  cases a with
  | openLock =>
    cases reply with
    | ok _ => exact (he.setOpened true).send rfl false
    | error _ => exact he
  | openRead =>
    cases reply with
    | ok _ => exact he.startHeartbeat fun ho => hcount (hg ho)
    | error _ => exact he.leave rfl
  | saveLock content =>
    cases reply with
    | ok _ => exact ((he.setOpened true).startHeartbeat fun _ => hcount hg).send rfl false
    | error _ => exact he
  | saveWrite | release | keepalive => cases reply <;> exact he
  | heartbeat =>
    obtain ⟨ht, hz⟩ := h.alone hc rfl
    have hsettle : ∀ ss : Session, ss.timers = [] →
        Single (State.send ⟨ss, s.calls.erase ⟨.heartbeat, stale⟩, s.left⟩ .heartbeatDone
          stale) := by
      intro ss hss
      refine .of_no_timer hss ?_
      rw [heartbeats_send]
      exact le_of_eq (congrArg (· + 1) hz)
    cases reply with
    | ok _ => exact hsettle s.session ht
    | error f =>
      cases f with
      | locked | notOwner => exact hsettle s.session.lockLost h.stop
      | other => exact hsettle s.session ht
  | heartbeatDone =>
    obtain ⟨ht, hz⟩ := h.alone hc rfl
    simp only [State.resume, Session.heartbeatDone]
    split
    · refine ⟨?_, fun n hn => ?_⟩
      · simp only [ht, List.nil_append, List.length_singleton]
        exact le_of_eq (congrArg (1 + ·) hz)
      · simp only [ht, List.nil_append, List.mem_singleton] at hn
        rw [hn]
    · exact .of_no_timer ht (hz.trans_le (Nat.zero_le 1))

theorem Single.step {s t : State} {a : Act} (h : Single s) (hg : startsAlone s a)
    (hs : step s a = some t) : Single t := by
  cases a with
  | callOpen =>
    cases hs
    have hsend := h.send (a := .openLock) rfl false
    exact ⟨hsend.count, hsend.armed⟩
  | callSave content =>
    cases hs
    have hsend : Single (s.send (if s.session.opened then .saveWrite content else .saveLock content)
        false) := by
      split <;> exact h.send rfl false
    exact ⟨hsend.count, hsend.armed⟩
  | callClose =>
    cases hs
    have hleave := h.leave (a := .release) rfl
    exact ⟨hleave.count, hleave.armed⟩
  | callHide =>
    cases hs
    have hleave := h.leave (a := .keepalive) rfl
    exact ⟨hleave.count, hleave.armed⟩
  | timer n =>
    simp only [Heartbeat.step] at hs
    split at hs
    · rename_i hn
      cases hs
      have hlen := List.length_pos_of_mem hn
      have hcount := h.count
      have hz : s.heartbeats = 0 := by omega
      have ht : s.session.timers.erase n = [] :=
        List.eq_nil_of_length_eq_zero (by rw [List.length_erase_of_mem hn]; omega)
      exact single_scheduleHeartbeat ht (hz.trans_le (Nat.zero_le 1)) fun _ => hz
    · cases hs
  | deliver c reply =>
    obtain ⟨hc, rfl⟩ := step_deliver hs
    exact h.deliver hc hg

theorem Single.chains {s : State} (h : Single s) : s.chains ≤ 1 := by
  have hcount := h.count
  rw [State.chains]
  split <;> omega

/-! ### The end of a session that was left -/

/-- Once it was left, the session is closed and no timer is armed. -/
def Closed (s : State) : Prop := s.left → s.session.opened = false ∧ s.session.timers = []

theorem opened_leave (s : State) (a : Await) : (s.leave a).session.opened = false := by
  rw [State.leave]
  split
  · rfl
  · rename_i ho
    simpa [State.stopHeartbeat, Session.stopHeartbeat] using ho

theorem Single.timers_leave {s : State} (h : Single s) (a : Await) :
    (s.leave a).session.timers = [] := by
  rw [State.leave]
  split <;> exact h.stop

@[simp] theorem left_scheduleHeartbeat (s : State) : s.scheduleHeartbeat.left = s.left := by
  rw [State.scheduleHeartbeat]
  split <;> rfl

@[simp] theorem left_startHeartbeat (s : State) : s.startHeartbeat.left = s.left :=
  left_scheduleHeartbeat _

@[simp] theorem left_leave (s : State) (a : Await) : (s.leave a).left = s.left := by
  rw [State.leave]
  split <;> rfl

theorem left_resume (s : State) (stale : Bool) (a : Await) (reply : Except Failure Unit) :
    (s.resume stale a reply).left = s.left := by
  unfold State.resume
  split <;> simp [State.send, State.setOpened]

/-- A closed session starts no heartbeat. -/
theorem startHeartbeat_closed {s : State} (ho : s.session.opened = false) :
    s.startHeartbeat.session = s.session.stopHeartbeat := by
  have hsend : s.session.stopHeartbeat.sendsHeartbeat = false := by
    simp [Session.stopHeartbeat, Session.sendsHeartbeat, ho]
  simp [State.startHeartbeat, State.stopHeartbeat, State.scheduleHeartbeat,
    Session.scheduleHeartbeat, hsend]

theorem Closed.deliver {s : State} (h : Closed s) (hs : Single s) {c : Pending}
    {reply : Except Failure Unit} (hc : c ∈ s.calls) (hg : locksInTime s (.deliver c reply)) :
    Closed (State.resume { s with calls := s.calls.erase c } c.stale c.await reply) := by
  intro hleft
  rw [left_resume] at hleft
  obtain ⟨ho, ht⟩ := h hleft
  obtain ⟨a, stale⟩ := c
  have he := hs.erase hc
  -- the session was left, so the answer opens none
  have hlock : a.locks → ∀ r, reply ≠ .ok r := by
    rintro hl r rfl
    rw [hg hl] at hleft
    cases hleft
  cases a with
  | openLock | saveLock =>
    cases reply with
    | ok r => exact absurd rfl (hlock rfl r)
    | error _ => exact ⟨ho, ht⟩
  | openRead =>
    cases reply with
    | ok _ =>
      have hstart := startHeartbeat_closed
        (s := { s with calls := s.calls.erase ⟨.openRead, stale⟩ }) ho
      simp only [State.resume, hstart]
      exact ⟨ho, he.stop⟩
    | error _ => exact ⟨opened_leave _ _, he.timers_leave _⟩
  | saveWrite | release | keepalive => cases reply <;> exact ⟨ho, ht⟩
  | heartbeat =>
    cases reply with
    | ok _ => exact ⟨ho, ht⟩
    | error f =>
      cases f with
      | locked | notOwner => exact ⟨rfl, hs.stop⟩
      | other => exact ⟨ho, ht⟩
  | heartbeatDone =>
    simp only [State.resume, Session.heartbeatDone, ho, Bool.false_eq_true, if_false]
    exact ⟨trivial, ht⟩

theorem Closed.step {s t : State} {a : Act} (h : Closed s) (hsingle : Single s)
    (hg : locksInTime s a) (hs : step s a = some t) : Closed t := by
  cases a with
  | callOpen | callSave =>
    cases hs
    intro hleft
    cases hleft
  | callClose | callHide =>
    cases hs
    exact fun _ => ⟨opened_leave s _, hsingle.timers_leave _⟩
  | timer n =>
    simp only [Heartbeat.step] at hs
    split at hs
    · rename_i hn
      cases hs
      intro hleft
      rw [left_scheduleHeartbeat] at hleft
      rw [(h hleft).2] at hn
      cases hn
    · cases hs
  | deliver c reply =>
    obtain ⟨hc, rfl⟩ := step_deliver hs
    exact h.deliver hsingle hc hg

/-! ### Answers from before a close -/

/-- No heartbeat from before a close is in flight while the session is open. -/
def Fresh (s : State) : Prop :=
  s.session.opened → ∀ p ∈ s.calls, p.await = .heartbeat → p.stale = false

theorem Fresh.send {s : State} (h : Fresh s) {a : Await} {stale : Bool}
    (ha : a = .heartbeat → stale = false) : Fresh (s.send a stale) := by
  intro ho p hp
  rcases List.mem_append.mp hp with hp | hp
  · exact h ho p hp
  · cases List.mem_singleton.mp hp
    exact ha

theorem Fresh.scheduleHeartbeat {s : State} (h : Fresh s) : Fresh s.scheduleHeartbeat := by
  have hs : Fresh { s with session := s.session.scheduleHeartbeat } := by
    intro ho
    refine h ?_
    simp only [Session.scheduleHeartbeat] at ho
    split at ho <;> exact ho
  rw [State.scheduleHeartbeat]
  split
  · exact hs.send fun _ => rfl
  · exact hs

theorem fresh_leave (s : State) (a : Await) : Fresh (s.leave a) := by
  intro ho
  rw [opened_leave] at ho
  cases ho

theorem Fresh.deliver {s : State} (h : Fresh s) {c : Pending} {reply : Except Failure Unit}
    (hg : locksAfresh s (.deliver c reply)) :
    Fresh (State.resume { s with calls := s.calls.erase c } c.stale c.await reply) := by
  obtain ⟨a, stale⟩ := c
  have he : Fresh { s with calls := s.calls.erase ⟨a, stale⟩ } :=
    fun ho p hp => h ho p (List.mem_of_mem_erase hp)
  have hlock : a.locks → ∀ r, reply = .ok r →
      Fresh (State.setOpened { s with calls := s.calls.erase ⟨a, stale⟩ } true) := by
    rintro hl r rfl _ p hp
    exact hg hl p (List.mem_of_mem_erase hp)
  cases a with
  | openLock =>
    cases reply with
    | ok r => exact (hlock rfl r rfl).send nofun
    | error _ => exact he
  | openRead =>
    cases reply with
    | ok _ => exact Fresh.scheduleHeartbeat (s := State.stopHeartbeat _) he
    | error _ => exact fresh_leave _ _
  | saveLock content =>
    cases reply with
    | ok r =>
      refine Fresh.send ?_ nofun
      exact Fresh.scheduleHeartbeat (s := State.stopHeartbeat _) (hlock rfl r rfl)
    | error _ => exact he
  | saveWrite | release | keepalive => cases reply <;> exact he
  | heartbeat =>
    cases reply with
    | ok _ => exact he.send nofun
    | error f =>
      cases f with
      | locked | notOwner =>
        intro ho
        cases ho
      | other => exact he.send nofun
  | heartbeatDone =>
    intro ho
    refine he ?_
    simp only [State.resume, Session.heartbeatDone] at ho
    split at ho <;> exact ho

theorem Fresh.step {s t : State} {a : Act} (h : Fresh s) (hg : locksAfresh s a)
    (hs : step s a = some t) : Fresh t := by
  cases a with
  | callOpen =>
    cases hs
    exact h.send nofun
  | callSave content =>
    cases hs
    refine h.send fun ha => ?_
    split at ha <;> cases ha
  | callClose | callHide =>
    cases hs
    exact fresh_leave s _
  | timer n =>
    simp only [Heartbeat.step] at hs
    split at hs
    · cases hs
      exact Fresh.scheduleHeartbeat (s := { s with session := _ }) h
    · cases hs
  | deliver c reply =>
    obtain ⟨-, rfl⟩ := step_deliver hs
    exact h.deliver hg

theorem Fresh.spares {s : State} (h : Fresh s) : s.sparesReopened := by
  intro c f t hb hstale _ hs ho
  have hfresh := h ho c (step_deliver hs).1 hb
  rw [hstale] at hfresh
  cases hfresh

/-! ### A step outside the conditions -/

theorem opened_scheduleHeartbeat (ss : Session) : ss.scheduleHeartbeat.opened = ss.opened := by
  rw [Session.scheduleHeartbeat]
  split <;> rfl

theorem chains_startHeartbeat {s : State} (ho : s.session.opened = true) :
    s.heartbeats < s.startHeartbeat.chains := by
  have hsend : s.session.stopHeartbeat.sendsHeartbeat = true := by
    simp [Session.stopHeartbeat, Session.sendsHeartbeat, ho]
  have hstart : s.startHeartbeat =
      State.send { s with session := s.session.stopHeartbeat.scheduleHeartbeat } .heartbeat
        false := by
    simp [State.startHeartbeat, State.stopHeartbeat, State.scheduleHeartbeat, hsend]
  have hopened : s.startHeartbeat.session.opened = true := by
    rw [hstart]
    exact (opened_scheduleHeartbeat _).trans ho
  have hcount : s.startHeartbeat.heartbeats = s.heartbeats + 1 := by
    rw [hstart, heartbeats_send]
    rfl
  rw [State.chains, if_pos hopened, hcount]
  omega

/-- A heartbeat started beside another makes two chains. -/
theorem two_chains {s t : State} {a : Act} (hs : step s a = some t) (hg : ¬ startsAlone s a) :
    1 < t.chains := by
  unfold startsAlone at hg
  split at hg
  · obtain ⟨hc, rfl⟩ := step_deliver hs
    rw [Classical.not_imp] at hg
    have hpos := (Nat.pos_of_ne_zero hg.2).trans_eq (heartbeats_erase hc).symm
    exact lt_of_le_of_lt hpos (chains_startHeartbeat hg.1)
  · rename_i content stale r
    obtain ⟨hc, rfl⟩ := step_deliver hs
    have hpos := (Nat.pos_of_ne_zero hg).trans_eq (heartbeats_erase hc).symm
    have hlt := chains_startHeartbeat
      (s := State.setOpened { s with calls := s.calls.erase ⟨.saveLock content, stale⟩ } true) rfl
    refine lt_of_le_of_lt hpos (hlt.trans_eq ?_)
    simp only [State.resume, State.chains, heartbeats_send, Await.beats, Bool.false_eq_true,
      if_false, Nat.add_zero]
    rfl
  · exact absurd trivial hg

/-- A lock that comes late opens the session that was left. -/
theorem opened_late {s t : State} {a : Act} (hs : step s a = some t) (hg : ¬ locksInTime s a) :
    t.left = true ∧ t.session.opened = true := by
  unfold locksInTime at hg
  split at hg
  · rename_i c r
    obtain ⟨-, rfl⟩ := step_deliver hs
    rw [Classical.not_imp, Bool.not_eq_false] at hg
    obtain ⟨hl, hleft⟩ := hg
    refine ⟨by rw [left_resume]; exact hleft, ?_⟩
    obtain ⟨a, stale⟩ := c
    cases a with
    | openLock => rfl
    | saveLock content => rfl
    | _ => cases hl
  · exact absurd trivial hg

/-! ### Runs -/

theorem single_newState : Single newState := .of_no_timer rfl (Nat.zero_le 1)

theorem single {s : State} (h : machine.ReachVia startsAlone s) : Single s := by
  induction h with
  | init hi =>
    cases hi
    exact single_newState
  | step _ hg hs ih => exact ih.step hg hs

theorem closed {s : State} (h : machine.ReachVia (fun s a => startsAlone s a ∧ locksInTime s a) s) :
    Closed s := by
  induction h with
  | init hi =>
    cases hi
    intro hleft
    cases hleft
  | step hr hg hs ih => exact ih.step (single (hr.mono fun _ _ hg => hg.1)) hg.2 hs

theorem fresh {s : State} (h : machine.ReachVia locksAfresh s) : Fresh s := by
  induction h with
  | init hi =>
    cases hi
    intro ho
    cases ho
  | step _ hg hs ih => exact ih.step hg hs

/-- One chain of heartbeats where an open session starts one only beside no other; where
besides no lock comes after the session was left, it ends closed; and where no lock comes
before the answers to the heartbeats of an earlier tenure, these spare the session. -/
theorem heartbeat_protocol {s : State} :
    (machine.ReachVia startsAlone s → s.chains ≤ 1) ∧
      (machine.ReachVia (fun s a => startsAlone s a ∧ locksInTime s a) s → s.endsLeft) ∧
      (machine.ReachVia locksAfresh s → s.sparesReopened) :=
  ⟨fun h => (single h).chains, fun h hleft _ => closed h hleft, fun h => (fresh h).spares⟩

instance (s : State) (a : Act) : Decidable (startsAlone s a) := by
  unfold startsAlone
  split <;> infer_instance

instance (s : State) (a : Act) : Decidable (locksInTime s a) := by
  unfold locksInTime
  split <;> infer_instance

instance (s : State) (a : Act) : Decidable (locksAfresh s a) := by
  unfold locksAfresh
  split <;> infer_instance

def ok (a : Await) (stale : Bool) : Act := .deliver ⟨a, stale⟩ (.ok ())

/-- A session is opened, beats twice, and is left. -/
def visit : List Act :=
  [.callOpen, ok .openLock false, ok .openRead false, ok .heartbeat false, ok .heartbeatDone false,
    .timer 0, .callClose, ok .heartbeat true, ok .heartbeatDone true, ok .release false]

theorem heartbeat_protocol_visit : ∃ s : State,
    (s.chains ≤ 1 ∧ (s.session.opened = false ∧ s.session.timers = []) ∧ s.sparesReopened) ∧
      s.left = true ∧ s.calls = [] := by
  have hrun : (machine.runVia (fun s a => (startsAlone s a ∧ locksInTime s a) ∧ locksAfresh s a)
      newState visit).any (fun s => s.left && decide (s.calls = [])) = true := by decide +kernel
  obtain ⟨s, hs, hp⟩ := Machine.ReachVia.run_any visit (.init rfl) hrun
  simp only [Bool.and_eq_true, decide_eq_true_eq] at hp
  obtain ⟨hleft, hcalls⟩ := hp
  have hp := heartbeat_protocol (s := s)
  refine ⟨s, ⟨hp.1 (hs.mono fun _ _ h => h.1.1), ?_, hp.2.2 (hs.mono fun _ _ h => h.2)⟩, hleft,
    hcalls⟩
  exact hp.2.1 (hs.mono fun _ _ h => h.1) hleft hcalls

/-- The session is reopened while the heartbeat from before the close is in flight. -/
def reopen : List Act :=
  [.callOpen, ok .openLock false, ok .openRead false, .callClose, .callOpen, ok .openLock false]

/-- Both heartbeats arm a timer. -/
def secondChain : List Act :=
  reopen ++ [ok .openRead false, ok .heartbeat true, ok .heartbeatDone true, ok .heartbeat false,
    ok .heartbeatDone false]

/-- A close overtakes the lock that an open waits for. -/
def lateLock : List Act :=
  [.callOpen, .callClose, ok .openLock true, ok .openRead false, ok .heartbeat false,
    ok .heartbeatDone false]

theorem heartbeat_protocol_breaks :
    ¬ (∀ s, machine.Reach s → s.chains ≤ 1) ∧ ¬ (∀ s, machine.Reach s → s.endsLeft) ∧
      ¬ ∀ s, machine.Reach s → s.sparesReopened := by
  have hinit : machine.Reach newState := .init rfl
  refine ⟨fun h => ?_, fun h => ?_, fun h => ?_⟩
  · obtain ⟨s, hs, hp⟩ := hinit.run_any secondChain (p := fun s => s.session.timers.length = 2)
      (by decide +kernel)
    have hchains := h s hs
    have htwo := of_decide_eq_true hp
    rw [State.chains] at hchains
    omega
  · obtain ⟨s, hs, hp⟩ := hinit.run_any lateLock
      (p := fun s => s.left && s.session.opened && decide (s.calls = [])) (by decide +kernel)
    simp only [Bool.and_eq_true, decide_eq_true_eq] at hp
    obtain ⟨⟨hleft, ho⟩, hcalls⟩ := hp
    have hclosed := (h s hs hleft hcalls).1
    rw [ho] at hclosed
    cases hclosed
  · obtain ⟨s, hs, hp⟩ := hinit.run_any reopen
      (p := fun s => s.session.opened && decide (⟨.heartbeat, true⟩ ∈ s.calls)) (by decide +kernel)
    simp only [Bool.and_eq_true, decide_eq_true_eq] at hp
    obtain ⟨ho, hc⟩ := hp
    have hopened := h s hs ⟨.heartbeat, true⟩ .locked _ rfl rfl rfl (if_pos hc) ho
    cases hopened

end Heartbeat
end Mdock.Editor
