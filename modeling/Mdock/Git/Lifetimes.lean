import Mdock.Git.Commit
import Mdock.Git.Journal
import Mdock.Store.Vaults

/-! The repository of a vault over the processes of the server, each killed at any moment. A
process starts with `initializeVaults`; only when it is through does it serve. `InitIfNeeded`
and `EnsureMainBranch` leave the work tree, the index and the commit of `HEAD` as they are. -/
namespace Mdock.Git.Lifetimes
open Mdock.Go Mdock.Lib Mdock.Store

/-- How far the process is: `ReplayPending`, the three commands of `RecoveryCommit`, and the
server behind them. -/
inductive Stage
  | down
  | replaying
  | adding (disk : Nat)
  | added
  | dirty
  | serving
  deriving DecidableEq

/-- A call of `PushVaultRemote` or `CreateSnapshot`; `f` is its call of `Flush`, and `before` is
what was acknowledged when it began. -/
inductive Call
  | idle
  | pushFlush (f : Nat) (before : List Ack)
  | push (before : List Ack)
  | snapshotFlush (f : Nat) (before : List Ack)
  | tag (before : List Ack)
  | done

/-- A commit that was tagged or pushed. -/
structure Copy where
  commit : Nat
  before : List Ack

structure State where
  stage : Stage
  queue : Git.State
  call : Nat → Call
  past : List Ack
  tags : List (Bytes × Copy)
  remote : Option Copy

/-- All that was ever acknowledged. -/
def State.known (s : State) : List Ack := s.past ++ s.queue.acked

def State.setCall (s : State) (i : Nat) (p : Call) : State :=
  { s with call := Function.update s.call i p }

/-- The queue of a new process, over what an earlier one left. -/
def reopened (q : Git.State) : Git.State :=
  { newQueue with db := q.db, journal := q.journal, disk := q.disk, index := q.index, head := q.head }

def State.serve (s : State) : State := { s with stage := .serving, queue := reopened s.queue }

/-- `"pre-sync-" + strconv.FormatInt(time.Now().Unix(), 10)`. -/
def snapshotName (now : Int) : Bytes := utf8 "pre-sync-" ++ sprintInt now

def validTagName (name : Bytes) : Bool :=
  name ≠ [] ∧ name.length ≤ 64 ∧ (runes name).all fun c =>
    ('a' ≤ c ∧ c ≤ 'z') ∨ ('A' ≤ c ∧ c ≤ 'Z') ∨ ('0' ≤ c ∧ c ≤ '9') ∨ c = '_' ∨ c = '-' ∨ c = '.'

inductive Act
  | write
  | start (ok : Bool)
  | replay (o : Outcome)
  | recover
  | add (n : Nat)
  | status
  | commit
  | crash
  | queue (a : Git.Act)
  | pushVaultRemote (i f : Nat)
  | createSnapshot (i f : Nat)
  | flushed (i : Nat)
  | pushed (i : Nat) (ok : Bool)
  | tagged (i : Nat) (now : Int) (ok : Bool)

/-- The acts on a queue that are not those of the calls above. -/
def isServed : Git.Act → Bool
  | .write | .replay _ _ | .runExclusive | .exclusiveDone _ => false
  | _ => true

section Steps
variable {κ : Type*} [DecidableEq κ] (content : Nat → κ)

/-- A step of the queue, after which the process is at `stage`. -/
def queueStep (s : State) (a : Git.Act) (stage : Stage) : Option State :=
  (Git.step content s.queue a).map fun q => { s with stage := stage, queue := q }

/-- A call enters `Flush`. -/
def enter (s : State) (i f : Nat) (p : Call) : Option State :=
  match s.stage, s.call i with
  | .serving, .idle => (queueStep content s (.flush f) .serving).map fun t => t.setCall i p
  | _, _ => none

/-- `Flush` has returned to a call. -/
def flushed (s : State) (i : Nat) : Option State :=
  match s.call i with
  | .pushFlush f before =>
    match s.queue.flush f with
    | .done none =>
      (queueStep content s .runExclusive s.stage).map fun t => t.setCall i (.push before)
    | .done (some _) => some (s.setCall i .done)
    | _ => none
  | .snapshotFlush f before =>
    match s.queue.flush f with
    | .done none => some (s.setCall i (.tag before))
    | .done (some _) => some (s.setCall i .done)
    | _ => none
  | _ => none

/-- `git push` ends: if it succeeds, the remote has the commit of `HEAD`. -/
def pushed (s : State) (i : Nat) (ok : Bool) : Option State :=
  match s.call i with
  | .push before =>
    (queueStep content s (.exclusiveDone ok) s.stage).map fun t =>
      { t.setCall i .done with remote := if ok then some ⟨s.queue.head, before⟩ else s.remote }
  | _ => none

/-- `CreateTag`: `git tag` fails on a name that there is. -/
def tagged (s : State) (i : Nat) (now : Int) (ok : Bool) : Option State :=
  match s.call i with
  | .tag before =>
    if ok ∧ validTagName (snapshotName now) ∧ snapshotName now ∉ s.tags.map Prod.fst then
      some { s.setCall i .done with tags := (snapshotName now, ⟨s.queue.head, before⟩) :: s.tags }
    else some (s.setCall i .done)
  | _ => none

def step (s : State) : Act → Option State
  | .write => queueStep content s .write s.stage
  | .start ok => if s.stage = .down then queueStep content s (.replay 0 ok) .replaying else none
  | .replay o => if s.stage = .replaying then queueStep content s (.run 0 o) .replaying else none
  | .recover =>
    match s.stage, s.queue.flush 0 with
    | .replaying, .done none | .replaying, .skipped none =>
      some { s with stage := .adding s.queue.disk, queue := reopened s.queue }
    | _, _ => none
  | .add n =>
    match s.stage with
    | .adding disk =>
      if disk ≤ n ∧ n ≤ s.queue.disk then
        some { s with stage := .added, queue := { s.queue with index := n } }
      else none
    | _ => none
  | .status =>
    if s.stage = .added then
      some (if clean content s.queue then s.serve else { s with stage := .dirty })
    else none
  | .commit =>
    if s.stage = .dirty then
      some { s with queue := { s.queue with head := s.queue.index } }.serve
    else none
  | .crash => some
    { s with
      stage := .down
      queue := reopened s.queue
      call := fun _ => .idle
      past := s.known }
  | .queue a =>
    if s.stage = .serving ∧ isServed a then queueStep content s a .serving else none
  | .pushVaultRemote i f => enter content s i f (.pushFlush f s.known)
  | .createSnapshot i f => enter content s i f (.snapshotFlush f s.known)
  | .flushed i => flushed content s i
  | .pushed i ok => pushed content s i ok
  | .tagged i now ok => tagged s i now ok

/-- A server that was never started, over any repository and any rows. -/
def machine : Machine State Act where
  init s := s.stage = .down ∧ s.queue = reopened s.queue ∧ s.queue.db = true ∧
    s.queue.index ≤ s.queue.disk ∧ (∀ i, s.call i = .idle) ∧ s.past = [] ∧ s.tags = [] ∧
    s.remote = none
  step := step content

end Steps

/-! ### What a step of a queue leaves -/

section Queue
variable {κ : Type*} {content : Nat → κ} {q r : Git.State} {a : Git.Act} {before : List Ack}

/-- The index only takes on later states of the tree, and `HEAD` follows the index. -/
structure Grows (q r : Git.State) : Prop where
  index : q.index ≤ r.index
  disk : q.disk ≤ r.disk
  head : r.head = q.head ∨ r.head = r.index

/-- The commit of `HEAD` holds what was on disk when the tasks were acknowledged. -/
def Holds (content : Nat → κ) (commit : Nat) (before : List Ack) : Prop :=
  ∀ a ∈ before, ∃ n, a.disk ≤ n ∧ content n = content commit

/-- The tasks are staged and in `HEAD`. -/
structure Settled (content : Nat → κ) (q : Git.State) (before : List Ack) : Prop where
  staged : ∀ a ∈ before, a.disk ≤ q.index
  holds : Holds content q.head before

theorem Settled.mono (h : Settled content q before) (hg : Grows q r) :
    Settled content r before := by
  have hstaged : ∀ a ∈ before, a.disk ≤ r.index := fun a ha => (h.staged a ha).trans hg.index
  refine ⟨hstaged, fun a ha => ?_⟩
  rcases hg.head with he | he
  · rw [he]
    exact h.holds a ha
  · rw [he]
    exact ⟨r.index, hstaged a ha, rfl⟩

theorem step_grows (h : Tracked content q) (hs : Git.Step content q a r) : Grows q r := by
  cases hs with
  | write => exact ⟨le_rfl, Nat.le_succ _, .inl rfl⟩
  | @run f _ _ hr =>
    cases hr with
    | added hf hn =>
      have hach := h.achieved f
      rw [hf] at hach
      exact ⟨hach.1.trans hn, le_rfl, .inl rfl⟩
    | commit => exact ⟨le_rfl, le_rfl, .inr rfl⟩
    | merge | snapshot | startAdd | clean | dirty | fail | clear | noRows | clearFail | restore
    | leave => exact ⟨le_rfl, le_rfl, .inl rfl⟩
  | reject | enqueue | persist | persistFail | acknowledge | fire | flush | close | replay
  | runExclusive | exclusiveDone => exact ⟨le_rfl, le_rfl, .inl rfl⟩

/-- What was known of a call of `Flush` stays known. -/
structure Called (q r : Git.State) (f : Nat) : Prop where
  active : q.flush f ≠ .idle → r.flush f ≠ .idle ∧ r.began f = q.began f
  acked : ∀ (i : Nat) (x : Ack), q.acked[i]? = some x → r.acked[i]? = some x

theorem Called.update {g : Nat} {p : Phase} {f : Nat} (hf : r.flush = Function.update q.flush g p)
    (hp : p ≠ .idle) (hb : r.began = q.began ∨
      q.flush g = .idle ∧ r.began = Function.update q.began g q.acked.length)
    (ha : r.acked = q.acked) : Called q r f := by
  refine ⟨fun hne => ?_, fun i x hx => by rwa [ha]⟩
  rw [hf]
  by_cases hfg : f = g
  · subst hfg
    rw [Function.update_self]
    rcases hb with hb | ⟨hidle, -⟩
    · exact ⟨hp, by rw [hb]⟩
    · exact absurd hidle hne
  · rw [Function.update_of_ne hfg]
    refine ⟨hne, ?_⟩
    rcases hb with hb | ⟨-, hb⟩
    · rw [hb]
    · rw [hb, Function.update_of_ne hfg]

theorem step_called (hs : Git.Step content q a r) (f : Nat) : Called q r f := by
  cases hs with
  | fire _ hf | flush hf | close _ hf =>
    exact .update rfl (by simp) (.inr ⟨hf, rfl⟩) rfl
  | replay hf hp =>
    exact .update rfl (by rintro rfl; exact hp) (.inr ⟨hf, rfl⟩) rfl
  | run hr =>
    cases hr with
    | merge | snapshot | startAdd | added | clean | dirty | fail | commit | clear | noRows
    | clearFail | restore | leave => exact .update rfl (by simp) (.inl rfl) rfl
  | acknowledge =>
    refine ⟨fun h => ⟨h, rfl⟩, fun i x hx => ?_⟩
    rw [← hx]
    exact List.getElem?_append_left (List.getElem?_eq_some_iff.mp hx).1
  | write | reject | enqueue | persist | persistFail | runExclusive | exclusiveDone =>
    exact ⟨fun h => ⟨h, rfl⟩, fun _ _ h => h⟩

/-- Only rows the process wrote itself stand in the journal. -/
def OwnRows (q : Git.State) : Prop := ∀ row ∈ q.journal.rows, row ∈ q.inserted

theorem step_ownRows (h : OwnRows q) (hs : Git.Step content q a r) : OwnRows r := by
  cases hs with
  | persist =>
    intro row hrow
    rcases Keyed.mem_upsert.mp hrow with rfl | ⟨hrow, -⟩
    · exact List.mem_append_right _ (List.mem_singleton.mpr rfl)
    · exact List.mem_append_left _ (h row hrow)
  | run hr =>
    cases hr with
    | clear =>
      intro row hrow
      cases hrow
    | merge | snapshot | startAdd | added | clean | dirty | fail | commit | noRows
    | clearFail | restore | leave => exact h
  | write | reject | enqueue | persistFail | acknowledge | fire | flush | close | replay
  | runExclusive | exclusiveDone => exact h

end Queue

/-! ### What a process keeps -/

/-- Rows that a `ReplayPending` which returned nil has left. -/
def Replayed (q : Git.State) : Prop :=
  match q.flush 0 with
  | .ending _ none | .done none | .skipped none => q.journal.rows = []
  | _ => True

section Kept
variable {κ : Type*} (content : Nat → κ)

def Stage.Kept (q : Git.State) (past : List Ack) : Stage → Prop
  | .down => q = reopened q
  | .replaying => q.acked = [] ∧ Replayed q
  | .adding disk => q = reopened q ∧ q.journal.rows = [] ∧ disk ≤ q.disk ∧ ∀ a ∈ past, a.disk ≤ disk
  | .added | .dirty => q = reopened q ∧ q.journal.rows = [] ∧ ∀ a ∈ past, a.disk ≤ q.index
  | .serving => Settled content q past ∧ OwnRows q

/-- A call in `Flush` knows which tasks the flush will bring into `HEAD`; after it, they are
there. -/
def Call.Kept (q : Git.State) (past : List Ack) : Call → Prop
  | .idle | .done => True
  | .pushFlush f before | .snapshotFlush f before =>
    q.flush f ≠ .idle ∧ ∀ a ∈ before, a ∈ past ∨ ∃ i < q.began f, q.acked[i]? = some a
  | .push before | .tag before => Settled content q before

structure Kept (s : State) : Prop where
  tracked : Tracked content s.queue
  db : s.queue.db = true
  past : ∀ a ∈ s.past, a.disk ≤ s.queue.disk
  stage : s.stage.Kept content s.queue s.past
  idle : s.stage ≠ .serving → ∀ i, s.call i = .idle
  call : ∀ i, (s.call i).Kept content s.queue s.past
  tags : ∀ tag ∈ s.tags, Holds content tag.2.commit tag.2.before
  remote : ∀ copy ∈ s.remote, Holds content copy.commit copy.before

variable {content} {s t : State} {q : Git.State} {a : Git.Act}

theorem reopened_init [DecidableEq κ] (h : q.index ≤ q.disk) :
    (Git.machine content).init (reopened q) := by
  simp [Git.machine, reopened, newQueue, h]

theorem reopened_tracked (h : q.index ≤ q.disk) : Tracked content (reopened q) := by
  classical
  exact tracked_init (reopened_init h)

theorem Call.Kept.mono {past : List Ack} {c : Call} {r : Git.State}
    (h : c.Kept content q past) (hg : Grows q r) (hc : ∀ f, Called q r f) :
    c.Kept content r past := by
  cases c with
  | idle | done => trivial
  | pushFlush f before | snapshotFlush f before =>
    obtain ⟨hactive, hbefore⟩ := h
    obtain ⟨hactive', hbegan⟩ := (hc f).active hactive
    refine ⟨hactive', fun a ha => (hbefore a ha).imp_right ?_⟩
    rintro ⟨i, hi, hx⟩
    exact ⟨i, by rwa [hbegan], (hc f).acked i a hx⟩
  | push before | tag before => exact Settled.mono h hg

/-- A step of the queue of a process that serves. -/
theorem Kept.queueStep (h : Kept content s) (hs : s.stage = .serving)
    (hq : Git.Step content s.queue a q) : Kept content { s with queue := q } := by
  have hg := step_grows h.tracked hq
  have hstage := h.stage
  rw [hs] at hstage
  refine ⟨h.tracked.step hq, ?_, fun a ha => (h.past a ha).trans hg.disk, ?_,
    fun hne => absurd hs hne, fun i => (h.call i).mono hg (step_called hq), h.tags, h.remote⟩
  · exact (step_db hq).trans h.db
  · rw [hs]
    exact ⟨hstage.1.mono hg, step_ownRows hstage.2 hq⟩

theorem Kept.write (h : Kept content s) :
    Kept content { s with queue := { s.queue with disk := s.queue.disk + 1 } } := by
  have hw : Git.Step content s.queue .write { s.queue with disk := s.queue.disk + 1 } := .write
  have hg := step_grows h.tracked hw
  refine ⟨h.tracked.step hw, h.db, fun a ha => (h.past a ha).trans hg.disk, ?_, h.idle,
    fun i => (h.call i).mono hg (step_called hw), h.tags, h.remote⟩
  have hstage := h.stage
  have hre : s.queue = reopened s.queue → { s.queue with disk := s.queue.disk + 1 } =
      reopened { s.queue with disk := s.queue.disk + 1 } := fun he => by
    rw [he]
    rfl
  cases hs : s.stage with
  | down =>
    rw [hs] at hstage
    exact hre hstage
  | replaying =>
    rw [hs] at hstage
    exact hstage
  | adding disk =>
    rw [hs] at hstage
    exact ⟨hre hstage.1, hstage.2.1, hstage.2.2.1.trans (Nat.le_succ _), hstage.2.2.2⟩
  | added | dirty =>
    rw [hs] at hstage
    exact ⟨hre hstage.1, hstage.2⟩
  | serving =>
    rw [hs] at hstage
    exact ⟨hstage.1.mono hg, hstage.2⟩

/-- The step of a process that does not serve yet, or no longer. -/
theorem Kept.idly (h : Kept content s) (hs : s.stage ≠ .serving) {stage : Stage}
    (ht : Tracked content q) (hdb : q.db = true) (hd : s.queue.disk ≤ q.disk)
    (hstage : stage.Kept content q s.past) :
    Kept content { s with stage := stage, queue := q } := by
  have hidle : ∀ i, s.call i = .idle := h.idle hs
  refine ⟨ht, hdb, fun a ha => (h.past a ha).trans hd, hstage, fun _ => hidle, fun i => ?_,
    h.tags, h.remote⟩
  simp only [hidle]
  trivial

theorem Kept.crash (h : Kept content s) : Kept content
    { s with
      stage := .down
      queue := reopened s.queue
      call := fun _ => .idle
      past := s.known } := by
  refine ⟨reopened_tracked h.tracked.counted.index_le, h.db, fun a ha => ?_, rfl, fun _ _ => rfl,
    fun _ => trivial, h.tags, h.remote⟩
  rcases List.mem_append.mp ha with ha | ha
  · exact h.past a ha
  · obtain ⟨i, hi⟩ := List.mem_iff_getElem?.mp ha
    exact h.tracked.counted.acked_le i a hi

theorem Kept.setCall (h : Kept content s) (hs : s.stage = .serving) (i : Nat) {c : Call}
    (hc : c.Kept content s.queue s.past) : Kept content (s.setCall i c) := by
  refine ⟨h.tracked, h.db, h.past, h.stage, fun hne => absurd hs hne, ?_, h.tags, h.remote⟩
  exact (Function.forall_update_iff s.call fun _ c => c.Kept content s.queue s.past).mpr
    ⟨hc, fun j _ => h.call j⟩

/-! ### `initializeVaults` -/

theorem Kept.start [DecidableEq κ] {ok : Bool} (h : Kept content s) (hs : s.stage = .down)
    (hq : Git.step content s.queue (.replay 0 ok) = some q) :
    Kept content { s with stage := .replaying, queue := q } := by
  have hstage := h.stage
  rw [hs] at hstage
  have hidle : s.queue.flush 0 = .idle := by rw [show s.queue = reopened s.queue from hstage]; rfl
  have hacked : s.queue.acked = [] := by rw [show s.queue = reopened s.queue from hstage]; rfl
  have hstep := step_cases hq
  refine h.idly (by simp [hs]) (h.tracked.step hstep) ((step_db hstep).trans h.db)
    (step_grows h.tracked hstep).disk ?_
  simp only [Git.step, hidle, h.db, Bool.true_eq_false, if_false, Option.some.injEq] at hq
  subst hq
  refine ⟨hacked, ?_⟩
  simp only [Replayed, Git.State.call, Git.State.setFlush, Function.update_self]
  split_ifs with hok hrows
  · trivial
  · exact hrows
  · trivial

theorem ran_replayed {o : Outcome} (hdb : q.db = true) (h : Replayed q) {r : Git.State}
    (hr : Ran content q 0 o r) : Replayed r := by
  cases hr with
  | leave hf =>
    rename_i snap e _
    rw [Replayed, hf] at h
    simp only [Replayed, State.setFlush, State.leave, Function.update_self]
    cases e with
    | none => exact h
    | some e => trivial
  | noRows _ hno => exact absurd (hno.symm.trans hdb) (by simp)
  | clear =>
    simp only [Replayed, State.setFlush, Function.update_self]
    rfl
  | merge | snapshot | startAdd | added | clean | dirty | fail | commit | clearFail | restore =>
    simp [Replayed, State.setFlush]

theorem ran_acked {f : Nat} {o : Outcome} {r : Git.State} (hr : Ran content q f o r) :
    r.acked = q.acked := by
  cases hr <;> rfl

theorem Kept.replay {o : Outcome} (h : Kept content s) (hs : s.stage = .replaying)
    (hr : Ran content s.queue 0 o q) :
    Kept content { s with stage := .replaying, queue := q } := by
  have hstage := h.stage
  rw [hs] at hstage
  have hstep : Git.Step content s.queue (.run 0 o) q := .run hr
  refine h.idly (by simp [hs]) (h.tracked.step hstep) ((step_db hstep).trans h.db)
    (step_grows h.tracked hstep).disk ⟨(ran_acked hr).trans hstage.1, ?_⟩
  exact ran_replayed h.db hstage.2 hr

theorem Kept.recover (h : Kept content s) (hs : s.stage = .replaying)
    (hrows : s.queue.journal.rows = []) :
    Kept content { s with stage := .adding s.queue.disk, queue := reopened s.queue } :=
  h.idly (by simp [hs]) (reopened_tracked h.tracked.counted.index_le) h.db le_rfl
    ⟨rfl, hrows, le_rfl, h.past⟩

/-- After `git add` the index holds what earlier processes acknowledged. -/
theorem Kept.add {disk n : Nat} (h : Kept content s) (hs : s.stage = .adding disk)
    (hn : disk ≤ n) (hd : n ≤ s.queue.disk) :
    Kept content { s with stage := .added, queue := { s.queue with index := n } } := by
  have hstage := h.stage
  rw [hs] at hstage
  obtain ⟨hre, hrows, -, hpast⟩ := hstage
  have hre' : { s.queue with index := n } = reopened { s.queue with index := n } := by
    rw [hre]
    rfl
  refine h.idly (by simp [hs]) ?_ h.db le_rfl ⟨hre', hrows, fun a ha => (hpast a ha).trans hn⟩
  rw [hre']
  exact reopened_tracked hd

/-- With the index in `HEAD` the process serves. -/
theorem Kept.serve (h : Kept content s) (hs : s.stage ≠ .serving)
    (hrows : s.queue.journal.rows = []) (hpast : ∀ a ∈ s.past, a.disk ≤ s.queue.index)
    {head : Nat} (hhead : content s.queue.index = content head) :
    Kept content { s with queue := { s.queue with head := head } }.serve := by
  refine h.idly hs (reopened_tracked h.tracked.counted.index_le) h.db le_rfl ⟨⟨hpast, ?_⟩, ?_⟩
  · exact fun a ha => ⟨s.queue.index, hpast a ha, hhead⟩
  · intro row hrow
    rw [show (reopened { s.queue with head := head }).journal.rows = [] from hrows] at hrow
    cases hrow

/-! ### `CreateSnapshot` and `PushVaultRemote` -/

theorem Kept.serving (h : Kept content s) {i : Nat} (hi : s.call i ≠ .idle) :
    s.stage = .serving := by
  by_contra hs
  exact hi (h.idle hs i)

/-- A flush that returned nil has settled what its call knew. -/
theorem Kept.settled (h : Kept content s) (hs : s.stage = .serving) {f : Nat}
    (hf : s.queue.flush f = .done none) {before : List Ack}
    (hb : ∀ a ∈ before, a ∈ s.past ∨ ∃ i < s.queue.began f, s.queue.acked[i]? = some a) :
    Settled content s.queue before := by
  have hstage := h.stage
  rw [hs] at hstage
  have hach := h.tracked.achieved f
  have hle := (h.tracked.began f).2
  rw [hf] at hach hle
  constructor
  · intro a ha
    rcases hb a ha with ha | ⟨i, hi, hx⟩
    · exact hstage.1.staged a ha
    · exact (hach trivial).1 i a (hi.trans_le (hle trivial)) hx
  · intro a ha
    rcases hb a ha with ha | ⟨i, hi, hx⟩
    · exact hstage.1.holds a ha
    · exact h.tracked.returned hf i a hi hx

theorem Kept.tagged {i : Nat} {now : Int} {ok : Bool} (h : Kept content s)
    (ht : tagged s i now ok = some t) : Kept content t := by
  unfold Lifetimes.tagged at ht
  have hcall := h.call i
  split at ht
  · rename_i before hi
    have hs := h.serving (i := i) (by simp [hi])
    rw [hi] at hcall
    have hu := h.setCall hs i (c := .done) trivial
    split at ht
    · cases ht
      refine ⟨hu.tracked, hu.db, hu.past, hu.stage, hu.idle, hu.call, fun tag htag => ?_, hu.remote⟩
      rcases List.mem_cons.mp htag with rfl | htag
      · exact hcall.holds
      · exact h.tags tag htag
    · cases ht
      exact hu
  · cases ht

variable [DecidableEq κ]

theorem Kept.enter (h : Kept content s) {i f : Nat} {c : Call}
    (hc : c = .pushFlush f s.known ∨ c = .snapshotFlush f s.known)
    (ht : enter content s i f c = some t) : Kept content t := by
  unfold Lifetimes.enter at ht
  split at ht
  · rename_i hs _
    obtain ⟨u, hu, rfl⟩ := Option.map_eq_some_iff.mp ht
    obtain ⟨q, hq, rfl⟩ := Option.map_eq_some_iff.mp hu
    have hu := h.queueStep hs (step_cases hq)
    have hcall : q = s.queue.call f .start := by
      simp only [Git.step] at hq
      split at hq
      · exact (Option.some.inj hq).symm
      · cases hq
    rw [hs] at hu
    refine hu.setCall rfl i ?_
    have hkept : q.flush f ≠ .idle ∧
        ∀ a ∈ s.known, a ∈ s.past ∨ ∃ i < q.began f, q.acked[i]? = some a := by
      subst hcall
      refine ⟨by simp [Git.State.call, Git.State.setFlush], fun a ha => ?_⟩
      refine (List.mem_append.mp ha).imp_right fun ha => ?_
      obtain ⟨j, hj⟩ := List.mem_iff_getElem?.mp ha
      refine ⟨j, ?_, hj⟩
      simp only [Git.State.call, Function.update_self]
      exact (List.getElem?_eq_some_iff.mp hj).1
    rcases hc with rfl | rfl <;> exact hkept
  · cases ht

theorem Kept.flushed {i : Nat} (h : Kept content s) (ht : flushed content s i = some t) :
    Kept content t := by
  unfold Lifetimes.flushed at ht
  have hcall := h.call i
  split at ht
  · rename_i f before hi
    have hs := h.serving (i := i) (by simp [hi])
    rw [hi] at hcall
    split at ht
    · rename_i hf
      obtain ⟨u, hu, rfl⟩ := Option.map_eq_some_iff.mp ht
      obtain ⟨q, hq, rfl⟩ := Option.map_eq_some_iff.mp hu
      have hstep := step_cases hq
      exact (h.queueStep hs hstep).setCall hs i
        ((h.settled hs hf hcall.2).mono (step_grows h.tracked hstep))
    · cases ht
      exact h.setCall hs i trivial
    · cases ht
  · rename_i f before hi
    have hs := h.serving (i := i) (by simp [hi])
    rw [hi] at hcall
    split at ht
    · rename_i hf
      cases ht
      exact h.setCall hs i (h.settled hs hf hcall.2)
    · cases ht
      exact h.setCall hs i trivial
    · cases ht
  · cases ht

theorem Kept.pushed {i : Nat} {ok : Bool} (h : Kept content s)
    (ht : pushed content s i ok = some t) : Kept content t := by
  unfold Lifetimes.pushed at ht
  have hcall := h.call i
  split at ht
  · rename_i before hi
    have hs := h.serving (i := i) (by simp [hi])
    rw [hi] at hcall
    obtain ⟨u, hu, rfl⟩ := Option.map_eq_some_iff.mp ht
    obtain ⟨q, hq, rfl⟩ := Option.map_eq_some_iff.mp hu
    have hu := (h.queueStep hs (step_cases hq)).setCall hs i (c := .done) trivial
    refine ⟨hu.tracked, hu.db, hu.past, hu.stage, hu.idle, hu.call, hu.tags, fun copy hc => ?_⟩
    cases ok with
    | true =>
      cases hc
      exact hcall.holds
    | false => exact h.remote copy hc
  · cases ht

/-! ### Every run -/

theorem Kept.step {a : Act} (h : Kept content s) (ht : step content s a = some t) :
    Kept content t := by
  have hstage := h.stage
  cases a with
  | write =>
    cases ht
    exact h.write
  | start ok =>
    simp only [Lifetimes.step, Option.ite_none_right_eq_some] at ht
    obtain ⟨hs, ht⟩ := ht
    obtain ⟨q, hq, rfl⟩ := Option.map_eq_some_iff.mp ht
    exact h.start hs hq
  | replay o =>
    simp only [Lifetimes.step, Option.ite_none_right_eq_some] at ht
    obtain ⟨hs, ht⟩ := ht
    obtain ⟨q, hq, rfl⟩ := Option.map_eq_some_iff.mp ht
    exact h.replay hs (ran_of_runStep rfl hq)
  | recover =>
    simp only [Lifetimes.step] at ht
    split at ht
    · rename_i hs hf
      rw [hs] at hstage
      cases ht
      refine h.recover hs ?_
      simpa only [Replayed, hf] using hstage.2
    · rename_i hs hf
      rw [hs] at hstage
      cases ht
      refine h.recover hs ?_
      simpa only [Replayed, hf] using hstage.2
    · cases ht
  | add n =>
    simp only [Lifetimes.step] at ht
    split at ht
    · rename_i disk hs
      simp only [Option.ite_none_right_eq_some, Option.some.injEq] at ht
      obtain ⟨⟨hn, hd⟩, rfl⟩ := ht
      exact h.add hs hn hd
    · cases ht
  | status =>
    simp only [Lifetimes.step, Option.ite_none_right_eq_some, Option.some.injEq] at ht
    obtain ⟨hs, rfl⟩ := ht
    rw [hs] at hstage
    split
    · rename_i hc
      exact h.serve (by simp [hs]) hstage.2.1 hstage.2.2 hc.2
    · exact h.idly (by simp [hs]) h.tracked h.db le_rfl hstage
  | commit =>
    simp only [Lifetimes.step, Option.ite_none_right_eq_some, Option.some.injEq] at ht
    obtain ⟨hs, rfl⟩ := ht
    rw [hs] at hstage
    exact h.serve (by simp [hs]) hstage.2.1 hstage.2.2 rfl
  | crash =>
    cases ht
    exact h.crash
  | queue a =>
    simp only [Lifetimes.step, Option.ite_none_right_eq_some] at ht
    obtain ⟨⟨hs, -⟩, ht⟩ := ht
    obtain ⟨q, hq, rfl⟩ := Option.map_eq_some_iff.mp ht
    rw [← hs]
    exact h.queueStep hs (step_cases hq)
  | pushVaultRemote i f => exact h.enter (.inl rfl) ht
  | createSnapshot i f => exact h.enter (.inr rfl) ht
  | flushed i => exact h.flushed ht
  | pushed i ok => exact h.pushed ht
  | tagged i now ok => exact h.tagged ht

theorem kept_init (h : (machine content).init s) : Kept content s := by
  obtain ⟨hs, hre, hdb, hle, hcall, hpast, htags, hremote⟩ := h
  refine ⟨hre ▸ reopened_tracked hle, hdb, ?_, ?_, fun _ => hcall, fun i => ?_, ?_, ?_⟩
  · simp [hpast]
  · rw [hs]
    exact hre
  · rw [hcall i]
    trivial
  · simp [htags]
  · simp [hremote]

theorem kept_of_reach (h : (machine content).Reach s) : Kept content s :=
  h.invariant (fun _ => kept_init) fun _ _ _ hk ht => hk.step ht

/-- Whenever the server runs, `HEAD` holds what any killed process had acknowledged, and the
journal no rows but those of the running one. -/
theorem restart_keeps (content : Nat → κ) (s : State) (h : (machine content).Reach s)
    (hs : s.stage = .serving) :
    (∀ a ∈ s.past, ∃ n, a.disk ≤ n ∧ content n = content s.queue.head) ∧
      ∀ row ∈ s.queue.journal.rows, row ∈ s.queue.inserted := by
  have hstage := (kept_of_reach h).stage
  rw [hs] at hstage
  exact ⟨hstage.1.holds, hstage.2⟩

/-- A server over an empty repository. -/
def unborn : State := ⟨.down, newQueue, fun _ => .idle, [], [], none⟩

/-- The server is killed after a flush deleted the row of a change it had not staged, and
started again. -/
def lostRow : List Act :=
  [.start true, .recover, .add 0, .status, .write, .queue (.enqueue (update "a.md")),
    .queue (.persist true), .queue .acknowledge, .queue (.fire 0), .queue (.run 0 .ok),
    .queue (.run 0 .ok), .write, .queue (.enqueue (update "b.md")), .queue (.persist true),
    .queue .acknowledge, .queue (.run 0 (.staged 1)), .queue (.run 0 .ok), .queue (.run 0 .ok),
    .queue (.run 0 .ok), .crash, .start true, .recover, .add 2, .status, .commit]

theorem unborn_init : (machine id).init unborn :=
  ⟨rfl, rfl, rfl, le_rfl, fun _ => rfl, rfl, rfl, rfl⟩

theorem restart_keeps_lost : ∃ s : State, s.past.length = 2 ∧
    ∀ a ∈ s.past, ∃ n, a.disk ≤ n ∧ id n = id s.queue.head := by
  obtain ⟨s, h, hs⟩ := Machine.Reach.run_any (M := machine id) lostRow (.init unborn_init)
    (p := fun s => s.stage = .serving ∧ s.past.length = 2) (by decide +kernel)
  simp only [decide_eq_true_eq] at hs
  exact ⟨s, hs.2, (restart_keeps id s h hs.1).1⟩

/-- The commit of a snapshot, and the one the remote has, hold all that was acknowledged before
the request. -/
theorem copies_hold (content : Nat → κ) (s : State) (h : (machine content).Reach s) :
    (∀ tag ∈ s.tags, ∀ a ∈ tag.2.before, ∃ n, a.disk ≤ n ∧ content n = content tag.2.commit) ∧
      ∀ copy ∈ s.remote, ∀ a ∈ copy.before, ∃ n, a.disk ≤ n ∧ content n = content copy.commit :=
  ⟨(kept_of_reach h).tags, (kept_of_reach h).remote⟩

/-- A snapshot of the server that was killed. -/
def snapshot : List Act :=
  lostRow ++ [.createSnapshot 0 0, .queue (.run 0 .ok), .queue (.run 0 .ok),
    .queue (.run 0 (.staged 2)), .queue (.run 0 .ok), .queue (.run 0 .ok), .queue (.run 0 .ok),
    .flushed 0, .tagged 0 1700000000 true]

theorem copies_hold_snapshot : ∃ s : State,
    (∃ tag ∈ s.tags, tag.1 = utf8 "pre-sync-1700000000" ∧ tag.2.before.length = 2) ∧
    ∀ tag ∈ s.tags, ∀ a ∈ tag.2.before, ∃ n, a.disk ≤ n ∧ id n = id tag.2.commit := by
  obtain ⟨s, h, hs⟩ := Machine.Reach.run_any (M := machine id) snapshot (.init unborn_init)
    (p := fun s => s.tags.any fun tag =>
      tag.1 = utf8 "pre-sync-1700000000" ∧ tag.2.before.length = 2) (by decide +kernel)
  simp only [List.any_eq_true, decide_eq_true_eq] at hs
  exact ⟨s, hs, (copies_hold id s h).1⟩

/-! ### A start that nothing goes wrong in -/

/-- The steps of a start in which the database and git do what they are asked to. -/
def Act.starts : Act → Bool
  | .start ok => ok
  | .replay o => o ≠ .failed
  | .recover | .add _ | .status | .commit => true
  | _ => false

def Leads (content : Nat → κ) (s t : State) : Prop :=
  ∃ acts : List Act, (∀ a ∈ acts, a.starts) ∧ (machine content).run s acts = some t

variable {u : State}

theorem Leads.refl : Leads content s s := ⟨[], by simp, rfl⟩

theorem Leads.head {a : Act} (ha : a.starts) (hs : step content s a = some t)
    (h : Leads content t u) : Leads content s u := by
  obtain ⟨acts, hacts, hrun⟩ := h
  refine ⟨a :: acts, ?_, ?_⟩
  · simpa [ha] using hacts
  · exact (congrArg (Option.bind · fun t => (machine content).run t acts) hs).trans hrun

theorem Leads.replay {o : Outcome} {p : Phase} (ho : (Act.replay o).starts) (hs : s.stage = .replaying)
    (hf : s.queue.flush 0 = p) (hr : runStep content s.queue 0 p o = some q)
    (h : Leads content { s with stage := .replaying, queue := q } u) : Leads content s u := by
  refine .head ho ?_ h
  rw [Lifetimes.step, if_pos hs, queueStep, Git.step, hf, hr]
  rfl

omit [DecidableEq κ] in
theorem flush_setFlush (q : Git.State) (f : Nat) (p : Phase) : (q.setFlush f p).flush f = p :=
  Function.update_self ..

omit [DecidableEq κ] in
theorem flush_call (q : Git.State) (f : Nat) (p : Phase) : (q.call f p).flush f = p :=
  Function.update_self ..

/-- The server runs, and git and the database hold nothing back. -/
def Serves (content : Nat → κ) (s : State) : Prop :=
  s.stage = .serving ∧ content s.queue.head = content s.queue.disk ∧ s.queue.journal.rows = []

/-- The three commands of `RecoveryCommit`. -/
theorem recovers (content : Nat → κ) (hs : s.stage = .replaying)
    (hf : s.queue.flush 0 = .done none ∨ s.queue.flush 0 = .skipped none)
    (hrows : s.queue.journal.rows = []) :
    ∃ t, Leads content s t ∧ Serves content t ∧ t.past = s.past := by
  have hrecover : step content s .recover =
      some { s with stage := .adding s.queue.disk, queue := reopened s.queue } := by
    rcases hf with hf | hf <;> simp only [Lifetimes.step, hs, hf]
  have hle : s.queue.disk ≤ s.queue.disk ∧ s.queue.disk ≤ s.queue.disk := ⟨le_rfl, le_rfl⟩
  let q : Git.State := { reopened s.queue with index := s.queue.disk }
  by_cases hc : clean content q
  · refine ⟨State.serve { s with queue := q }, ?_, ⟨rfl, (hc.1.trans hc.2).symm, hrows⟩, rfl⟩
    refine .head rfl hrecover (.head (a := .add s.queue.disk) rfl (if_pos hle) ?_)
    exact .head (a := .status) rfl (congrArg some (if_pos hc)) .refl
  · refine ⟨State.serve { s with queue := { q with head := s.queue.disk } }, ?_, ⟨rfl, rfl, hrows⟩,
      rfl⟩
    refine .head rfl hrecover (.head (a := .add s.queue.disk) rfl (if_pos hle) ?_)
    refine .head (a := .status) rfl (congrArg some (if_neg hc)) ?_
    exact .head (a := .commit) rfl rfl .refl

/-- The end of a flush that committed. -/
theorem committed_serves (content : Nat → κ) (hs : s.stage = .replaying) {snap : Sources}
    (hf : s.queue.flush 0 = .committed snap) (hmu : s.queue.mu = none) (hdb : s.queue.db = true) :
    ∃ t, Leads content s t ∧ Serves content t ∧ t.past = s.past := by
  let q := { s.queue with journal := .empty }.setFlush 0 (.ending snap none)
  obtain ⟨t, hlead, ht⟩ := recovers content
    (s := { s with stage := .replaying, queue := (q.leave none).setFlush 0 (.done none) }) rfl
    (.inl (flush_setFlush ..)) rfl
  have hnone : q.mu.isNone := by
    rw [show q.mu = none from hmu]
    rfl
  have hclear : runStep content s.queue 0 (.committed snap) .ok = some q := if_pos hdb
  have hleave : runStep content q 0 (.ending snap none) .ok =
      some ((q.leave none).setFlush 0 (.done none)) := if_pos hnone
  exact ⟨t, .replay rfl hs hf hclear (.replay rfl rfl (flush_setFlush ..) hleave hlead), ht⟩

/-- A start with which git and the database go along ends in a server whose `HEAD` is the work
tree, with no rows left to replay. -/
theorem start_serves (content : Nat → κ) (s : State) (h : (machine content).Reach s)
    (hs : s.stage = .down) : ∃ t, Leads content s t ∧ Serves content t ∧ t.past = s.past := by
  have hkept := kept_of_reach h
  have hre := hkept.stage
  rw [hs] at hre
  obtain ⟨q, hq⟩ : ∃ q, s.queue = reopened q := ⟨s.queue, hre⟩
  have hdb : q.db = true := by
    have := hkept.db
    rwa [hq] at this
  have hstart : ∀ p : Phase, p = (if q.journal.rows = [] then .skipped none
      else .replaying q.journal.rows) → step content s (.start true) =
        some { s with stage := .replaying, queue := (reopened q).call 0 p } := by
    rintro p rfl
    rw [Lifetimes.step, if_pos hs, queueStep, hq]
    simp [Git.step, reopened, newQueue, hdb]
  by_cases hrows : q.journal.rows = []
  · obtain ⟨t, hlead, ht⟩ := recovers content
      (s := { s with stage := .replaying, queue := (reopened q).call 0 (.skipped none) }) rfl
      (.inr (flush_call ..)) hrows
    exact ⟨t, .head rfl (hstart _ (if_pos hrows).symm) hlead, ht⟩
  · let q₁ := (((reopened q).call 0 (.replaying q.journal.rows)).merge q.journal.rows).setFlush 0
      .start
    let q₂ := { q₁ with pending := .empty }.setFlush 0 (.waiting q₁.pending)
    let q₃ := (q₂.startAdd 0).setFlush 0 (.adding q₁.pending q.disk)
    let q₄ := { q₃ with index := q.disk }.setFlush 0 (.added q₁.pending)
    have hadd : runStep content q₃ 0 (.adding q₁.pending q.disk) (.staged q.disk) = some q₄ :=
      if_pos ⟨le_rfl, le_rfl⟩
    have hlead : ∀ t, Leads content { s with stage := .replaying, queue := q₄ } t →
        Leads content s t := fun t ht => by
      refine .head rfl (hstart _ (if_neg hrows).symm) ?_
      refine .replay (o := .ok) (q := q₁) rfl rfl (flush_call ..) rfl ?_
      refine .replay (o := .ok) (q := q₂) rfl rfl (flush_setFlush ..) rfl ?_
      refine .replay (o := .ok) (q := q₃) rfl rfl (flush_setFlush ..) rfl ?_
      exact .replay (o := .staged q.disk) (q := q₄) rfl rfl (flush_setFlush ..) hadd ht
    by_cases hc : clean content q₄
    · let q₅ := q₄.setFlush 0 (.committed q₁.pending)
      have hstatus : runStep content q₄ 0 (.added q₁.pending) .ok = some q₅ :=
        congrArg (fun p => some (q₄.setFlush 0 p)) (if_pos hc)
      obtain ⟨t, ht, hserves⟩ := committed_serves content
        (s := { s with stage := .replaying, queue := q₅ }) rfl (flush_setFlush ..) rfl hdb
      exact ⟨t, hlead t (.replay rfl rfl (flush_setFlush ..) hstatus ht), hserves⟩
    · let q₅ := q₄.setFlush 0 (.dirty q₁.pending)
      let q₆ := { q₅ with head := q₅.index }.setFlush 0 (.committed q₁.pending)
      have hstatus : runStep content q₄ 0 (.added q₁.pending) .ok = some q₅ :=
        congrArg (fun p => some (q₄.setFlush 0 p)) (if_neg hc)
      have hcommit : runStep content q₅ 0 (.dirty q₁.pending) .ok = some q₆ := rfl
      obtain ⟨t, ht, hserves⟩ := committed_serves content
        (s := { s with stage := .replaying, queue := q₆ }) rfl (flush_setFlush ..) rfl hdb
      exact ⟨t, hlead t (.replay rfl rfl (flush_setFlush ..) hstatus
        (.replay rfl rfl (flush_setFlush ..) hcommit ht)), hserves⟩

theorem start_serves_killed : ∃ t, Serves id t ∧ t.past.length = 1 := by
  obtain ⟨s, h, hs⟩ := Machine.Reach.run_any (M := machine id) (lostRow.take 8 ++ [.crash])
    (.init unborn_init) (p := fun s => s.stage = .down ∧ s.past.length = 1) (by decide +kernel)
  simp only [decide_eq_true_eq] at hs
  obtain ⟨t, -, ht, hpast⟩ := start_serves id s h hs.1
  exact ⟨t, ht, by rw [hpast, hs.2]⟩

end Kept

end Mdock.Git.Lifetimes
