import Mathlib.Logic.Function.Basic
import Mdock.Go.Strings
import Mdock.Lib.Keyed
import Mdock.Lib.Run

/-! `git.Queue` of one vault: its map of pending changes, its debounce timer, the rows it
keeps in the database, and any number of callers. A step is one section under a mutex, one
SQL statement or one end of a git command; the work tree, the index and `HEAD` are numbers
of changes, `content n` is what the tree holds after `n` of them. -/
namespace Mdock.Git
open Mdock.Go Mdock.Lib

structure Task where
  source : Bytes
  message : Bytes
  paths : List Bytes
  deriving DecidableEq

/-- The keys a task gets in `pending`; a task without paths stands under the empty one. -/
def Task.keys (task : Task) : List Bytes := if task.paths = [] then [[]] else task.paths

/-- The paths a task gets rows for. -/
def Task.persisted (task : Task) : List Bytes := task.paths.filter (· ≠ [])

def pathKey (e : Bytes × Bytes) : Bytes := e.1

/-- Paths and their sources: the map `pending`, and the rows of `git_queue_pending`. -/
abbrev Sources := Keyed pathKey

/-- The git commands of a flush. -/
inductive Command
  | add | status | commit
  deriving DecidableEq

inductive Err
  | query | clear | exclusive
  | git (c : Command)
  deriving DecidableEq

/-- How far a call of `flush` has come, and what it goes on with: `adding` also knows the
change the work tree was at when `git add` started. `skipped` is a `ReplayPending` that
returned before it flushed. -/
inductive Phase
  | idle
  | replaying (items : List (Bytes × Bytes))
  | skipped (e : Option Err)
  | start
  | waiting (snapshot : Sources)
  | adding (snapshot : Sources) (disk : Nat)
  | added (snapshot : Sources)
  | dirty (snapshot : Sources)
  | committed (snapshot : Sources)
  | failed (snapshot : Sources) (c : Command)
  | ending (snapshot : Sources) (e : Option Err)
  | done (e : Option Err)

/-- An `Enqueue` that holds `mu`: the paths it has still to write rows for. -/
structure Enqueuing where
  task : Task
  todo : List Bytes

inductive Runner
  | flush (f : Nat)
  | exclusive
  deriving DecidableEq

/-- An `Enqueue` that returned nil, the change the work tree was at, and the rows written. -/
structure Ack where
  task : Task
  disk : Nat
  inserted : Nat

/-- The last four fields only record what has happened: the tasks acknowledged, the rows
written, and how many tasks were acknowledged when a call began and when its `git add` did. -/
structure State where
  db : Bool
  pending : Sources
  armed : Bool
  closed : Bool
  lastErr : Option Err
  mu : Option Enqueuing
  runMu : Option Runner
  journal : Sources
  disk : Nat
  index : Nat
  head : Nat
  flush : Nat → Phase
  acked : List Ack
  inserted : List (Bytes × Bytes)
  began : Nat → Nat
  since : Nat → Nat

namespace State

def setFlush (s : State) (f : Nat) (p : Phase) : State :=
  { s with flush := Function.update s.flush f p }

/-- A caller enters `flush` or `ReplayPending`. -/
def call (s : State) (f : Nat) (p : Phase) : State :=
  { s.setFlush f p with began := Function.update s.began f s.acked.length }

/-- `armTimerLocked`. -/
def armTimerLocked (s : State) : State :=
  { s with armed := if s.closed then s.armed else true }

/-- The first half of `Enqueue`. -/
def enqueue (s : State) (task : Task) : State :=
  { s with
    pending := (task.keys.map fun path => (path, task.source)).foldl Keyed.upsert s.pending
    mu := some ⟨task, if s.db then task.persisted else []⟩ }

/-- `persistPending`. -/
def persistPending (s : State) (task : Task) (path : Bytes) (todo : List Bytes) : State :=
  { s with
    journal := s.journal.upsert (path, task.source)
    inserted := s.inserted ++ [(path, task.source)]
    mu := some ⟨task, todo⟩ }

/-- `Enqueue` returns nil. -/
def acknowledge (s : State) (task : Task) : State :=
  { s.armTimerLocked with
    mu := none
    acked := s.acked ++ [⟨task, s.disk, s.inserted.length⟩] }

/-- `ReplayPending` puts its rows into `pending`. -/
def merge (s : State) (items : List (Bytes × Bytes)) : State :=
  { s with pending := (items.filter fun e => e.1 ≠ []).foldl Keyed.upsert s.pending }

/-- `git add` starts under `runMu`. -/
def startAdd (s : State) (f : Nat) : State :=
  { s with
    runMu := some (.flush f)
    since := Function.update s.since f s.acked.length }

theorem startAdd_since (s : State) (f : Nat) : (s.startAdd f).since f = s.acked.length :=
  Function.update_self ..

/-- `restorePending`. -/
def restorePending (s : State) (snapshot : Sources) : State :=
  let pending := s.pending.fill snapshot.rows
  { s with
    pending := pending
    armed := if pending.rows = [] then s.armed else s.armTimerLocked.armed }

/-- `setLastErr`, and the release of `runMu`. -/
def leave (s : State) (e : Option Err) : State := { s with lastErr := e, runMu := none }

end State

/-- What the database or git answers; a `git add` that succeeds has staged the tree as it
was at some change between its start and its end. -/
inductive Outcome
  | ok
  | failed
  | staged (n : Nat)
  deriving DecidableEq

inductive Act
  | write
  | enqueue (task : Task)
  | persist (ok : Bool)
  | acknowledge
  | fire (f : Nat)
  | flush (f : Nat)
  | close (f : Nat)
  | replay (f : Nat) (ok : Bool)
  | run (f : Nat) (o : Outcome)
  | runExclusive
  | exclusiveDone (ok : Bool)

variable {κ : Type*} [DecidableEq κ] (content : Nat → κ)

/-- `git status` prints nothing. -/
def clean (s : State) : Prop :=
  content s.disk = content s.index ∧ content s.index = content s.head

instance (s : State) : Decidable (clean content s) := inferInstanceAs (Decidable (_ ∧ _))

/-- The next step of a call of `ReplayPending` or `flush`. -/
def runStep (s : State) (f : Nat) : Phase → Outcome → Option State
  | .replaying items, .ok => if s.mu.isNone then some ((s.merge items).setFlush f .start) else none
  | .start, .ok =>
    if s.mu.isNone then
      some ({ s with pending := .empty }.setFlush f (.waiting s.pending))
    else none
  | .waiting snap, .ok =>
    if s.runMu.isNone then some ((s.startAdd f).setFlush f (.adding snap s.disk)) else none
  | .adding snap disk, .staged n =>
    if disk ≤ n ∧ n ≤ s.disk then some ({ s with index := n }.setFlush f (.added snap))
    else none
  | .adding snap _, .failed => some (s.setFlush f (.failed snap .add))
  | .added snap, .ok =>
    some (s.setFlush f (if clean content s then .committed snap else .dirty snap))
  | .added snap, .failed => some (s.setFlush f (.failed snap .status))
  | .dirty snap, .ok => some ({ s with head := s.index }.setFlush f (.committed snap))
  | .dirty snap, .failed => some (s.setFlush f (.failed snap .commit))
  | .committed snap, .ok =>
    if s.db then some ({ s with journal := .empty }.setFlush f (.ending snap none))
    else some (s.setFlush f (.ending snap none))
  | .committed snap, .failed =>
    if s.db then some (s.setFlush f (.ending snap (some .clear))) else none
  | .failed snap c, .ok =>
    if s.mu.isNone then some ((s.restorePending snap).setFlush f (.ending snap (some (.git c))))
    else none
  | .ending _ e, .ok => if s.mu.isNone then some ((s.leave e).setFlush f (.done e)) else none
  | _, _ => none

def step (s : State) : Act → Option State
  | .write => some { s with disk := s.disk + 1 }
  | .enqueue task =>
    if task.source = [] ∨ task.message = [] then some s
    else
      match s.mu with
      | some _ => none
      | none => if s.closed then some s else some (s.enqueue task)
  | .persist ok =>
    match s.mu with
    | some ⟨task, path :: todo⟩ =>
      some (if ok then s.persistPending task path todo else { s with mu := none })
    | _ => none
  | .acknowledge =>
    match s.mu with
    | some ⟨task, []⟩ => some (s.acknowledge task)
    | _ => none
  | .fire f =>
    match s.armed, s.flush f with
    | true, .idle => some ({ s with armed := false }.call f .start)
    | _, _ => none
  | .flush f =>
    match s.flush f with
    | .idle => some (s.call f .start)
    | _ => none
  | .close f =>
    match s.mu, s.flush f with
    | none, .idle => some ({ s with closed := true, armed := false }.call f .start)
    | _, _ => none
  | .replay f ok =>
    match s.flush f with
    | .idle => some (s.call f (
        if s.db = false then .skipped none
        else if ok = false then .skipped (some .query)
        else if s.journal.rows = [] then .skipped none else .replaying s.journal.rows))
    | _ => none
  | .run f o => runStep content s f (s.flush f) o
  | .runExclusive => if s.runMu.isNone then some { s with runMu := some .exclusive } else none
  | .exclusiveDone ok =>
    match s.runMu, s.mu with
    | some .exclusive, none => some (s.leave (if ok then none else some .exclusive))
    | _, _ => none

/-- `NewQueue` over any rows and any repository. -/
def machine : Machine State Act where
  init s := s.pending = .empty ∧ s.armed = false ∧ s.closed = false ∧ s.mu = none ∧
    s.runMu = none ∧ s.index ≤ s.disk ∧ (∀ f, s.flush f = .idle) ∧
    s.acked = [] ∧ s.inserted = [] ∧ (∀ f, s.began f = 0) ∧ ∀ f, s.since f = 0
  step := step content

def newQueue : State where
  db := true
  pending := .empty
  armed := false
  closed := false
  lastErr := none
  mu := none
  runMu := none
  journal := .empty
  disk := 0
  index := 0
  head := 0
  flush _ := .idle
  acked := []
  inserted := []
  began _ := 0
  since _ := 0

theorem newQueue_init : (machine content).init newQueue := by
  simp [machine, newQueue]

def update (path : String) : Task := ⟨utf8 "web", utf8 "web update", [utf8 path]⟩

/-- The git commands of the call have all succeeded. -/
def Phase.landed : Phase → Prop
  | .committed _ | .ending _ none | .ending _ (some .clear) | .done none | .done (some .clear) =>
    True
  | _ => False

/-- Returning changes nothing about it. -/
theorem Phase.landed_done (snap : Sources) (e : Option Err) :
    (Phase.done e).landed ↔ (Phase.ending snap e).landed := by
  cases e with
  | none => rfl
  | some e => cases e <;> rfl

/-- A flush that succeeded started its `git add` after the `i`-th task was acknowledged. -/
def State.covered (s : State) (i : Nat) : Prop := ∃ f, (s.flush f).landed ∧ i < s.since f

/-! ### What a step can do -/

/-- The steps of a call of `ReplayPending` or `flush`, by the line it stands at. -/
inductive Ran (s : State) (f : Nat) : Outcome → State → Prop
  | merge {items : List (Bytes × Bytes)} (hf : s.flush f = .replaying items)
      (hmu : s.mu = none) : Ran s f .ok ((s.merge items).setFlush f .start)
  | snapshot (hf : s.flush f = .start) (hmu : s.mu = none) :
      Ran s f .ok ({ s with pending := .empty }.setFlush f (.waiting s.pending))
  | startAdd {snap : Sources} (hf : s.flush f = .waiting snap) (hrun : s.runMu = none) :
      Ran s f .ok ((s.startAdd f).setFlush f (.adding snap s.disk))
  | added {snap : Sources} {disk n : Nat} (hf : s.flush f = .adding snap disk) (hn : disk ≤ n)
      (hd : n ≤ s.disk) : Ran s f (.staged n) ({ s with index := n }.setFlush f (.added snap))
  | clean {snap : Sources} (hf : s.flush f = .added snap) (hc : clean content s) :
      Ran s f .ok (s.setFlush f (.committed snap))
  | dirty {snap : Sources} (hf : s.flush f = .added snap) :
      Ran s f .ok (s.setFlush f (.dirty snap))
  | commit {snap : Sources} (hf : s.flush f = .dirty snap) :
      Ran s f .ok ({ s with head := s.index }.setFlush f (.committed snap))
  | fail {snap : Sources} {c : Command} (hf : (∃ disk, s.flush f = .adding snap disk) ∨
      s.flush f = .added snap ∨ s.flush f = .dirty snap) :
      Ran s f .failed (s.setFlush f (.failed snap c))
  | clear {snap : Sources} (hf : s.flush f = .committed snap) (hdb : s.db = true) :
      Ran s f .ok ({ s with journal := .empty }.setFlush f (.ending snap none))
  | noRows {snap : Sources} (hf : s.flush f = .committed snap) (hdb : s.db = false) :
      Ran s f .ok (s.setFlush f (.ending snap none))
  | clearFail {snap : Sources} (hf : s.flush f = .committed snap) (hdb : s.db = true) :
      Ran s f .failed (s.setFlush f (.ending snap (some .clear)))
  | restore {snap : Sources} {c : Command} (hf : s.flush f = .failed snap c)
      (hmu : s.mu = none) :
      Ran s f .ok ((s.restorePending snap).setFlush f (.ending snap (some (.git c))))
  | leave {snap : Sources} {e : Option Err} (hf : s.flush f = .ending snap e)
      (hmu : s.mu = none) : Ran s f .ok ((s.leave e).setFlush f (.done e))

/-- A call of `ReplayPending` that has just queried. -/
def Phase.queried : Phase → Prop
  | .skipped _ | .replaying _ => True
  | _ => False

inductive Step (s : State) : Act → State → Prop
  | write : Step s .write { s with disk := s.disk + 1 }
  | reject {task : Task} : Step s (.enqueue task) s
  | enqueue {task : Task} (hmu : s.mu = none) (hc : s.closed = false) :
      Step s (.enqueue task) (s.enqueue task)
  | persist {task : Task} {path : Bytes} {todo : List Bytes}
      (hmu : s.mu = some ⟨task, path :: todo⟩) :
      Step s (.persist true) (s.persistPending task path todo)
  | persistFail {task : Task} {path : Bytes} {todo : List Bytes}
      (hmu : s.mu = some ⟨task, path :: todo⟩) : Step s (.persist false) { s with mu := none }
  | acknowledge {task : Task} (hmu : s.mu = some ⟨task, []⟩) :
      Step s .acknowledge (s.acknowledge task)
  | fire {f : Nat} (ha : s.armed = true) (hf : s.flush f = .idle) :
      Step s (.fire f) ({ s with armed := false }.call f .start)
  | flush {f : Nat} (hf : s.flush f = .idle) : Step s (.flush f) (s.call f .start)
  | close {f : Nat} (hmu : s.mu = none) (hf : s.flush f = .idle) :
      Step s (.close f) ({ s with closed := true, armed := false }.call f .start)
  | replay {f : Nat} {ok : Bool} {p : Phase} (hf : s.flush f = .idle) (hp : p.queried) :
      Step s (.replay f ok) (s.call f p)
  | run {f : Nat} {o : Outcome} {t : State} (h : Ran content s f o t) : Step s (.run f o) t
  | runExclusive (hrun : s.runMu = none) :
      Step s .runExclusive { s with runMu := some .exclusive }
  | exclusiveDone {ok : Bool} {e : Option Err} (hrun : s.runMu = some .exclusive)
      (hmu : s.mu = none) : Step s (.exclusiveDone ok) (s.leave e)

variable {content}

theorem ran_of_runStep {s t : State} {f : Nat} {p : Phase} {o : Outcome} (hf : s.flush f = p)
    (h : runStep content s f p o = some t) : Ran content s f o t := by
  unfold runStep at h
  split at h
  · simp only [Option.ite_none_right_eq_some, Option.isNone_iff_eq_none, Option.some.injEq] at h
    obtain ⟨hmu, rfl⟩ := h
    exact .merge hf hmu
  · simp only [Option.ite_none_right_eq_some, Option.isNone_iff_eq_none, Option.some.injEq] at h
    obtain ⟨hmu, rfl⟩ := h
    exact .snapshot hf hmu
  · simp only [Option.ite_none_right_eq_some, Option.isNone_iff_eq_none, Option.some.injEq] at h
    obtain ⟨hrun, rfl⟩ := h
    exact .startAdd hf hrun
  · simp only [Option.ite_none_right_eq_some, Option.some.injEq] at h
    obtain ⟨⟨hn, hd⟩, rfl⟩ := h
    exact .added hf hn hd
  · cases h
    exact .fail (.inl ⟨_, hf⟩)
  · cases h
    split
    · rename_i hc
      exact .clean hf hc
    · exact .dirty hf
  · cases h
    exact .fail (.inr (.inl hf))
  · cases h
    exact .commit hf
  · cases h
    exact .fail (.inr (.inr hf))
  · split at h
    · rename_i hdb
      cases h
      exact .clear hf hdb
    · rename_i hdb
      cases h
      exact .noRows hf (by simpa using hdb)
  · simp only [Option.ite_none_right_eq_some, Option.some.injEq] at h
    obtain ⟨hdb, rfl⟩ := h
    exact .clearFail hf hdb
  · simp only [Option.ite_none_right_eq_some, Option.isNone_iff_eq_none, Option.some.injEq] at h
    obtain ⟨hmu, rfl⟩ := h
    exact .restore hf hmu
  · simp only [Option.ite_none_right_eq_some, Option.isNone_iff_eq_none, Option.some.injEq] at h
    obtain ⟨hmu, rfl⟩ := h
    exact .leave hf hmu
  · cases h

theorem step_cases {s t : State} {a : Act} (h : step content s a = some t) :
    Step content s a t := by
  cases a with
  | write =>
    cases h
    exact .write
  | enqueue task =>
    simp only [step] at h
    split at h
    · cases h
      exact .reject
    · split at h
      · cases h
      · rename_i hmu
        split at h
        · cases h
          exact .reject
        · rename_i hc
          cases h
          exact .enqueue hmu (by simpa using hc)
  | persist ok =>
    simp only [step] at h
    split at h
    · rename_i hmu
      cases h
      cases ok with
      | true => exact .persist hmu
      | false => exact .persistFail hmu
    · cases h
  | acknowledge =>
    simp only [step] at h
    split at h
    · rename_i hmu
      cases h
      exact .acknowledge hmu
    · cases h
  | fire f =>
    simp only [step] at h
    split at h
    · rename_i ha hf
      cases h
      exact .fire ha hf
    · cases h
  | flush f =>
    simp only [step] at h
    split at h
    · rename_i hf
      cases h
      exact .flush hf
    · cases h
  | close f =>
    simp only [step] at h
    split at h
    · rename_i hmu hf
      cases h
      exact .close hmu hf
    · cases h
  | replay f ok =>
    simp only [step] at h
    split at h
    · rename_i hf
      cases h
      refine .replay hf ?_
      split
      · trivial
      · split
        · trivial
        · split <;> trivial
    · cases h
  | run f o => exact .run (ran_of_runStep rfl h)
  | runExclusive =>
    simp only [step, Option.ite_none_right_eq_some, Option.isNone_iff_eq_none,
      Option.some.injEq] at h
    obtain ⟨hrun, rfl⟩ := h
    exact .runExclusive hrun
  | exclusiveDone ok =>
    simp only [step] at h
    split at h
    · rename_i hrun hmu
      cases h
      exact .exclusiveDone hrun hmu
    · cases h

end Mdock.Git
