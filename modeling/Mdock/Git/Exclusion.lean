import Mdock.Git.Commit

/-! The git commands that run on one vault's repository. Flushes run `git add`,
`git status` and `git commit` under the queue's `runMu`; `PushVaultRemote`,
`CreateSnapshot` and `RestoreFileFromCommit` of the app service run theirs beside them.
What a checkout stages is not followed, and its file lock is left out. -/
namespace Mdock.Git.Exclusion
open Mdock.Go Mdock.Lib

def validCommitHash (hash : Bytes) : Bool :=
  7 ≤ hash.length ∧ hash.length ≤ 40 ∧ (runes hash).all fun c =>
    ('0' ≤ c ∧ c ≤ '9') ∨ ('a' ≤ c ∧ c ≤ 'f') ∨ ('A' ≤ c ∧ c ≤ 'F')

/-- `RestoreFile` goes on to `git checkout`. -/
def restorable (hash rel : Bytes) : Bool := validCommitHash hash ∧ rel ≠ [] ∧ rel ≠ dot

/-- How far a call of an operation of the service has come; `f` is its call of `Flush`. -/
inductive Call
  | idle
  | pushFlush (f : Nat)
  | push
  | snapshotFlush (f : Nat)
  | tag
  | checkout (rel : Bytes)
  | restored (rel : Bytes)
  | done

structure State where
  queue : Git.State
  call : Nat → Call

def State.setCall (s : State) (i : Nat) (p : Call) : State :=
  { s with call := Function.update s.call i p }

theorem State.setCall_call_self (s : State) (i : Nat) (p : Call) : (s.setCall i p).call i = p :=
  Function.update_self ..

theorem State.setCall_call_of_ne (s : State) {i j : Nat} (h : j ≠ i) (p : Call) :
    (s.setCall i p).call j = s.call j :=
  Function.update_of_ne h ..

inductive Act
  | queue (a : Git.Act)
  | pushVaultRemote (i f : Nat)
  | createSnapshot (i f : Nat)
  | flushed (i : Nat)
  | pushed (i : Nat) (ok : Bool)
  | tagged (i : Nat)
  | restoreFileFromCommit (i : Nat) (hash rel : Bytes)
  | checkedOut (i : Nat) (ok : Bool)
  | enqueueVaultChange (i : Nat)

variable {κ : Type*} [DecidableEq κ] (content : Nat → κ)

/-- A step of the queue that a call makes, after which it stands at `p`. -/
def callQueue (s : State) (i : Nat) (a : Git.Act) (p : Call) : Option State :=
  (Git.step content s.queue a).map fun q => ⟨q, Function.update s.call i p⟩

def step (s : State) : Act → Option State
  | .queue .runExclusive | .queue (.exclusiveDone _) => none
  | .queue a => (Git.step content s.queue a).map fun q => { s with queue := q }
  | .pushVaultRemote i f =>
    match s.call i with
    | .idle => callQueue content s i (.flush f) (.pushFlush f)
    | _ => none
  | .createSnapshot i f =>
    match s.call i with
    | .idle => callQueue content s i (.flush f) (.snapshotFlush f)
    | _ => none
  | .flushed i =>
    match s.call i with
    | .pushFlush f =>
      match s.queue.flush f with
      | .done none => callQueue content s i .runExclusive .push
      | .done (some _) => some (s.setCall i .done)
      | _ => none
    | .snapshotFlush f =>
      match s.queue.flush f with
      | .done none => some (s.setCall i .tag)
      | .done (some _) => some (s.setCall i .done)
      | _ => none
    | _ => none
  | .pushed i ok =>
    match s.call i with
    | .push => callQueue content s i (.exclusiveDone ok) .done
    | _ => none
  | .tagged i =>
    match s.call i with
    | .tag => some (s.setCall i .done)
    | _ => none
  | .restoreFileFromCommit i hash rel =>
    match s.call i with
    | .idle => some (s.setCall i (if restorable hash rel then .checkout rel else .done))
    | _ => none
  | .checkedOut i ok =>
    match s.call i with
    | .checkout rel => if ok then callQueue content s i .write (.restored rel)
      else some (s.setCall i .done)
    | _ => none
  | .enqueueVaultChange i =>
    match s.call i with
    | .restored rel => callQueue content s i (.enqueue ⟨utf8 "web", utf8 "web update", [rel]⟩) .done
    | _ => none

def machine : Machine State Act where
  init s := (Git.machine content).init s.queue ∧ ∀ i, s.call i = .idle
  step := step content

def newState : State := ⟨newQueue, fun _ => .idle⟩

theorem newState_init : (machine content).init newState := ⟨newQueue_init content, fun _ => rfl⟩

/-! ### Which commands run -/

inductive GitCommand
  | flush (c : Command)
  | push
  | tag
  | checkout
  deriving DecidableEq

/-- The command writes the index or `HEAD`. -/
def GitCommand.writes : GitCommand → Bool
  | .flush .add | .flush .commit | .checkout => true
  | .flush .status | .push | .tag => false

inductive Caller
  | flush (f : Nat)
  | call (i : Nat)
  deriving DecidableEq

def flushCommand : Phase → Option GitCommand
  | .adding _ _ => some (.flush .add)
  | .added _ => some (.flush .status)
  | .dirty _ => some (.flush .commit)
  | _ => none

def callCommand : Call → Option GitCommand
  | .push => some .push
  | .tag => some .tag
  | .checkout _ => some .checkout
  | _ => none

def State.running (s : State) : Caller → Option GitCommand
  | .flush f => flushCommand (s.queue.flush f)
  | .call i => callCommand (s.call i)

/-- The caller holds `runMu`; a call of the service does so inside `RunExclusive` only. -/
def State.holds (s : State) : Caller → Prop
  | .flush f => s.queue.runMu = some (.flush f)
  | .call i => s.queue.runMu = some .exclusive ∧ callCommand (s.call i) = some .push

def State.writing (s : State) (x : Caller) : Bool := (s.running x).any GitCommand.writes

/-- No two commands that write the index or `HEAD` run at the same time. -/
def Exclusive (s : State) : Prop := ∀ x y, s.writing x → s.writing y → x = y

/-- Every command that writes the index or `HEAD` runs while its caller holds `runMu`. -/
def Held (s : State) : Prop := ∀ x, s.writing x → s.holds x

/-- The step starts no checkout. -/
def noCheckout (_ : State) : Act → Prop
  | .restoreFileFromCommit _ hash rel => restorable hash rel = false
  | _ => True

/-- The flush goes on to `git add` or to `git commit`. -/
def startsWriting (q : Git.State) (f : Nat) : Prop :=
  match q.flush f with
  | .waiting _ => True
  | .added _ => ¬ clean content q
  | _ => False

/-- A checkout starts only while no flush adds or commits and no other checkout runs, and a
flush goes on to add or to commit only while no checkout runs. -/
def checkoutsApart (s : State) : Act → Prop
  | .restoreFileFromCommit _ hash rel => restorable hash rel → ∀ x, s.writing x = false
  | .queue (.run f .ok) => startsWriting content s.queue f → ∀ i, s.writing (.call i) = false
  | _ => True

/-! ### What a step can do -/

/-- The act is a step of a flush. -/
def runs : Git.Act → Prop
  | .run _ _ => True
  | _ => False

inductive Step (s : State) : Act → State → Prop
  | queue {a : Git.Act} {q : Git.State} (hq : Git.step content s.queue a = some q) :
      Step s (.queue a) { s with queue := q }
  | call {a : Act} {i : Nat} {p : Call} (hp : callCommand p ≠ some .checkout) :
      Step s a (s.setCall i p)
  | callQueue {a : Act} {b : Git.Act} {i : Nat} {p : Call} {q : Git.State}
      (hp : callCommand p ≠ some .checkout) (hb : ¬ runs b)
      (hq : Git.step content s.queue b = some q) : Step s a ⟨q, Function.update s.call i p⟩
  | checkout {i : Nat} {hash rel : Bytes} (hi : s.call i = .idle)
      (hr : restorable hash rel = true) :
      Step s (.restoreFileFromCommit i hash rel) (s.setCall i (.checkout rel))

variable {content} {s t : State} {a : Act} {q : Git.State}

theorem step_of_callQueue {i : Nat} {b : Git.Act} {p : Call}
    (hp : callCommand p ≠ some .checkout) (hb : ¬ runs b)
    (h : callQueue content s i b p = some t) : Step content s a t := by
  obtain ⟨q, hq, rfl⟩ := Option.map_eq_some_iff.mp h
  exact .callQueue hp hb hq

theorem step_cases (h : step content s a = some t) : Step content s a t := by
  cases a with
  | queue a =>
    have hmap : (Git.step content s.queue a).map (fun q => { s with queue := q }) = some t := by
      cases a with
      | runExclusive | exclusiveDone => cases h
      | _ => exact h
    obtain ⟨q, hq, rfl⟩ := Option.map_eq_some_iff.mp hmap
    exact .queue hq
  | pushVaultRemote i f | createSnapshot i f =>
    simp only [step] at h
    split at h
    · exact step_of_callQueue (by simp [callCommand]) id h
    · cases h
  | flushed i =>
    simp only [step] at h
    split at h
    · split at h
      · exact step_of_callQueue (by simp [callCommand]) id h
      · cases h
        exact .call (by simp [callCommand])
      · cases h
    · split at h
      · cases h
        exact .call (by simp [callCommand])
      · cases h
        exact .call (by simp [callCommand])
      · cases h
    · cases h
  | pushed i ok =>
    simp only [step] at h
    split at h
    · exact step_of_callQueue (by simp [callCommand]) id h
    · cases h
  | tagged i =>
    simp only [step] at h
    split at h
    · cases h
      exact .call (by simp [callCommand])
    · cases h
  | restoreFileFromCommit i hash rel =>
    simp only [step] at h
    split at h
    · rename_i hi
      cases h
      split
      · rename_i hr
        exact .checkout hi hr
      · exact .call (by simp [callCommand])
    · cases h
  | checkedOut i ok =>
    simp only [step] at h
    split at h
    · split at h
      · exact step_of_callQueue (by simp [callCommand]) id h
      · cases h
        exact .call (by simp [callCommand])
    · cases h
  | enqueueVaultChange i =>
    simp only [step] at h
    split at h
    · exact step_of_callQueue (by simp [callCommand]) id h
    · cases h

/-! ### The queue of a run -/

theorem queue_reach (h : (machine content).Reach s) : (Git.machine content).Reach s.queue := by
  refine h.invariant (fun s (hs : (machine content).init s) => Machine.ReachVia.init hs.1)
    fun s a t (hs : (Git.machine content).Reach s.queue) ht => ?_
  cases step_cases ht with
  | queue hq => exact hs.step trivial hq
  | callQueue _ _ hq => exact hs.step trivial hq
  | call | checkout => exact hs

theorem flushCommand_working {p : Phase} {c : GitCommand} (h : flushCommand p = some c) :
    p.working := by
  cases p <;> simp_all [flushCommand, Phase.working]

theorem writing_working {f : Nat} (h : s.writing (.flush f)) : (s.queue.flush f).working := by
  obtain ⟨c, hc, -⟩ := (Option.any_eq_true _ _).mp h
  exact flushCommand_working hc

theorem writing_call {i : Nat} : s.writing (.call i) ↔ callCommand (s.call i) = some .checkout := by
  rw [State.writing, State.running]
  cases s.call i <;> simp [callCommand, GitCommand.writes]

/-- Flushes never write beside each other, and each holds `runMu`. -/
theorem flush_held (h : (machine content).Reach s) {f : Nat} (hf : s.writing (.flush f)) :
    s.queue.runMu = some (.flush f) :=
  (tracked_of_reach (queue_reach h)).exclusive f (writing_working hf)

/-! ### Where writing starts -/

theorem ran_other {κ : Type*} {content : Nat → κ} {q r : Git.State} {f g : Nat} {o : Outcome}
    (h : Ran content q f o r) (hg : g ≠ f) : r.flush g = q.flush g := by
  cases h <;> exact Function.update_of_ne hg ..

/-- A flush at this line writes. -/
def writes (p : Phase) : Bool := (flushCommand p).any GitCommand.writes

theorem writes_setFlush (q : Git.State) (f : Nat) (p : Phase) :
    writes ((q.setFlush f p).flush f) = writes p := congrArg writes (Function.update_self ..)

theorem ran_writes {r : Git.State} {f : Nat} {o : Outcome}
    (h : Git.step content q (.run f o) = some r) (hw : writes (r.flush f)) :
    o = .ok ∧ startsWriting content q f := by
  have hr : Ran content q f o r := ran_of_runStep rfl h
  cases hr with
  | startAdd hf => exact ⟨rfl, by simp [startsWriting, hf]⟩
  | dirty hf =>
    refine ⟨rfl, ?_⟩
    simp only [startsWriting, hf]
    intro hc
    simp only [Git.step, hf, runStep, hc, if_true, Option.some.injEq] at h
    rw [← h, writes_setFlush] at hw
    cases hw
  | _ =>
    rw [writes_setFlush] at hw
    cases hw

theorem writes_of_starts {r : Git.State} {f : Nat}
    (h : Git.step content q (.run f .ok) = some r) (hs : startsWriting content q f) :
    writes (r.flush f) := by
  unfold startsWriting at hs
  split at hs
  · rename_i hf
    simp only [Git.step, hf, runStep, Option.ite_none_right_eq_some, Option.some.injEq] at h
    rw [← h.2, writes_setFlush]
    rfl
  · rename_i hf
    simp only [Git.step, hf, runStep, hs, if_false, Option.some.injEq] at h
    rw [← h, writes_setFlush]
    rfl
  · exact hs.elim

theorem step_writes {r : Git.State} {b : Git.Act} {f : Nat}
    (h : Git.step content q b = some r) (hw : writes (r.flush f)) :
    writes (q.flush f) ∨ b = .run f .ok ∧ startsWriting content q f := by
  have hcall : ∀ {g : Nat} {p : Phase}, writes p = false →
      writes (Function.update q.flush g p f) → writes (q.flush f) := by
    intro g p hp hw
    by_cases hg : f = g
    · rw [hg, Function.update_self, hp] at hw
      cases hw
    · rwa [Function.update_of_ne hg] at hw
  cases Git.step_cases h with
  | fire | flush | close => exact .inl (hcall rfl hw)
  | replay _ hp =>
    refine .inl (hcall ?_ hw)
    cases hq : writes _ with
    | false => rfl
    | true =>
      obtain ⟨c, hc, -⟩ := (Option.any_eq_true _ _).mp hq
      exact (hp.not_working (flushCommand_working hc)).elim
  | @run g o _ hr =>
    by_cases hg : f = g
    · subst hg
      obtain ⟨rfl, hs⟩ := ran_writes h hw
      exact .inr ⟨rfl, hs⟩
    · rw [ran_other hr hg] at hw
      exact .inl hw
  | _ => exact .inl hw

/-! ### Every run -/

structure Apart (s : State) : Prop where
  one : ∀ i j, s.writing (.call i) → s.writing (.call j) → i = j
  apart : ∀ f i, s.writing (.flush f) → ¬ s.writing (.call i)

theorem Apart.exclusive (h : Apart s) (hs : (machine content).Reach s) : Exclusive s := by
  intro x y hx hy
  match x, y with
  | .flush f, .flush g =>
    have hrun := flush_held hs hx
    rw [flush_held hs hy] at hrun
    cases hrun
    rfl
  | .flush f, .call i => exact absurd hy (h.apart f i hx)
  | .call i, .flush f => exact absurd hx (h.apart f i hy)
  | .call i, .call j => exact congrArg Caller.call (h.one i j hx hy)

/-- A call that moves on without a checkout adds no writer. -/
theorem writing_of_setCall {i j : Nat} {p : Call} (hp : callCommand p ≠ some .checkout)
    (ht : t.call = Function.update s.call i p) (h : t.writing (.call j)) :
    s.writing (.call j) := by
  rw [writing_call, ht] at h
  rw [writing_call]
  by_cases hj : j = i
  · rw [hj, Function.update_self] at h
    exact absurd h hp
  · rwa [Function.update_of_ne hj] at h

theorem Apart.mono (h : Apart s) (hc : ∀ i, t.writing (.call i) → s.writing (.call i))
    (hf : ∀ f i, t.writing (.flush f) → s.writing (.call i) → s.writing (.flush f)) :
    Apart t where
  one i j hi hj := h.one i j (hc i hi) (hc j hj)
  apart f i hi hj := h.apart f i (hf f i hi (hc i hj)) (hc i hj)

theorem step_apart (h : Apart s) (hg : checkoutsApart content s a)
    (hs : step content s a = some t) : Apart t := by
  cases step_cases hs with
  | @queue b q hq =>
    refine h.mono (fun i => id) fun f i hf hi => ?_
    rcases step_writes hq hf with hf | ⟨rfl, hstart⟩
    · exact hf
    · rw [hg hstart i] at hi
      cases hi
  | call hp => exact h.mono (fun i => writing_of_setCall hp rfl) fun _ _ hf _ => hf
  | callQueue hp hb hq =>
    refine h.mono (fun i => writing_of_setCall hp rfl) fun f i hf _ => ?_
    rcases step_writes hq hf with hf | ⟨rfl, -⟩
    · exact hf
    · exact (hb trivial).elim
  | @checkout i hash rel hi hr =>
    have hnone := hg hr
    have hcall : ∀ j, (s.setCall i (.checkout rel)).writing (.call j) → j = i := by
      intro j hj
      by_contra hne
      rw [writing_call, s.setCall_call_of_ne hne, ← writing_call, hnone] at hj
      cases hj
    refine ⟨fun j k hj hk => (hcall j hj).trans (hcall k hk).symm, fun f j hf _ => ?_⟩
    have hf' : s.writing (.flush f) := hf
    rw [hnone] at hf'
    cases hf'

theorem apart_of_reach (h : (machine content).ReachVia (checkoutsApart content) s) :
    Apart s := by
  refine h.invariant (fun s (hs : (machine content).init s) => ?_)
    fun s a t hs hg ht => step_apart hs hg ht
  have hidle : ∀ i, ¬ s.writing (.call i) := fun i hi => by
    rw [writing_call, hs.2] at hi
    cases hi
  exact ⟨fun i _ hi _ => absurd hi (hidle i), fun _ i _ => hidle i⟩

/-- While no checkout starts, none runs. -/
theorem no_checkout (h : (machine content).ReachVia noCheckout s) (i : Nat) :
    ¬ s.writing (.call i) := by
  refine h.invariant (fun s (hs : (machine content).init s) hi => ?_)
    fun s a t (hs : ¬ s.writing (.call i)) hg ht (hi : t.writing (.call i)) => ?_
  · rw [writing_call, hs.2] at hi
    cases hi
  · cases step_cases ht with
    | queue => exact hs hi
    | call hp | callQueue hp => exact hs (writing_of_setCall hp rfl hi)
    | checkout _ hr =>
      have hg' : restorable _ _ = false := hg
      rw [hr] at hg'
      cases hg'

theorem held_of_noCheckout (h : (machine content).ReachVia noCheckout s) : Held s := by
  intro x hx
  cases x with
  | flush f => exact flush_held h.reach hx
  | call i => exact absurd hx (no_checkout h i)

theorem apart_of_noCheckout (h : (machine content).ReachVia noCheckout s) : Apart s :=
  ⟨fun i _ hi _ => absurd hi (no_checkout h i), fun _ i _ => no_checkout h i⟩

/-- A step that puts a writer beside another breaks the exclusion. -/
theorem not_exclusive (hs : step content s a = some t) (hg : ¬ checkoutsApart content s a) :
    ¬ Exclusive t := by
  intro hx
  unfold checkoutsApart at hg
  split at hg
  · rename_i i hash rel
    push Not at hg
    obtain ⟨hr, x, hw⟩ := hg
    have hw : s.writing x := by simpa using hw
    simp only [step, hr, if_true] at hs
    split at hs
    · rename_i hi
      cases hs
      have hne : x ≠ .call i := by
        rintro rfl
        rw [writing_call, hi] at hw
        cases hw
      refine hne (hx x (.call i) ?_ ?_)
      · cases x with
        | flush f => exact hw
        | call j =>
          have hj : j ≠ i := fun hj => hne (congrArg Caller.call hj)
          rwa [writing_call, s.setCall_call_of_ne hj, ← writing_call]
      · rw [writing_call, s.setCall_call_self]
        rfl
    · cases hs
  · rename_i f
    push Not at hg
    obtain ⟨hstart, i, hw⟩ := hg
    have hw : s.writing (.call i) := by simpa using hw
    obtain ⟨q, hq, rfl⟩ := Option.map_eq_some_iff.mp hs
    cases hx (.flush f) (.call i) (writes_of_starts hq hstart) hw
  · exact hg trivial

theorem not_held (hs : step content s a = some t) (hg : ¬ noCheckout s a) : ¬ Held t := by
  intro hh
  unfold noCheckout at hg
  split at hg
  · rename_i i hash rel
    simp only [step, Bool.not_eq_false] at hs hg
    rw [hg, if_pos rfl] at hs
    split at hs
    · cases hs
      have hw : (s.setCall i (.checkout rel)).writing (.call i) := by
        rw [writing_call, s.setCall_call_self]
        rfl
      have hp := (hh (.call i) hw).2
      rw [s.setCall_call_self] at hp
      cases hp
    · cases hs
  · exact hg trivial

/-- Commands that write the index or `HEAD` exclude each other in the runs that keep checkouts
apart from flushes and from each other, and run under `runMu` in the runs without a checkout; a
step outside breaks the one or the other at once. -/
theorem indexWriters_exclude (content : Nat → κ) :
    (∀ s, (machine content).ReachVia (checkoutsApart content) s → Exclusive s) ∧
    (∀ s, (machine content).ReachVia noCheckout s → Exclusive s ∧ Held s) ∧
    (∀ s a t, step content s a = some t → ¬ checkoutsApart content s a → ¬ Exclusive t) ∧
    ∀ s a t, step content s a = some t → ¬ noCheckout s a → ¬ Held t := by
  refine ⟨fun s h => (apart_of_reach h).exclusive h.reach, fun s h => ⟨?_, ?_⟩,
    fun s a t => not_exclusive, fun s a t => not_held⟩
  · exact (apart_of_noCheckout h).exclusive h.reach
  · exact held_of_noCheckout h

/-- A version of `a.md` is checked out while nothing else runs. -/
theorem indexWriters_exclude_restoring : ∃ s : State, s.writing (.call 0) ∧ Exclusive s := by
  have h₀ : (machine id).ReachVia (checkoutsApart id) newState := .init (newState_init id)
  have hg : checkoutsApart id newState
      (.restoreFileFromCommit 0 (utf8 "0123abc") (utf8 "a.md")) := fun _ x => by cases x <;> rfl
  exact ⟨_, by decide +kernel, (indexWriters_exclude id).1 _ (h₀.step hg rfl)⟩

/-- A change is being added by the flush of the timer when a version of `a.md` is checked out. -/
def overlap : List Act :=
  [.queue (.enqueue (update "a.md")), .queue (.persist true), .queue .acknowledge,
    .queue (.fire 0), .queue (.run 0 .ok), .queue (.run 0 .ok),
    .restoreFileFromCommit 0 (utf8 "0123abc") (utf8 "a.md")]

theorem checkout_overlaps :
    ¬ (∀ s, (machine id).Reach s → Exclusive s) ∧ ¬ ∀ s, (machine id).Reach s → Held s := by
  have hinit : (machine id).Reach newState := .init (newState_init id)
  obtain ⟨s, hs, hp⟩ := hinit.run_any overlap
    (p := fun s => s.writing (.flush 0) && s.writing (.call 0)) (by decide +kernel)
  simp only [Bool.and_eq_true] at hp
  obtain ⟨hf, hc⟩ := hp
  refine ⟨fun h => ?_, fun h => ?_⟩
  · cases h s hs _ _ hf hc
  · have hrun := h s hs _ hf
    have hpush := (h s hs _ hc).1
    rw [show s.queue.runMu = some (.flush 0) from hrun] at hpush
    cases hpush

end Mdock.Git.Exclusion
