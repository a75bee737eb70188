import Mdock.Git.Queue

/-! The rows of `git_queue_pending`. A flush that committed deletes every row of its vault;
what was acknowledged since its `git add`, and the rows of an `Enqueue` that is still
writing, go with the rest. -/
namespace Mdock.Git
open Mdock.Go Mdock.Lib
variable {κ : Type*} {content : Nat → κ} {s t : State} {f i : Nat} {p : Phase}

/-- The row of a path carries the source of the task, or of one that wrote it later. -/
def State.hasRow (s : State) (a : Ack) (path : Bytes) : Prop :=
  ∃ source, s.journal.get? path = some (path, source) ∧
    (source = a.task.source ∨ (path, source) ∈ s.inserted.drop a.inserted)

/-- Acknowledged paths that no flush covers have their rows. -/
def JournalKept (s : State) : Prop :=
  s.db = true → ∀ i a, s.acked[i]? = some a → ∀ path ∈ a.task.persisted,
    s.covered i ∨ s.hasRow a path

/-- The step is the DELETE of a flush. -/
def clears (s : State) : Act → Bool
  | .run f .ok =>
    match s.flush f with
    | .committed _ => s.db
    | _ => false
  | _ => false

/-- Rows are deleted only when every acknowledged task with paths is covered and no
`Enqueue` has written a row it still counts on. -/
def clearGuard (s : State) (a : Act) : Prop :=
  clears s a = true →
    (∀ i b, s.acked[i]? = some b → b.task.persisted ≠ [] → s.covered i) ∧
    ∀ e, s.mu = some e → ∀ path ∈ e.task.persisted, path ∈ e.todo

/-! ### Tasks stay covered -/

theorem State.covered.update (h : s.covered i) (hf : t.flush = Function.update s.flush f p)
    (hp : (s.flush f).landed → p.landed)
    (hs : ∀ g, (s.flush g).landed → t.since g = s.since g) : t.covered i := by
  obtain ⟨g, hg, hi⟩ := h
  refine ⟨g, ?_, by rwa [hs g hg]⟩
  rw [hf]
  by_cases hgf : g = f
  · subst hgf
    rw [Function.update_self]
    exact hp hg
  · rwa [Function.update_of_ne hgf]

theorem ran_covered {o : Outcome} (hr : Ran content s f o t) (h : s.covered i) : t.covered i := by
  cases hr with
  | merge hf | snapshot hf | added hf | clean hf | dirty hf | commit hf | clear hf | noRows hf
  | clearFail hf | restore hf =>
    exact h.update rfl (by simp [hf, Phase.landed]) fun _ _ => rfl
  | fail hf =>
    refine h.update rfl ?_ fun _ _ => rfl
    obtain ⟨disk, hf⟩ | hf | hf := hf <;> simp [hf, Phase.landed]
  | startAdd hf =>
    refine h.update rfl (by simp [hf, Phase.landed]) fun g hg => ?_
    have hgf : g ≠ f := by
      rintro rfl
      simp [hf, Phase.landed] at hg
    exact Function.update_of_ne hgf ..
  | @leave snap e hf =>
    refine h.update rfl ?_ fun _ _ => rfl
    rw [hf]
    exact (Phase.landed_done snap e).mpr

theorem step_covered {a : Act} (hs : Step content s a t) (h : s.covered i) : t.covered i := by
  cases hs with
  | fire _ hf | flush hf | close _ hf | replay hf =>
    exact h.update rfl (by simp [hf, Phase.landed]) fun _ _ => rfl
  | run hr => exact ran_covered hr h
  | write | reject | enqueue | persist | persistFail | acknowledge | runExclusive
  | exclusiveDone => exact h

/-! ### The rows of acknowledged tasks -/

/-- What `Enqueue` has written stays while it holds `mu`, and so do the rows of tasks that
no flush covers. -/
structure Journaled (s : State) : Prop where
  writing : ∀ e, s.mu = some e → ∀ path ∈ e.task.persisted, path ∉ e.todo →
    s.journal.get? path = some (path, e.task.source)
  behind : ∀ a ∈ s.acked, a.inserted ≤ s.inserted.length
  kept : ∀ i a, s.acked[i]? = some a → ∀ path ∈ a.task.persisted,
    s.covered i ∨ s.hasRow a path

theorem Journaled.frame (h : Journaled s) (hm : t.mu = s.mu) (hj : t.journal = s.journal)
    (ha : t.acked = s.acked) (hi : t.inserted = s.inserted)
    (hc : ∀ i, s.covered i → t.covered i) : Journaled t where
  writing := by
    rw [hm, hj]
    exact h.writing
  behind := by
    rw [ha, hi]
    exact h.behind
  kept i a hia path hp := by
    rw [ha] at hia
    refine (h.kept i a hia path hp).imp (hc i) ?_
    rintro ⟨source, hget, hs⟩
    exact ⟨source, hj ▸ hget, hi ▸ hs⟩

/-- Without an `Enqueue` between its rows, only what is acknowledged counts. -/
theorem Journaled.release (h : Journaled s) : Journaled { s with mu := none } where
  writing _ he := nomatch he
  behind := h.behind
  kept := h.kept

theorem enqueue_journaled (h : Journaled s) (hdb : s.db = true) (task : Task) :
    Journaled (s.enqueue task) where
  writing e he path hp hn := by
    simp only [State.enqueue, hdb, if_true, Option.some.injEq] at he
    subst he
    exact absurd hp hn
  behind := h.behind
  kept := h.kept

theorem persistPending_journaled (h : Journaled s) {task : Task} {path : Bytes}
    {todo : List Bytes} (hm : s.mu = some ⟨task, path :: todo⟩) :
    Journaled (s.persistPending task path todo) where
  writing e he path' hp hn := by
    cases he
    by_cases hpp : path = path'
    · subst hpp
      exact Keyed.get?_upsert_self ..
    · have hrow := h.writing _ hm path' hp (by simp [Ne.symm hpp, hn])
      rw [← hrow]
      exact (Keyed.get?_upsert ..).trans (if_neg hpp)
  behind a ha := by
    have hle := h.behind a ha
    simp only [State.persistPending, List.length_append]
    omega
  kept i a hia path' hp := by
    rcases h.kept i a hia path' hp with hc | ⟨source, hget, hs⟩
    · exact .inl hc
    · right
      by_cases hpp : path = path'
      · subst hpp
        -- the row is overwritten by a task that came later
        refine ⟨task.source, Keyed.get?_upsert_self .., .inr ?_⟩
        have hle := h.behind a (List.mem_of_getElem? hia)
        simp [State.persistPending, List.drop_append_of_le_length hle]
      · refine ⟨source, ?_, hs.imp_right fun hd => ?_⟩
        · rw [← hget]
          exact (Keyed.get?_upsert ..).trans (if_neg hpp)
        · have hle := h.behind a (List.mem_of_getElem? hia)
          rw [State.persistPending, List.drop_append_of_le_length hle]
          exact List.mem_append_left _ hd

theorem acknowledge_journaled (h : Journaled s) {task : Task} (hm : s.mu = some ⟨task, []⟩) :
    Journaled (s.acknowledge task) where
  writing _ he := nomatch he
  behind a ha := by
    rcases List.mem_append.mp ha with ha | ha
    · exact h.behind a ha
    · rw [List.mem_singleton] at ha
      rw [ha]
      exact le_rfl
  kept i a hia path hp := by
    rcases getElem?_concat_cases hia with hia | ⟨-, rfl⟩
    · exact h.kept i a hia path hp
    · exact .inr ⟨task.source, h.writing _ hm path hp (by simp), .inl rfl⟩

theorem clear_journaled (h : Journaled s)
    (hcov : ∀ i a, s.acked[i]? = some a → a.task.persisted ≠ [] → s.covered i)
    (hmu : ∀ e, s.mu = some e → ∀ path ∈ e.task.persisted, path ∈ e.todo) :
    Journaled { s with journal := .empty } where
  writing e he path hp hn := absurd (hmu e he path hp) hn
  behind := h.behind
  kept i a hia _ hp := .inl (hcov i a hia (List.ne_nil_of_mem hp))

theorem ran_journaled {o : Outcome} (h : Journaled s) (hg : clearGuard s (.run f o))
    (hr : Ran content s f o t) : Journaled t := by
  have hc : ∀ i, s.covered i → t.covered i := fun i => ran_covered hr
  cases hr with
  | clear hf hdb =>
    obtain ⟨hcov, hmu⟩ := hg (by simp [clears, hf, hdb])
    exact (clear_journaled h hcov hmu).frame rfl rfl rfl rfl hc
  | merge | snapshot | startAdd | added | clean | dirty | commit | fail | noRows | clearFail
  | restore | leave => exact h.frame rfl rfl rfl rfl hc

theorem step_journaled {a : Act} (h : Journaled s) (hdb : s.db = true) (hg : clearGuard s a)
    (hs : Step content s a t) : Journaled t := by
  have hc : ∀ i, s.covered i → t.covered i := fun i => step_covered hs
  cases hs with
  | enqueue => exact enqueue_journaled h hdb _
  | persist hm => exact persistPending_journaled h hm
  | persistFail => exact h.release
  | acknowledge hm => exact acknowledge_journaled h hm
  | run hr => exact ran_journaled h hg hr
  | write | reject | fire | flush | close | replay | runExclusive | exclusiveDone =>
    exact h.frame rfl rfl rfl rfl hc

theorem step_db {a : Act} (hs : Step content s a t) : t.db = s.db := by
  cases hs with
  | run hr => cases hr <;> rfl
  | _ => rfl

variable [DecidableEq κ]

/-- In runs whose flushes delete rows only while nothing counts on them, every acknowledged
path that no flush covers has a row, with its source or that of a later task. -/
theorem journal_kept (content : Nat → κ) (s : State)
    (h : (machine content).ReachVia clearGuard s) : JournalKept s := by
  let inv (s : State) : Prop := s.db = true → Journaled s
  have hinv : inv s := by
    refine h.invariant ?_ ?_
    · rintro s ⟨-, -, -, hm, -, -, -, ha, -⟩ -
      refine ⟨fun e he => ?_, fun a hm => ?_, fun i a hia => ?_⟩
      · rw [hm] at he
        cases he
      · rw [ha] at hm
        cases hm
      · rw [ha] at hia
        cases hia
    · intro s a t hi hg hs hdb
      have hs := step_cases hs
      rw [step_db hs] at hdb
      exact step_journaled (hi hdb) hdb hg hs
  exact fun hdb => (hinv hdb).kept

/-- `b.md` is acknowledged between the `git add` of a flush and its DELETE, which takes the
row away. -/
theorem journal_loses_row : ¬ ∀ s, (machine id).Reach s → JournalKept s := by
  intro h
  have hinit : (machine id).Reach newQueue := .init (newQueue_init id)
  have hrun := hinit.run [.write, .enqueue (update "a.md"), .persist true, .acknowledge, .fire 0,
    .run 0 .ok, .run 0 .ok, .write, .enqueue (update "b.md"), .persist true, .acknowledge,
    .run 0 (.staged 2), .run 0 .ok, .run 0 .ok, .run 0 .ok] rfl
  rcases h _ hrun rfl 1 _ rfl (utf8 "b.md") (by decide) with ⟨f, -, hf⟩ | ⟨source, hrow, -⟩
  · have hsince : ∀ f, Function.update (fun _ : Nat => 0) 0 1 f ≤ 1 := by
      intro f
      by_cases hf : f = 0 <;> simp [hf]
    exact absurd hf (not_lt_of_ge (hsince f))
  · cases hrow

/-- One change is flushed before the next is acknowledged. -/
theorem journal_kept_in_turn : ∃ s : State,
    s.journal.rows = [(utf8 "b.md", utf8 "web")] ∧ s.acked.length = 2 ∧ JournalKept s := by
  have hquiet : ∀ s a, clears s a = false → clearGuard s a := fun s a hc h => by
    rw [hc] at h
    cases h
  have h₀ : (machine id).ReachVia clearGuard newQueue := .init (newQueue_init id)
  have h₁ := h₀.run hquiet [.write, .enqueue (update "a.md"), .persist true, .acknowledge,
    .fire 0, .run 0 .ok, .run 0 .ok, .run 0 (.staged 1), .run 0 .ok, .run 0 .ok] rfl
  have h₂ := h₁.step (a := .run 0 .ok) (fun _ => ⟨fun i b hi _ => ?_, fun e he => nomatch he⟩) rfl
  · have h₃ := h₂.run hquiet [.enqueue (update "b.md"), .persist true, .acknowledge] rfl
    exact ⟨_, by decide, rfl, journal_kept id _ h₃⟩
  · have hlt : i < 1 := (List.getElem?_eq_some_iff.mp hi).1
    exact ⟨0, trivial, hlt⟩

end Mdock.Git
