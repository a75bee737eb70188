import Mdock.Git.Commit

/-! The map `pending` and the snapshots taken from it. A path stays in one of them from its
`Enqueue` until a flush has committed, and what a call that returns nil was asked to flush
is in `HEAD`. -/
namespace Mdock.Git
open Mdock.Go Mdock.Lib
variable {κ : Type*} {content : Nat → κ} {s t : State} {f i : Nat} {p : Phase} {k : Bytes}

/-- The snapshot of a call that has taken it and has not returned. -/
def Phase.snapshot : Phase → Option Sources
  | .waiting snap | .adding snap _ | .added snap | .dirty snap | .committed snap
  | .failed snap _ | .ending snap _ => some snap
  | _ => none

def Sources.has (m : Sources) (k : Bytes) : Prop := (m.get? k).isSome

/-- What the call answers for: a key of its snapshot, for tasks before its `git add`, until
the snapshot is put back; and every such task once it has returned from a commit. -/
def Phase.holds (p : Phase) (since i : Nat) (k : Bytes) : Prop :=
  match p with
  | .waiting snap => Sources.has snap k
  | .adding snap _ | .added snap | .dirty snap | .failed snap _ | .committed snap
  | .ending snap none | .ending snap (some .clear) => Sources.has snap k ∧ i < since
  | .done none | .done (some .clear) => i < since
  | _ => False

def State.remembers (s : State) (i : Nat) (k : Bytes) : Prop :=
  Sources.has s.pending k ∨ ∃ f, (s.flush f).holds (s.since f) i k

/-- The keys of every acknowledged task are remembered, and those of an `Enqueue` that
holds `mu` are pending. -/
structure Remembered (s : State) : Prop where
  enqueuing : ∀ e, s.mu = some e → ∀ k ∈ e.task.keys, Sources.has s.pending k
  acked : ∀ i a, s.acked[i]? = some a → ∀ k ∈ a.task.keys, s.remembers i k

theorem has_upserts {m : Sources} {rs : List (Bytes × Bytes)} (h : Sources.has m k) :
    Sources.has (rs.foldl Keyed.upsert m) k :=
  (Keyed.isSome_get?_foldl_upsert m rs k).mpr (.inl h)

theorem has_fill {m snap : Sources} :
    Sources.has m k ∨ Sources.has snap k → Sources.has (m.fill snap.rows) k := by
  rintro (h | h)
  · obtain ⟨e, he⟩ := Option.isSome_iff_exists.mp h
    rw [Sources.has, Keyed.get?_fill_of_some he]
    rfl
  · obtain ⟨e, he⟩ := Option.isSome_iff_exists.mp h
    have hkey : pathKey e = k := Keyed.key_of_get? he
    rw [← hkey]
    exact Keyed.isSome_get?_fill (Keyed.mem_of_get? he) m

/-- One call goes on; it and `pending` answer for all they answered for. -/
theorem State.remembers.update (h : s.remembers i k)
    (hf : t.flush = Function.update s.flush f p) (hs : ∀ g, g ≠ f → t.since g = s.since g)
    (hp : Sources.has s.pending k ∨ (s.flush f).holds (s.since f) i k →
      Sources.has t.pending k ∨ p.holds (t.since f) i k) : t.remembers i k := by
  have hself : Sources.has t.pending k ∨ p.holds (t.since f) i k → t.remembers i k :=
    Or.imp_right fun hp => ⟨f, by rwa [hf, Function.update_self]⟩
  rcases h with h | ⟨g, hg⟩
  · exact hself (hp (.inl h))
  · by_cases hgf : g = f
    · subst hgf
      exact hself (hp (.inr hg))
    · exact .inr ⟨g, by rwa [hf, Function.update_of_ne hgf, hs g hgf]⟩

/-- `pending` may change while `mu` is free, if no acknowledged key is forgotten. -/
theorem Remembered.frame (h : Remembered s) (hm : t.mu = s.mu ∧ t.pending = s.pending ∨ t.mu = none)
    (ha : t.acked = s.acked)
    (hr : ∀ i k, i < s.acked.length → s.remembers i k → t.remembers i k) : Remembered t where
  enqueuing e he k hk := by
    rcases hm with ⟨hm, hp⟩ | hm
    · rw [hp]
      exact h.enqueuing e (hm ▸ he) k hk
    · rw [hm] at he
      cases he
  acked i a hia k hk := by
    rw [ha] at hia
    exact hr i k (List.getElem?_eq_some_iff.mp hia).1 (h.acked i a hia k hk)

theorem ran_remembered {o : Outcome} (h : Remembered s) (hr : Ran content s f o t) :
    Remembered t := by
  cases hr with
  | merge hf hm =>
    refine h.frame (.inr hm) rfl fun i k _ hk => hk.update rfl (fun _ _ => rfl) ?_
    rw [hf]
    exact fun hk => .inl (has_upserts (hk.resolve_right id))
  | snapshot hf hm =>
    refine h.frame (.inr hm) rfl fun i k _ hk => hk.update rfl (fun _ _ => rfl) ?_
    rw [hf]
    exact fun hk => .inr (hk.resolve_right id)
  | startAdd hf =>
    refine h.frame (.inl ⟨rfl, rfl⟩) rfl fun i k hi hk =>
      hk.update rfl (fun g hg => Function.update_of_ne hg ..) ?_
    rw [hf]
    exact Or.imp_right fun hk => ⟨hk, lt_of_lt_of_eq hi (s.startAdd_since f).symm⟩
  | added hf | clean hf | dirty hf | commit hf | clear hf | noRows hf | clearFail hf =>
    refine h.frame (.inl ⟨rfl, rfl⟩) rfl fun i k _ hk => hk.update rfl (fun _ _ => rfl) ?_
    rw [hf]
    exact id
  | fail hf =>
    refine h.frame (.inl ⟨rfl, rfl⟩) rfl fun i k _ hk => hk.update rfl (fun _ _ => rfl) ?_
    obtain ⟨disk, hf⟩ | hf | hf := hf <;> rw [hf] <;> exact id
  | restore hf hm =>
    refine h.frame (.inr hm) rfl fun i k _ hk => hk.update rfl (fun _ _ => rfl) ?_
    rw [hf]
    exact fun hk => .inl (has_fill (hk.imp_right And.left))
  | @leave snap e hf =>
    refine h.frame (.inl ⟨rfl, rfl⟩) rfl fun i k _ hk => hk.update rfl (fun _ _ => rfl) ?_
    rw [hf]
    cases e with
    | none => exact Or.imp_right And.right
    | some e =>
      cases e with
      | clear => exact Or.imp_right And.right
      | query | exclusive | git => exact id

theorem enqueue_has {task : Task} (hk : k ∈ task.keys) :
    Sources.has (s.enqueue task).pending k := by
  refine (Keyed.isSome_get?_foldl_upsert s.pending _ k).mpr (.inr ?_)
  rw [List.map_map]
  exact List.mem_map.mpr ⟨k, hk, rfl⟩

theorem step_remembered {a : Act} (h : Remembered s) (hs : Step content s a t) :
    Remembered t := by
  cases hs with
  | @enqueue task =>
    refine ⟨fun e he k hk => ?_, fun i a hia k hk => ?_⟩
    · cases he
      exact enqueue_has hk
    · exact (h.acked i a hia k hk).imp_left has_upserts
  | persist hm =>
    refine ⟨fun e he k hk => ?_, h.acked⟩
    cases he
    exact h.enqueuing _ hm k hk
  | persistFail => exact ⟨fun _ he => (nomatch he), h.acked⟩
  | acknowledge hm =>
    refine ⟨fun _ he => (nomatch he), fun i a hia k hk => ?_⟩
    rcases getElem?_concat_cases hia with hia | ⟨-, rfl⟩
    · exact h.acked i a hia k hk
    · exact .inl (h.enqueuing _ hm k hk)
  | fire _ hf | flush hf | close _ hf =>
    refine h.frame (.inl ⟨rfl, rfl⟩) rfl fun i k _ hk => hk.update rfl (fun _ _ => rfl) ?_
    rw [hf]
    exact id
  | @replay f ok p hf hp =>
    refine h.frame (.inl ⟨rfl, rfl⟩) rfl fun i k _ hk => hk.update rfl (fun _ _ => rfl) ?_
    rw [hf]
    exact Or.imp_right False.elim
  | run hr => exact ran_remembered h hr
  | write | reject | runExclusive | exclusiveDone => exact ⟨h.enqueuing, h.acked⟩

theorem remembered_init [DecidableEq κ] (h : (machine content).init s) : Remembered s := by
  obtain ⟨-, -, -, hm, -, -, -, ha, -⟩ := h
  refine ⟨fun e he => ?_, fun i a hia => ?_⟩
  · rw [hm] at he
    cases he
  · rw [ha] at hia
    cases hia

/-- A snapshot that is put back replaces no entry. -/
theorem restore_keeps [DecidableEq κ] {snap : Sources} {c : Command} {o : Outcome}
    (hf : s.flush f = .failed snap c) (hs : step content s (.run f o) = some t)
    {e : Bytes × Bytes} (he : s.pending.get? k = some e) : t.pending.get? k = some e := by
  simp only [step, hf] at hs
  cases o with
  | ok =>
    simp only [runStep, Option.ite_none_right_eq_some, Option.some.injEq] at hs
    obtain ⟨-, rfl⟩ := hs
    exact Keyed.get?_fill_of_some he _
  | failed => cases hs
  | staged => cases hs

/-- The step is a DELETE that fails, after the git commands of the flush succeeded. -/
def clearFails (s : State) : Act → Bool
  | .run f .failed =>
    match s.flush f with
    | .committed _ => true
    | _ => false
  | _ => false

/-- The call has committed and answers, or has answered, with an error. -/
def Phase.unclear : Phase → Prop
  | .ending _ (some .clear) | .done (some .clear) => True
  | _ => False

theorem unclear_update {flush : Nat → Phase} (h : ∀ g, ¬ (flush g).unclear) (hp : ¬ p.unclear) :
    ∀ g, ¬ (Function.update flush f p g).unclear :=
  (Function.forall_update_iff flush fun _ q => ¬ q.unclear).mpr ⟨hp, fun g _ => h g⟩

theorem Phase.queried.not_unclear (hp : p.queried) : ¬ p.unclear := by
  cases p <;> simp_all [Phase.queried, Phase.unclear]

theorem step_unclear {a : Act} (h : ∀ g, ¬ (s.flush g).unclear) (hg : clearFails s a = false)
    (hs : Step content s a t) (g : Nat) : ¬ (t.flush g).unclear := by
  cases hs with
  | @run f o _ hr =>
    cases hr with
    | clearFail hf =>
      simp only [clearFails, hf] at hg
      cases hg
    | @leave snap e hf =>
      have hself := h f
      rw [hf] at hself
      refine unclear_update h (fun hu => hself ?_) g
      cases e with
      | none => exact hu
      | some e => cases e <;> exact hu
    | merge | snapshot | startAdd | added | clean | dirty | commit | fail | clear | noRows
    | restore => exact unclear_update h id g
  | fire | flush | close => exact unclear_update h id g
  | replay _ hp => exact unclear_update h hp.not_unclear g
  | write | reject | enqueue | persist | persistFail | acknowledge | runExclusive
  | exclusiveDone => exact h g

theorem Phase.holds.cases {since : Nat} (h : p.holds since i k) :
    (∃ snap, p.snapshot = some snap ∧ Sources.has snap k) ∨
      (p = .done none ∨ p = .done (some .clear)) ∧ i < since := by
  cases p with
  | waiting snap => exact .inl ⟨snap, rfl, h⟩
  | adding snap | added snap | dirty snap | failed snap | committed snap =>
    exact .inl ⟨snap, rfl, h.1⟩
  | ending snap e =>
    cases e with
    | none => exact .inl ⟨snap, rfl, h.1⟩
    | some e =>
      cases e with
      | clear => exact .inl ⟨snap, rfl, h.1⟩
      | query | exclusive | git => exact h.elim
  | done e =>
    cases e with
    | none => exact .inr ⟨.inl rfl, h⟩
    | some e =>
      cases e with
      | clear => exact .inr ⟨.inr rfl, h⟩
      | query | exclusive | git => exact h.elim
  | idle | replaying | skipped | start => exact h.elim

variable [DecidableEq κ]

/-- Without a DELETE that fails, no flush that has committed answers with an error. -/
theorem never_unclear (h : (machine content).ReachVia (fun s a => clearFails s a = false) s)
    (f : Nat) : ¬ (s.flush f).unclear := by
  have hstart : ∀ s, (machine content).init s → ∀ g, ¬ (s.flush g).unclear := by
    intro s hs g
    obtain ⟨-, -, -, -, -, -, hidle, -⟩ := hs
    rw [hidle]
    exact id
  have hstep : ∀ s a t, (∀ g, ¬ (s.flush g).unclear) → clearFails s a = false →
      (machine content).step s a = some t → ∀ g, ¬ (t.flush g).unclear :=
    fun _ _ _ hi hg hs => step_unclear hi hg (step_cases hs)
  exact Machine.ReachVia.invariant hstart hstep h f

/-- Whatever fails: an acknowledged path is pending, in the snapshot of a flush that still
runs, or covered by a flush that has committed, which returned nil unless its DELETE failed;
a snapshot that is put back replaces no entry; and what was acknowledged before a call that
returned nil is in `HEAD`. -/
theorem queue_remembers (content : Nat → κ) (s : State) (h : (machine content).Reach s) :
    (∀ i a, s.acked[i]? = some a → ∀ k ∈ a.task.keys,
      (s.pending.get? k).isSome ∨
        (∃ f snap, (s.flush f).snapshot = some snap ∧ (snap.get? k).isSome) ∨
        ∃ f, (s.flush f = .done none ∨ s.flush f = .done (some .clear)) ∧ i < s.since f) ∧
    ((machine content).ReachVia (fun s a => clearFails s a = false) s →
      ∀ f, s.flush f ≠ .done (some .clear)) ∧
    (∀ f snap c o t, s.flush f = .failed snap c → step content s (.run f o) = some t →
      ∀ k e, s.pending.get? k = some e → t.pending.get? k = some e) ∧
    ∀ f, s.flush f = .done none → CommittedTo content s (s.began f) := by
  have hrem : Remembered s := h.invariant (fun _ => remembered_init)
    fun _ _ _ hi hs => step_remembered hi (step_cases hs)
  refine ⟨fun i a hia k hk => ?_, fun hvia f hf => ?_,
    fun f snap c o t hf hs k e he => restore_keeps hf hs he,
    fun f hf => (tracked_of_reach h).returned hf⟩
  · rcases hrem.acked i a hia k hk with hk | ⟨f, hf⟩
    · exact .inl hk
    · rcases hf.cases with ⟨snap, hsnap, hk⟩ | ⟨hdone, hi⟩
      · exact .inr (.inl ⟨f, snap, hsnap, hk⟩)
      · exact .inr (.inr ⟨f, hdone, hi⟩)
  · have hclear := never_unclear hvia f
    rw [hf] at hclear
    exact hclear trivial

/-- A flush whose `git add` failed, a second change, and a flush that returned nil. -/
theorem queue_remembers_retry : ∃ s : State,
    s.flush 1 = .done none ∧ s.began 1 = 2 ∧ CommittedTo id s 2 := by
  have h₀ : (machine id).Reach newQueue := .init (newQueue_init id)
  have h₁ := h₀.run [.write, .enqueue (update "a.md"), .persist true,
    .acknowledge, .fire 0, .run 0 .ok, .run 0 .ok, .write, .enqueue (update "b.md"),
    .persist true, .acknowledge, .run 0 .failed, .run 0 .ok, .run 0 .ok, .flush 1, .run 1 .ok,
    .run 1 .ok, .run 1 (.staged 2), .run 1 .ok, .run 1 .ok, .run 1 .ok, .run 1 .ok] rfl
  exact ⟨_, rfl, rfl, (queue_remembers id _ h₁).2.2.2 1 rfl⟩

end Mdock.Git
