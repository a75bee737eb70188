import Mdock.Git.Queue

/-! The debounce timer. Whenever `pending` is not empty the timer runs or a flush is on its
way, unless an `Enqueue` that could not write a row left its paths behind. -/
namespace Mdock.Git
open Mdock.Go Mdock.Lib
variable {κ : Type*} {content : Nat → κ} {flush : Nat → Phase} {f : Nat} {p : Phase}

/-- The call will still take its snapshot, or put one back and arm the timer. -/
def Phase.coming : Phase → Prop
  | .replaying _ | .start | .failed _ _ => True
  | _ => False

def Coming (flush : Nat → Phase) : Prop := ∃ f, (flush f).coming

/-- While no `Enqueue` holds `mu`, pending changes of an open queue have a flush coming. -/
def FlushComing (s : State) : Prop :=
  s.closed = false → s.mu = none → s.pending.rows ≠ [] → s.armed = true ∨ Coming s.flush

/-- An INSERT fails only while the timer is armed or a flush is coming anyway. -/
def persistGuard (s : State) (a : Act) : Prop :=
  a = .persist false → s.armed = true ∨ Coming s.flush

theorem coming_update (hp : p.coming) : Coming (Function.update flush f p) :=
  (Function.exists_update_iff flush fun _ q => q.coming).mpr (.inl hp)

theorem Coming.update (h : Coming flush) (hp : (flush f).coming → p.coming) :
    Coming (Function.update flush f p) := by
  rw [Coming, Function.exists_update_iff flush fun _ q => q.coming]
  obtain ⟨g, hg⟩ := h
  by_cases hgf : g = f
  · exact .inl (hp (hgf ▸ hg))
  · exact .inr ⟨g, hgf, hg⟩

/-- A step that touches neither `pending` nor the timer. -/
theorem FlushComing.frame {s t : State} (h : FlushComing s) (hc : t.closed = s.closed)
    (hm : t.mu = s.mu) (hp : t.pending = s.pending) (ha : t.armed = s.armed)
    (hf : Coming s.flush → Coming t.flush) : FlushComing t := by
  intro hc' hm' hp'
  rw [ha]
  exact (h (hc ▸ hc') (hm ▸ hm') (hp ▸ hp')).imp_right hf

theorem armTimerLocked_armed {s : State} (h : s.closed = false) :
    s.armTimerLocked.armed = true := by
  simp [State.armTimerLocked, h]

theorem restorePending_armed {s : State} {snap : Sources} (hc : s.closed = false)
    (hp : (s.restorePending snap).pending.rows ≠ []) :
    (s.restorePending snap).armed = true := by
  simp only [State.restorePending] at hp ⊢
  rw [if_neg hp, armTimerLocked_armed hc]

theorem ran_flushComing {s t : State} {o : Outcome} (h : FlushComing s)
    (hr : Ran content s f o t) : FlushComing t := by
  cases hr with
  | merge => exact fun _ _ _ => .inr (coming_update trivial)
  | snapshot => exact fun _ _ hp => absurd rfl hp
  | startAdd hf | added hf | clean hf | dirty hf | commit hf | clear hf | noRows hf
  | clearFail hf | leave hf =>
    exact h.frame rfl rfl rfl rfl fun hc => hc.update (by simp [hf, Phase.coming])
  | fail => exact h.frame rfl rfl rfl rfl fun _ => coming_update trivial
  | restore => exact fun hc _ hp => .inl (restorePending_armed hc hp)

variable [DecidableEq κ]

theorem step_flushComing {s t : State} {a : Act} (h : FlushComing s) (hg : persistGuard s a)
    (hs : step content s a = some t) : FlushComing t := by
  cases step_cases hs with
  | write | reject | runExclusive | exclusiveDone => exact h.frame rfl rfl rfl rfl id
  | enqueue => exact fun _ hm => nomatch hm
  | persist => exact fun _ hm => nomatch hm
  | persistFail => exact fun _ _ _ => hg rfl
  | acknowledge => exact fun hc _ _ => .inl (armTimerLocked_armed hc)
  | fire => exact fun _ _ _ => .inr (coming_update trivial)
  | flush => exact fun _ _ _ => .inr (coming_update trivial)
  | close => exact fun hc => nomatch hc
  | replay hf => exact h.frame rfl rfl rfl rfl fun hc => hc.update (by simp [hf, Phase.coming])
  | run hr => exact ran_flushComing h hr

/-- In runs whose INSERTs fail only while a flush is coming anyway, a pending change always
has a flush coming. -/
theorem pending_flushed (content : Nat → κ) (s : State)
    (h : (machine content).ReachVia persistGuard s) : FlushComing s :=
  h.invariant (fun s hs _ _ hp => absurd (by rw [hs.1]; rfl) hp)
    fun _ _ _ hi hg hs => step_flushComing hi hg hs

/-- Where the guard fails, the paths are left behind at once. -/
theorem persist_strands {s t : State} (hg : ¬ persistGuard s (.persist false))
    (hs : step content s (.persist false) = some t) (hc : s.closed = false)
    (hp : s.pending.rows ≠ []) : ¬ FlushComing t := by
  simp only [persistGuard, forall_const] at hg
  cases step_cases hs with
  | persistFail => exact fun h => hg (h hc rfl hp)

/-- The INSERT of the first change fails: its path stays pending with nothing to flush it. -/
theorem pending_stranded : ¬ ∀ s, (machine id).Reach s → FlushComing s := by
  intro h
  have hinit : (machine id).Reach newQueue := .init (newQueue_init id)
  rcases h _ (hinit.run [.enqueue (update "a.md"), .persist false] rfl) rfl rfl (by decide) with
    ha | ⟨f, hf⟩
  · cases ha
  · exact hf

/-- The INSERT of the second change fails, with the timer armed by the first. -/
theorem pending_flushed_armed : ∃ s : State,
    s.mu = none ∧ s.pending.get? (utf8 "b.md") = some (utf8 "b.md", utf8 "web") ∧
      s.acked.length = 1 ∧ FlushComing s := by
  have h₀ : (machine id).ReachVia persistGuard newQueue := .init (newQueue_init id)
  have h₁ := h₀.step (a := .enqueue (update "a.md")) (fun h => nomatch h) rfl
  have h₂ := h₁.step (a := .persist true) (fun h => nomatch h) rfl
  have h₃ := h₂.step (a := .acknowledge) (fun h => nomatch h) rfl
  have h₄ := h₃.step (a := .enqueue (update "b.md")) (fun h => nomatch h) rfl
  have h₅ := h₄.step (a := .persist false) (fun _ => .inl rfl) rfl
  exact ⟨_, rfl, by decide, rfl, pending_flushed id _ h₅⟩

end Mdock.Git
