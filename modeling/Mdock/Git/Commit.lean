import Mdock.Git.Queue

/-! What a flush brings into `HEAD`. Flushes run git one at a time; each stages at least
what was on disk when its `git add` started, so that a call which returns nil leaves in
`HEAD` all that was acknowledged before. -/
namespace Mdock.Git
open Mdock.Go Mdock.Lib
variable {κ : Type*} {content : Nat → κ} {s t : State} {f m : Nat} {p : Phase} {a : Act}

/-- The call holds `runMu`. -/
def Phase.working : Phase → Prop
  | .adding _ _ | .added _ | .dirty _ | .committed _ | .failed _ _ | .ending _ _ => True
  | _ => False

theorem Phase.queried.not_working (hp : p.queried) : ¬ p.working := by
  cases p <;> simp_all [Phase.queried, Phase.working]

/-! ### One flush at a time -/

def RunExclusively (s : State) : Prop := ∀ f, (s.flush f).working → s.runMu = some (.flush f)

theorem RunExclusively.eq (h : RunExclusively s) {f g : Nat} (hf : (s.flush f).working)
    (hg : (s.flush g).working) : f = g := by
  have hrun := h f hf
  rw [h g hg] at hrun
  cases hrun
  rfl

theorem RunExclusively.update (h : RunExclusively s)
    (hf : t.flush = Function.update s.flush f p) (hrun : t.runMu = s.runMu)
    (hp : p.working → (s.flush f).working) : RunExclusively t := by
  rw [RunExclusively, hf, hrun,
    Function.forall_update_iff s.flush fun g q => q.working → s.runMu = some (.flush g)]
  exact ⟨fun hw => h f (hp hw), fun g _ => h g⟩

theorem ran_exclusively {o : Outcome} (h : RunExclusively s) (hr : Ran content s f o t) :
    RunExclusively t := by
  cases hr with
  | merge | snapshot => exact h.update rfl rfl False.elim
  | added hf | clean hf | dirty hf | commit hf | clear hf | noRows hf | clearFail hf
  | restore hf => exact h.update rfl rfl fun _ => by simp [hf, Phase.working]
  | fail hf =>
    refine h.update rfl rfl fun _ => ?_
    obtain ⟨disk, hf⟩ | hf | hf := hf <;> simp [hf, Phase.working]
  | startAdd hf hrun =>
    intro g hg
    by_cases hgf : g = f
    · rw [hgf]
      rfl
    · have hg' : (s.flush g).working := by
        simpa [State.setFlush, State.startAdd, Function.update_of_ne hgf] using hg
      rw [h g hg'] at hrun
      cases hrun
  | leave hf =>
    intro g hg
    by_cases hgf : g = f
    · subst hgf
      simp [State.setFlush, State.leave, Phase.working] at hg
    · have hg' : (s.flush g).working := by
        simpa [State.setFlush, State.leave, Function.update_of_ne hgf] using hg
      exact absurd (h.eq hg' (by simp [hf, Phase.working])) hgf

theorem step_exclusively (h : RunExclusively s) (hs : Step content s a t) :
    RunExclusively t := by
  cases hs with
  | fire | flush | close => exact h.update rfl rfl False.elim
  | replay _ hp => exact h.update rfl rfl fun hw => (hp.not_working hw).elim
  | run hr => exact ran_exclusively h hr
  | runExclusive hrun =>
    intro g hg
    rw [h g hg] at hrun
    cases hrun
  | exclusiveDone hrun =>
    intro g hg
    rw [h g hg] at hrun
    cases hrun
  | write | reject | enqueue | persist | persistFail | acknowledge => exact h

/-! ### What is staged and what is committed -/

/-- The index holds what was on disk when any of the first `m` tasks was acknowledged. -/
def StagedTo (s : State) (m : Nat) : Prop :=
  ∀ (i : Nat) (a : Ack), i < m → s.acked[i]? = some a → a.disk ≤ s.index

/-- `HEAD` holds the tree as it was at or after each of the first `m` tasks. -/
def CommittedTo (content : Nat → κ) (s : State) (m : Nat) : Prop :=
  ∀ (i : Nat) (a : Ack), i < m → s.acked[i]? = some a → ∃ n, a.disk ≤ n ∧ content n = content s.head

/-- What a call that started `git add` at task `m` has achieved. -/
def Phase.achieved (content : Nat → κ) (s : State) (m : Nat) : Phase → Prop
  | .adding _ disk =>
    s.index ≤ disk ∧ disk ≤ s.disk ∧
      ∀ (i : Nat) (a : Ack), i < m → s.acked[i]? = some a → a.disk ≤ disk
  | .added _ | .dirty _ => StagedTo s m
  | p => p.landed → StagedTo s m ∧ CommittedTo content s m

theorem Phase.queried.achieved (hp : p.queried) : p.achieved content s m := by
  cases p <;> simp_all [Phase.queried, Phase.achieved, Phase.landed]

structure Counted (s : State) : Prop where
  index_le : s.index ≤ s.disk
  acked_le : ∀ (i : Nat) (a : Ack), s.acked[i]? = some a → a.disk ≤ s.disk
  since_le : ∀ f, s.since f ≤ s.acked.length

theorem ran_counted {o : Outcome} (h : Counted s) (hr : Ran content s f o t) : Counted t := by
  cases hr with
  | startAdd =>
    refine ⟨h.index_le, h.acked_le, fun g => ?_⟩
    by_cases hgf : g = f
    · rw [hgf]
      exact le_of_eq (s.startAdd_since f)
    · exact le_of_eq_of_le (Function.update_of_ne hgf ..) (h.since_le g)
  | added _ _ hd => exact ⟨hd, h.acked_le, h.since_le⟩
  | merge | snapshot | clean | dirty | commit | fail | clear | noRows | clearFail | restore
  | leave => exact ⟨h.index_le, h.acked_le, h.since_le⟩

theorem step_counted (h : Counted s) (hs : Step content s a t) : Counted t := by
  cases hs with
  | write =>
    exact ⟨Nat.le_succ_of_le h.index_le, fun i a hia => Nat.le_succ_of_le (h.acked_le i a hia),
      h.since_le⟩
  | acknowledge =>
    refine ⟨h.index_le, fun i a hia => ?_, fun f => ?_⟩
    · rcases getElem?_concat_cases hia with hia | ⟨-, rfl⟩
      · exact h.acked_le i a hia
      · exact le_rfl
    · have hle := h.since_le f
      simp only [State.acknowledge, State.armTimerLocked, List.length_append]
      omega
  | run hr => exact ran_counted h hr
  | reject | enqueue | persist | persistFail | fire | flush | close | replay | runExclusive
  | exclusiveDone => exact ⟨h.index_le, h.acked_le, h.since_le⟩

theorem StagedTo.mono (h : StagedTo s m) (ha : ∀ i, i < m → t.acked[i]? = s.acked[i]?)
    (hle : s.index ≤ t.index) : StagedTo t m :=
  fun i a hi hia => le_trans (h i a hi (ha i hi ▸ hia)) hle

theorem CommittedTo.mono (h : CommittedTo content s m) (hs : StagedTo t m)
    (ha : ∀ i, i < m → t.acked[i]? = s.acked[i]?)
    (hg : t.head = s.head ∨ t.head = t.index) : CommittedTo content t m := by
  intro i a hi hia
  rcases hg with hg | hg
  · rw [hg]
    exact h i a hi (ha i hi ▸ hia)
  · exact ⟨t.index, hs i a hi hia, by rw [hg]⟩

/-- What a call has achieved lasts while the disk changes and tasks are acknowledged, and,
if it does not run git itself, while another stages or commits. -/
theorem achieved_mono (h : p.achieved content s m)
    (ha : ∀ i, i < m → t.acked[i]? = s.acked[i]?) (hd : s.disk ≤ t.disk)
    (hg : t.index = s.index ∧ t.head = s.head ∨
      ¬ p.working ∧ s.index ≤ t.index ∧ (t.head = s.head ∨ t.head = t.index)) :
    p.achieved content t m := by
  have hle : s.index ≤ t.index := by
    rcases hg with ⟨hi, -⟩ | ⟨-, hle, -⟩
    · exact le_of_eq hi.symm
    · exact hle
  have hhead : t.head = s.head ∨ t.head = t.index := by
    rcases hg with ⟨-, hh⟩ | ⟨-, -, hh⟩
    · exact .inl hh
    · exact hh
  have hlanded : (p.landed → StagedTo s m ∧ CommittedTo content s m) →
      p.landed → StagedTo t m ∧ CommittedTo content t m := fun h hl =>
    ⟨(h hl).1.mono ha hle, (h hl).2.mono ((h hl).1.mono ha hle) ha hhead⟩
  cases p with
  | adding snap disk =>
    obtain ⟨hi, hdisk, hall⟩ := h
    rcases hg with ⟨hi', -⟩ | ⟨hw, -⟩
    · exact ⟨hi' ▸ hi, le_trans hdisk hd, fun i a hm hia => hall i a hm (ha i hm ▸ hia)⟩
    · exact absurd trivial hw
  | added snap => exact StagedTo.mono h ha hle
  | dirty snap => exact StagedTo.mono h ha hle
  | _ => exact hlanded h

/-- Every call has achieved what its phase says. -/
def Achieved (content : Nat → κ) (s : State) : Prop :=
  ∀ f, (s.flush f).achieved content s (s.since f)

theorem Achieved.update (h : Achieved content s) (hf : t.flush = Function.update s.flush f p)
    (hs : ∀ g, g ≠ f → t.since g = s.since g) (ha : t.acked = s.acked) (hd : t.disk = s.disk)
    (hg : ∀ g, g ≠ f → t.index = s.index ∧ t.head = s.head ∨
      ¬ (s.flush g).working ∧ s.index ≤ t.index ∧ (t.head = s.head ∨ t.head = t.index))
    (hp : p.achieved content t (t.since f)) : Achieved content t := by
  rw [Achieved, hf,
    Function.forall_update_iff s.flush fun g q => q.achieved content t (t.since g)]
  refine ⟨hp, fun g hgf => ?_⟩
  rw [hs g hgf]
  exact achieved_mono (h g) (fun _ _ => by rw [ha]) (le_of_eq hd.symm) (hg g hgf)

theorem ran_achieved {o : Outcome} (h : Achieved content s) (hx : RunExclusively s)
    (hc : Counted s) (hr : Ran content s f o t) : Achieved content t := by
  have hself := h f
  have hother : (s.flush f).working → ∀ g, g ≠ f → ¬ (s.flush g).working :=
    fun hw g hgf hg => hgf (hx.eq hg hw)
  cases hr with
  | merge | snapshot | restore =>
    exact h.update rfl (fun _ _ => rfl) rfl rfl (fun _ _ => .inl ⟨rfl, rfl⟩) False.elim
  | startAdd =>
    refine h.update rfl (fun g hg => Function.update_of_ne hg ..) rfl rfl
      (fun _ _ => .inl ⟨rfl, rfl⟩) ?_
    exact ⟨hc.index_le, le_rfl, fun i a _ hia => hc.acked_le i a hia⟩
  | added hf hn hd =>
    rw [hf] at hself hother
    obtain ⟨hi, -, hall⟩ := hself
    refine h.update rfl (fun _ _ => rfl) rfl rfl
      (fun g hg => .inr ⟨hother trivial g hg, le_trans hi hn, .inl rfl⟩) ?_
    exact fun i a hm hia => le_trans (hall i a hm hia) hn
  | clean hf hclean =>
    rw [hf] at hself
    refine h.update rfl (fun _ _ => rfl) rfl rfl (fun _ _ => .inl ⟨rfl, rfl⟩) fun _ => ?_
    exact ⟨hself, fun i a hm hia => ⟨s.index, hself i a hm hia, hclean.2⟩⟩
  | dirty hf =>
    rw [hf] at hself
    exact h.update rfl (fun _ _ => rfl) rfl rfl (fun _ _ => .inl ⟨rfl, rfl⟩) hself
  | commit hf =>
    rw [hf] at hself hother
    refine h.update rfl (fun _ _ => rfl) rfl rfl
      (fun g hg => .inr ⟨hother trivial g hg, le_rfl, .inr rfl⟩) fun _ => ?_
    exact ⟨hself, fun i a hm hia => ⟨s.index, hself i a hm hia, rfl⟩⟩
  | fail => exact h.update rfl (fun _ _ => rfl) rfl rfl (fun _ _ => .inl ⟨rfl, rfl⟩) False.elim
  | clear hf | noRows hf | clearFail hf =>
    rw [hf] at hself
    exact h.update rfl (fun _ _ => rfl) rfl rfl (fun _ _ => .inl ⟨rfl, rfl⟩)
      fun _ => hself trivial
  | @leave snap e hf =>
    rw [hf] at hself
    exact h.update rfl (fun _ _ => rfl) rfl rfl (fun _ _ => .inl ⟨rfl, rfl⟩)
      fun hl => hself ((Phase.landed_done snap e).mp hl)

theorem step_achieved (h : Achieved content s) (hx : RunExclusively s) (hc : Counted s)
    (hs : Step content s a t) : Achieved content t := by
  cases hs with
  | write =>
    exact fun f => achieved_mono (h f) (fun _ _ => rfl) (Nat.le_succ _) (.inl ⟨rfl, rfl⟩)
  | acknowledge =>
    refine fun f => achieved_mono (h f) (fun i hi => ?_) le_rfl (.inl ⟨rfl, rfl⟩)
    exact List.getElem?_append_left (lt_of_lt_of_le hi (hc.since_le f))
  | fire | flush | close =>
    exact h.update rfl (fun _ _ => rfl) rfl rfl (fun _ _ => .inl ⟨rfl, rfl⟩) False.elim
  | replay _ hp =>
    exact h.update rfl (fun _ _ => rfl) rfl rfl (fun _ _ => .inl ⟨rfl, rfl⟩) hp.achieved
  | run hr => exact ran_achieved h hx hc hr
  | reject | enqueue | persist | persistFail | runExclusive | exclusiveDone =>
    exact fun f => achieved_mono (h f) (fun _ _ => rfl) le_rfl (.inl ⟨rfl, rfl⟩)

/-! ### What was acknowledged before a call -/

/-- The call has run git, or is about to. -/
def Phase.started : Phase → Prop
  | .done _ => True
  | p => p.working

/-- A call began before its `git add` did. -/
def BeganBefore (s : State) : Prop :=
  ∀ f, s.began f ≤ s.acked.length ∧ ((s.flush f).started → s.began f ≤ s.since f)

theorem Phase.queried.not_started (hp : p.queried) : ¬ p.started := by
  cases p <;> simp_all [Phase.queried, Phase.started, Phase.working]

theorem BeganBefore.update (h : BeganBefore s) (hf : t.flush = Function.update s.flush f p)
    (ha : t.acked = s.acked) (hs : ∀ g, g ≠ f → t.began g = s.began g ∧ t.since g = s.since g)
    (hp : t.began f ≤ s.acked.length ∧ (p.started → t.began f ≤ t.since f)) :
    BeganBefore t := by
  rw [BeganBefore, hf, ha, Function.forall_update_iff s.flush fun g q =>
    t.began g ≤ s.acked.length ∧ (q.started → t.began g ≤ t.since g)]
  refine ⟨hp, fun g hgf => ?_⟩
  rw [(hs g hgf).1, (hs g hgf).2]
  exact h g

theorem BeganBefore.call (h : BeganBefore s) {u : State} (hflush : u.flush = s.flush)
    (hacked : u.acked = s.acked) (hbegan : u.began = s.began) (hsince : u.since = s.since)
    (hp : ¬ p.started) : BeganBefore (u.call f p) := by
  refine h.update (by rw [← hflush]; rfl) hacked (fun g hg => ⟨?_, congrFun hsince g⟩)
    ⟨?_, fun hs => absurd hs hp⟩
  · rw [← hbegan]
    exact Function.update_of_ne hg ..
  · rw [← hacked]
    exact le_of_eq (Function.update_self ..)

theorem ran_began {o : Outcome} (h : BeganBefore s) (hr : Ran content s f o t) :
    BeganBefore t := by
  have hself := h f
  cases hr with
  | merge | snapshot => exact h.update rfl rfl (fun _ _ => ⟨rfl, rfl⟩) ⟨hself.1, False.elim⟩
  | startAdd =>
    refine h.update rfl rfl (fun g hg => ⟨rfl, Function.update_of_ne hg ..⟩) ⟨hself.1, fun _ => ?_⟩
    exact le_of_le_of_eq hself.1 (s.startAdd_since f).symm
  | added hf | clean hf | dirty hf | commit hf | clear hf | noRows hf | clearFail hf
  | restore hf | leave hf =>
    rw [hf] at hself
    exact h.update rfl rfl (fun _ _ => ⟨rfl, rfl⟩) ⟨hself.1, fun _ => hself.2 trivial⟩
  | fail hf =>
    refine h.update rfl rfl (fun _ _ => ⟨rfl, rfl⟩) ⟨hself.1, fun _ => hself.2 ?_⟩
    obtain ⟨disk, hf⟩ | hf | hf := hf <;> rw [hf] <;> trivial

theorem step_began (h : BeganBefore s) (hs : Step content s a t) : BeganBefore t := by
  cases hs with
  | fire | flush | close => exact h.call rfl rfl rfl rfl id
  | replay _ hp => exact h.call rfl rfl rfl rfl hp.not_started
  | acknowledge =>
    refine fun f => ⟨?_, (h f).2⟩
    have hle := (h f).1
    simp only [State.acknowledge, State.armTimerLocked, List.length_append]
    omega
  | run hr => exact ran_began h hr
  | write | reject | enqueue | persist | persistFail | runExclusive | exclusiveDone => exact h

/-! ### Every run -/

structure Tracked (content : Nat → κ) (s : State) : Prop where
  exclusive : RunExclusively s
  counted : Counted s
  achieved : Achieved content s
  began : BeganBefore s

theorem Tracked.step (h : Tracked content s) (hs : Step content s a t) : Tracked content t where
  exclusive := step_exclusively h.exclusive hs
  counted := step_counted h.counted hs
  achieved := step_achieved h.achieved h.exclusive h.counted hs
  began := step_began h.began hs

theorem tracked_init [DecidableEq κ] (h : (machine content).init s) : Tracked content s := by
  obtain ⟨-, -, -, -, hrun, hindex, hidle, ha, -, hbegan, hsince⟩ := h
  constructor
  · intro f hf
    rw [hidle] at hf
    exact hf.elim
  · refine ⟨hindex, fun i a hia => ?_, fun f => ?_⟩
    · rw [ha] at hia
      cases hia
    · rw [hsince]
      exact Nat.zero_le _
  · intro f
    rw [hidle]
    exact False.elim
  · intro f
    rw [hbegan]
    exact ⟨Nat.zero_le _, fun _ => Nat.zero_le _⟩

theorem tracked_of_reach [DecidableEq κ] (h : (machine content).Reach s) : Tracked content s :=
  h.invariant (fun _ => tracked_init) fun _ _ _ hi hs => hi.step (step_cases hs)

/-- A call that returned nil has brought into `HEAD` all that was acknowledged before it. -/
theorem Tracked.returned (h : Tracked content s) (hf : s.flush f = .done none) :
    CommittedTo content s (s.began f) := by
  have hach := h.achieved f
  have hle := (h.began f).2
  rw [hf] at hach hle
  exact fun i a hi hia => (hach trivial).2 i a (lt_of_lt_of_le hi (hle trivial)) hia

end Mdock.Git
