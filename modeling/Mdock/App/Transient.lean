import Mdock.App.Requests

/-! The locks that requests take for one change. Acquiring is re-entrant for one owner and
releasing goes by the owner's name, so requests that share a name share a lock. -/
namespace Mdock.App.Requests
open Mdock.Go Mdock.Lib Mdock.Vault Mdock.Locks Mdock.Store

/-- A change that runs: the path and the owner of its lock. -/
def Task.running? : Task → Option (Bytes × Bytes)
  | .run rel owner _ _ => some (rel, owner)
  | _ => none

/-- A lock that is still to be given back. -/
def Task.releasing? : Task → Option (Bytes × Bytes)
  | .run rel owner true _ | .release rel owner => some (rel, owner)
  | _ => none

/-- From the grant of a lock to the end of the change, or to its release. -/
def Task.engaged? : Task → Option (Bytes × Bytes)
  | .run rel owner _ _ | .release rel owner => some (rel, owner)
  | _ => none

def Call.running? (call : Call) : Option (Bytes × Bytes) := call.todo.head?.bind Task.running?

def Call.releasing? (call : Call) : Option (Bytes × Bytes) := call.todo.head?.bind Task.releasing?

def Call.engaged? (call : Call) : Option (Bytes × Bytes) := call.todo.head?.bind Task.engaged?

/-- The path a change works on without a lock. -/
def Change.target? : Change → Option Bytes
  | .rename newRel => some newRel
  | _ => none

def Task.target? : Task → Option Bytes
  | .run _ _ _ change => change.target?
  | _ => none

def Call.target? (call : Call) : Option Bytes := call.todo.head?.bind Task.target?

/-- A running change works on the path. -/
def Call.worksOn (call : Call) (p : Bytes) : Prop :=
  call.running?.map Prod.fst = some p ∨ call.target? = some p

instance worksOnDecidable (call : Call) (p : Bytes) : Decidable (call.worksOn p) :=
  inferInstanceAs (Decidable (_ ∨ _))

/-- No two requests run a change under the lock on one path. -/
def Exclusive (s : State) : Prop := ∀ (i j : Nat) (call call' : Call) (k k' : Bytes × Bytes),
  i ≠ j → s.calls[i]? = some call → s.calls[j]? = some call' →
  call.running? = some k → call'.running? = some k' → k.1 ≠ k'.1

/-- No two requests run a change on one path, be it the new path of a rename. -/
def Disjoint (s : State) : Prop := ∀ (i j : Nat) (call call' : Call) (p : Bytes), i ≠ j →
  s.calls[i]? = some call → s.calls[j]? = some call' → call.worksOn p → ¬ call'.worksOn p

/-- A request other than the `i`-th runs under the lock, or whoever acquired it was promised it
for longer. -/
def Config.Relied (c : Config) (s : State) (i : Nat) (r : Row) : Prop := r.vaultID = c.item.id ∧
  ((∃ (j : Nat) (call : Call), j ≠ i ∧ s.calls[j]? = some call ∧
      call.running? = some (r.path, r.owner)) ∨
    ∃ e, s.held (r.path, r.owner) = some e ∧ s.clock < e)

/-- The release that ends a request removes no lock that others rely on. -/
def Config.ReleasesSafely (c : Config) (s : State) : Prop :=
  ∀ (i : Nat) (call : Call) (rel owner : Bytes) (rest : List Task),
  s.calls[i]? = some call → call.todo = .release rel owner :: rest →
  ∀ r ∈ s.locks.rows, r ∉ (Locks.release s.locks c.item.id rel owner).rows → ¬ c.Relied s i r

/-! ### When locks are kept apart -/

/-- The promise made to an owner has not run out. -/
def State.holds (s : State) (k : Bytes × Bytes) : Bool := (s.held k).any fun e => decide (s.clock < e)

/-- No lock that is relied on has run out. -/
def Config.inTime (c : Config) (s : State) : Bool := s.locks.rows.all fun r =>
  decide (InForce r s.clock) || !(decide (r.vaultID = c.item.id) &&
    ((s.calls.any fun d => decide (d.running? = some (r.path, r.owner))) ||
      s.holds (r.path, r.owner)))

/-- A lock is acquired under a name that no request at work on the path has, nor, if it is to
be released, whoever holds it; a name is acquired or given up only when no request depends on
that. -/
def Config.taskApart (c : Config) (s : State) : Task → Bool
  | .getLock .. | .ensureMoveUnlocked .. => c.inTime s
  | .acquire _ rel owner release _ => c.inTime s &&
    (s.calls.all fun d => decide (d.engaged? ≠ some (rel, owner))) &&
    (!release || !s.holds (rel, owner))
  | .acquireFileLock rel owner => c.inTime s &&
    s.calls.all fun d => decide (d.releasing? ≠ some (rel, owner))
  | .releaseFileLock rel owner => s.calls.all fun d => decide (d.running? ≠ some (rel, owner))
  | _ => true

def State.next? (s : State) : Act → Option Task
  | .advance i => (s.calls[i]?).bind fun call => call.todo.head?
  | _ => none

def Config.ownersApart (c : Config) (s : State) (a : Act) : Bool :=
  (s.next? a).all fun task => c.taskApart s task

/-- No rename starts onto a path where a request is at work, and no change starts on a path
that is being renamed to. -/
def State.taskClear (s : State) : Task → Bool
  | .acquire _ rel _ _ change => s.calls.all fun d =>
    decide (d.target? ≠ some rel) && change.target?.all fun p => decide (¬ d.worksOn p)
  | _ => true

def Config.pathsApart (c : Config) (s : State) (a : Act) : Bool :=
  c.ownersApart s a && (s.next? a).all s.taskClear

/-! ### What a task does to the locks -/

/-- How a task leaves the lock table, the promises and its call. -/
inductive LockStep (c : Config) (s : State) (call' : Call) (s' : State) : Task → Prop
  | idle {task : Task} : call'.engaged? = none → s'.held = s.held →
      (s'.locks = s.locks ∨ s'.locks = cleanupExpired s.locks s.clock ∧
        (c.taskApart s task = true → c.inTime s = true)) → LockStep c s call' s' task
  | acquire {source : Source} {rel owner : Bytes} {release : Bool} {change : Change} {l : Lock} :
      call'.todo.head? = some (.run rel owner release change) → s'.held = s.held →
      Locks.acquire s.locks s.clock c.item.id rel owner source.text (c.ttl source) =
        (.ok l, s'.locks) → LockStep c s call' s' (.acquire source rel owner release change)
  | ran {rel owner : Bytes} {change : Change} :
      call'.todo.head? = some (.release rel owner) → s'.held = s.held → s'.locks = s.locks →
      LockStep c s call' s' (.run rel owner true change)
  | release {rel owner : Bytes} : call'.engaged? = none → s'.held = s.held →
      s'.locks = Locks.release s.locks c.item.id rel owner →
      LockStep c s call' s' (.release rel owner)
  | take {rel owner : Bytes} {l : Lock} : call'.engaged? = none →
      s'.held = Function.update s.held (rel, owner) (some l.expiresAt) →
      Locks.acquire s.locks s.clock c.item.id rel owner webSource c.lockTTL = (.ok l, s'.locks) →
      LockStep c s call' s' (.acquireFileLock rel owner)
  | give {rel owner : Bytes} : call'.engaged? = none →
      s'.held = Function.update s.held (rel, owner) none →
      s'.locks = Locks.release s.locks c.item.id rel owner →
      LockStep c s call' s' (.releaseFileLock rel owner)

/-- Only the next task of a call can have a lock to run under or to release. -/
def Tidy (rest : List Task) : Prop := ∀ t ∈ rest, t.engaged? = none

/-- A task of a call, seen from the locks. -/
structure Locked (c : Config) (s : State) (i : Nat) (task : Task) (s' : State) (call' : Call) :
    Prop where
  clock : s'.clock = s.clock
  calls : s'.calls = s.calls.set i call'
  tidy : Tidy call'.todo.tail
  step : LockStep c s call' s' task

section Tasks
variable {c : Config} {s s' : State} {i : Nat} {call : Call} {rest : List Task} {task : Task}

theorem engaged_none {todo : List Task} {d : Call} (h : Tidy todo) (hd : d.todo = todo) :
    d.engaged? = none := by
  subst hd
  unfold Call.engaged?
  cases hh : d.todo.head? with
  | none => rfl
  | some t => exact h t (List.mem_of_mem_head? hh)

theorem Tidy.tail {todo : List Task} (h : Tidy todo) : Tidy todo.tail :=
  fun t ht => h t (List.mem_of_mem_tail ht)

theorem tidy_nil : Tidy [] := by simp [Tidy]

theorem Tidy.cons {t : Task} (h : Tidy rest) (ht : t.engaged? = none) : Tidy (t :: rest) := by
  rintro u hu
  rcases List.mem_cons.mp hu with rfl | hu
  · exact ht
  · exact h u hu

/-- A task that leaves the locks alone. -/
theorem locked_goOn (s s' : State) {todo : List Task} (hclock : s'.clock = s.clock)
    (hcalls : s'.calls = s.calls) (hheld : s'.held = s.held) (hlocks : s'.locks = s.locks)
    (h : Tidy todo) : ∃ call', Locked c s i task (s'.goOn i call todo) call' :=
  ⟨{ call with todo := todo }, hclock, by simp [hcalls], h.tail,
    .idle (engaged_none h rfl) hheld (.inl hlocks)⟩

theorem locked_fail (c : Config) (s : State) (i : Nat) (call : Call) (task : Task) : ∃ call',
    Locked c s i task (s.fail i call []) call' :=
  ⟨{ call with todo := [], failed := true }, rfl, rfl, tidy_nil,
    .idle (engaged_none tidy_nil rfl) rfl (.inl rfl)⟩

theorem locked_if (ok : Prop) [Decidable ok] (h : Tidy rest) :
    ∃ call', Locked c s i task (if ok then s.goOn i call rest else s.fail i call []) call' := by
  split
  · exact locked_goOn s s rfl rfl rfl rfl h
  · exact locked_fail c s i call _

/-- A task that asks the lock service. -/
theorem locked_asking {α : Type} {res : Except Locks.Err α × FileLocks}
    {todo : α → Option (List Task)} (hres : res.2 = cleanupExpired s.locks s.clock)
    (htime : c.taskApart s task = true → c.inTime s = true)
    (htodo : ∀ a l, todo a = some l → Tidy l) :
    ∃ call', Locked c s i task (s.locking i call res todo) call' := by
  rcases locking_cases res todo with he | ⟨a, l, -, hl, he⟩
  · rw [he]
    exact ⟨{ call with todo := [], failed := true }, rfl, rfl, tidy_nil,
      .idle (engaged_none tidy_nil rfl) rfl (.inr ⟨hres, htime⟩)⟩
  · rw [he]
    exact ⟨{ call with todo := l }, rfl, rfl, (htodo a l hl).tail,
      .idle (engaged_none (htodo a l hl) rfl) rfl (.inr ⟨hres, htime⟩)⟩

/-- A lock that is not granted. -/
theorem locked_refused {e : Locks.Err} {t : FileLocks} {source owner rel : Bytes} {ttl : Int}
    (h : Locks.acquire s.locks s.clock c.item.id rel owner source ttl = (.error e, t))
    (htime : c.taskApart s task = true → c.inTime s = true) :
    ∃ call', Locked c s i task ({ s with locks := t }.fail i call []) call' :=
  ⟨{ call with todo := [], failed := true }, rfl, rfl, tidy_nil,
    .idle (engaged_none tidy_nil rfl) rfl ((acquire_error h).imp_right fun ht => ⟨ht, htime⟩)⟩

theorem perform_locked (c : Config) (s : State) (i : Nat) (call : Call) (h : Tidy rest)
    (task : Task) : ∃ call', Locked c s i task (c.perform s i call rest task) call' := by
  cases task with
  | absent rel =>
    simp only [Config.perform]
    rw [← ite_not]
    exact locked_if _ h
  | present rel => exact locked_if _ h
  | parentOk rel => exact locked_if _ h
  | statSource rel =>
    simp only [Config.perform]
    split
    · exact locked_fail c s i call _
    · exact locked_goOn s s rfl rfl rfl rfl (h.cons rfl)
  | ensureMoveUnlocked rel isDir =>
    simp only [Config.perform]
    split
    · refine locked_asking rfl id fun a l hl => ?_
      rw [← Option.some.inj (Option.ite_none_right_eq_some.mp hl).2]
      exact h
    · refine locked_asking (get_table ..) id fun a l hl => ?_
      rw [← Option.some.inj (Option.ite_none_right_eq_some.mp hl).2]
      exact h
  | statDestination rel owner release overwrite =>
    simp only [Config.perform]
    split
    · split
      · exact locked_goOn s s rfl rfl rfl rfl ((h.cons rfl).cons rfl)
      · exact locked_fail c s i call _
    · exact locked_goOn s s rfl rfl rfl rfl (h.cons rfl)
  | ensureVault =>
    simp only [Config.perform]
    split
    · exact locked_fail c s i call _
    · rename_i t _
      exact locked_goOn s { s with tree := t } rfl rfl rfl rfl h
  | transient rel change => exact locked_goOn s s rfl rfl rfl rfl (h.cons rfl)
  | getLock rel owner change =>
    simp only [Config.perform]
    refine locked_asking (get_table ..) id fun a l hl => ?_
    rw [← Option.some.inj hl]
    exact h.cons rfl
  | acquire source rel owner release change =>
    simp only [Config.perform, State.locking]
    cases hacq : Locks.acquire s.locks s.clock c.item.id rel owner source.text (c.ttl source) with
    | mk res t =>
      cases res with
      | error e =>
        refine locked_refused hacq fun hap => ?_
        simp only [Config.taskApart, Bool.and_eq_true] at hap
        exact hap.1.1
      | ok l =>
        exact ⟨{ call with todo := .run rel owner release change :: rest }, rfl, rfl, h,
          .acquire rfl rfl hacq⟩
  | run rel owner release change =>
    simp only [Config.perform]
    split
    · cases release with
      | false => exact locked_fail c s i call _
      | true => exact ⟨_, rfl, rfl, tidy_nil, .ran rfl rfl rfl⟩
    · rename_i t _
      cases release with
      | false => exact locked_goOn s { s with tree := t, log := _ } rfl rfl rfl rfl h
      | true => exact ⟨_, rfl, rfl, h, .ran rfl rfl rfl⟩
  | release rel owner =>
    exact ⟨{ call with todo := rest }, rfl, rfl, h.tail, .release (engaged_none h rfl) rfl rfl⟩
  | enqueue => exact locked_goOn s s rfl rfl rfl rfl h
  | acquireFileLock rel owner =>
    simp only [Config.perform]
    cases hacq : Locks.acquire s.locks s.clock c.item.id rel owner webSource c.lockTTL with
    | mk res t =>
      cases res with
      | error e =>
        refine locked_refused hacq fun hap => ?_
        simp only [Config.taskApart, Bool.and_eq_true] at hap
        exact hap.1
      | ok l =>
        exact ⟨{ call with todo := rest }, rfl, rfl, h.tail, .take (engaged_none h rfl) rfl hacq⟩
  | releaseFileLock rel owner =>
    exact ⟨{ call with todo := rest }, rfl, rfl, h.tail, .give (engaged_none h rfl) rfl rfl⟩

end Tasks

/-! ### Locks that are relied on stand -/

/-- The table has the lock of an owner on a path. -/
def Config.HasRow (c : Config) (t : FileLocks) (k : Bytes × Bytes) : Prop :=
  ∃ r ∈ t.rows, r.key = (c.item.id, k.1) ∧ r.owner = k.2

section Rows
variable {c : Config} {s : State} {t' : FileLocks} {k : Bytes × Bytes}

/-- A call runs under the lock, or its owner was promised it. -/
def State.Needs (s : State) (k : Bytes × Bytes) : Prop :=
  (∃ d ∈ s.calls, d.running? = some k) ∨ s.holds k = true

theorem inForce_of_needs (h : c.inTime s = true) {r : Row} (hr : r ∈ s.locks.rows)
    (hk : r.key = (c.item.id, k.1)) (ho : r.owner = k.2) (hn : s.Needs k) :
    InForce r s.clock := by
  have hrow := List.all_eq_true.mp h r hr
  obtain ⟨hid, hpath⟩ := Prod.mk.injEq .. ▸ hk
  have hkr : (r.path, r.owner) = k := Prod.ext hpath ho
  rw [hkr] at hrow
  have hneed : ((s.calls.any fun d => decide (d.running? = some k)) || s.holds k) = true := by
    rcases hn with ⟨d, hd, hrun⟩ | hheld
    · rw [Bool.or_eq_true, List.any_eq_true]
      exact .inl ⟨d, hd, decide_eq_true hrun⟩
    · rw [hheld, Bool.or_true]
  simpa [hneed, hid] using hrow

theorem Config.HasRow.cleanup (h : c.HasRow s.locks k) (ht : c.inTime s = true) (hn : s.Needs k) :
    c.HasRow (cleanupExpired s.locks s.clock) k := by
  obtain ⟨r, hr, hk, ho⟩ := h
  exact ⟨r, mem_cleanupExpired hr (inForce_of_needs ht hr hk ho hn), hk, ho⟩

theorem hasRow_acquired {rel owner source : Bytes} {ttl : Int} {l : Lock}
    (hacq : Locks.acquire s.locks s.clock c.item.id rel owner source ttl = (.ok l, t')) :
    c.HasRow t' (rel, owner) := by
  rw [(acquire_ok hacq).2.2.1]
  exact ⟨_, Keyed.mem_upsert.mpr (.inl rfl), rfl, rfl⟩

/-- A lock that is relied on survives the grant of another, or is what is granted. -/
theorem Config.HasRow.acquire (h : c.HasRow s.locks k) (ht : c.inTime s = true) (hn : s.Needs k)
    {rel owner source : Bytes} {ttl : Int} {l : Lock}
    (hacq : Locks.acquire s.locks s.clock c.item.id rel owner source ttl = (.ok l, t')) :
    c.HasRow t' k := by
  obtain ⟨r, hr, hk, ho⟩ := h
  have hf := inForce_of_needs ht hr hk ho hn
  by_cases he : r.owner = owner
  · by_cases hkey : r.key = (c.item.id, rel)
    · have hk' : k = (rel, owner) := by
        rw [hk] at hkey
        exact Prod.ext (Prod.mk.inj hkey).2 (ho.symm.trans he)
      rw [hk']
      exact hasRow_acquired hacq
    · refine ⟨r, ?_, hk, ho⟩
      rw [(acquire_ok hacq).2.2.1, Keyed.mem_upsert]
      exact .inr ⟨mem_cleanupExpired hr hf, hkey⟩
  · exact ⟨r, mem_acquire hacq hr he hf, hk, ho⟩

theorem Config.HasRow.release {t : FileLocks} (h : c.HasRow t k) {rel owner : Bytes}
    (hne : k ≠ (rel, owner)) : c.HasRow (Locks.release t c.item.id rel owner) k := by
  obtain ⟨r, hr, hk, ho⟩ := h
  refine ⟨r, ?_, hk, ho⟩
  rw [Locks.release, Keyed.mem_deleteWhere]
  refine ⟨hr, decide_eq_false fun hm => hne ?_⟩
  obtain ⟨-, hpath⟩ := Prod.mk.injEq .. ▸ hk
  exact Prod.ext (hpath.symm.trans hm.2.1) (ho.symm.trans hm.2.2)

end Rows

structure Kept (c : Config) (s : State) : Prop where
  tidy : ∀ d ∈ s.calls, Tidy d.todo.tail
  running : ∀ d ∈ s.calls, ∀ k, d.running? = some k → c.HasRow s.locks k
  held : ∀ k e, s.held k = some e → s.clock < e → c.HasRow s.locks k
  distinct : ∀ (i j : Nat) (d d' : Call) (k : Bytes × Bytes), i ≠ j → s.calls[i]? = some d →
    s.calls[j]? = some d' → d.engaged? = some k → d'.engaged? ≠ some k
  unheld : ∀ d ∈ s.calls, ∀ k, d.releasing? = some k → ∀ e, s.held k = some e → e ≤ s.clock

section Kept
variable {c : Config} {s s' : State} {i : Nat} {call' : Call} {task : Task}

theorem engaged_of_running {d : Call} {k : Bytes × Bytes} (h : d.running? = some k) :
    d.engaged? = some k := by
  obtain ⟨t, ht, hk⟩ := Option.bind_eq_some_iff.mp h
  refine Option.bind_eq_some_iff.mpr ⟨t, ht, ?_⟩
  cases t with
  | run rel owner release change => exact hk
  | _ => cases hk

theorem engaged_of_releasing {d : Call} {k : Bytes × Bytes} (h : d.releasing? = some k) :
    d.engaged? = some k := by
  obtain ⟨t, ht, hk⟩ := Option.bind_eq_some_iff.mp h
  refine Option.bind_eq_some_iff.mpr ⟨t, ht, ?_⟩
  cases t with
  | run rel owner release change =>
    cases release with
    | true => exact hk
    | false => cases hk
  | release rel owner => exact hk
  | _ => cases hk

theorem holds_iff {k : Bytes × Bytes} : s.holds k = true ↔ ∃ e, s.held k = some e ∧ s.clock < e := by
  simp [State.holds, Option.any_eq_true]

/-- What a task has to respect: the locks under which others run, and the promises. -/
theorem Kept.set (h : Kept c s) (hclock : s'.clock = s.clock) (hcalls : s'.calls = s.calls.set i call')
    (htidy : Tidy call'.todo.tail)
    (hself : ∀ k, call'.running? = some k → c.HasRow s'.locks k)
    (hothers : ∀ j d k, j ≠ i → s.calls[j]? = some d → d.running? = some k →
      c.HasRow s'.locks k)
    (hheld : ∀ k e, s'.held k = some e → s.clock < e → c.HasRow s'.locks k)
    (hdistinct : ∀ (j : Nat) (d : Call) (k : Bytes × Bytes), j ≠ i → s.calls[j]? = some d →
      call'.engaged? = some k → d.engaged? ≠ some k)
    (hfree : ∀ k, call'.releasing? = some k → ∀ e, s'.held k = some e → e ≤ s.clock)
    (hunheld : ∀ d ∈ s.calls, ∀ k, d.releasing? = some k → ∀ e, s'.held k = some e →
      e ≤ s.clock) : Kept c s' := by
  have hat : ∀ d ∈ s'.calls, d = call' ∨ ∃ j, j ≠ i ∧ s.calls[j]? = some d := by
    intro d hd
    rw [hcalls] at hd
    obtain ⟨j, hj⟩ := List.getElem?_of_mem hd
    rcases getElem?_set_cases hj with ⟨hne, hj⟩ | ⟨-, rfl⟩
    · exact .inr ⟨j, hne, hj⟩
    · exact .inl rfl
  refine ⟨fun d hd => ?_, fun d hd k hk => ?_, ?_, ?_, fun d hd k hk => ?_⟩
  · rcases hat d hd with rfl | ⟨j, -, hj⟩
    · exact htidy
    · exact h.tidy d (List.mem_of_getElem? hj)
  · rcases hat d hd with rfl | ⟨j, hne, hj⟩
    · exact hself k hk
    · exact hothers j d k hne hj hk
  · rwa [hclock]
  · intro j j' d d' k hne hj hj' hk hk'
    rw [hcalls] at hj hj'
    rcases getElem?_set_cases hj with ⟨hji, hjd⟩ | ⟨rfl, rfl⟩
    · rcases getElem?_set_cases hj' with ⟨-, hj'⟩ | ⟨-, rfl⟩
      · exact h.distinct j j' d d' k hne hjd hj' hk hk'
      · exact hdistinct j d k hji hjd hk' hk
    · rcases getElem?_set_cases hj' with ⟨hji, hj'⟩ | ⟨rfl, -⟩
      · exact hdistinct j' d' k hji hj' hk hk'
      · exact hne rfl
  · rw [hclock]
    rcases hat d hd with rfl | ⟨j, -, hj⟩
    · exact hfree k hk
    · exact hunheld d (List.mem_of_getElem? hj) k hk

/-- A call that neither runs nor releases puts nothing of its own at stake. -/
theorem Kept.idle (h : Kept c s) (hclock : s'.clock = s.clock) (hcalls : s'.calls = s.calls.set i call')
    (htidy : Tidy call'.todo.tail) (hidle : call'.engaged? = none)
    (hothers : ∀ j d k, j ≠ i → s.calls[j]? = some d → d.running? = some k →
      c.HasRow s'.locks k)
    (hheld : ∀ k e, s'.held k = some e → s.clock < e → c.HasRow s'.locks k)
    (hunheld : ∀ d ∈ s.calls, ∀ k, d.releasing? = some k → ∀ e, s'.held k = some e →
      e ≤ s.clock) : Kept c s' := by
  refine h.set hclock hcalls htidy (fun k hk => ?_) hothers hheld (fun j d k _ _ hk => ?_)
    (fun k hk => ?_) hunheld
  · rw [engaged_of_running hk] at hidle
    cases hidle
  · rw [hidle] at hk
    cases hk
  · rw [engaged_of_releasing hk] at hidle
    cases hidle

theorem engaged_of_head {d : Call} {t : Task} (h : d.todo.head? = some t) :
    d.engaged? = t.engaged? ∧ d.running? = t.running? ∧ d.releasing? = t.releasing? := by
  simp [Call.engaged?, Call.running?, Call.releasing?, h]

theorem Kept.locked (h : Kept c s) {call : Call} {rest : List Task} (hi : s.calls[i]? = some call)
    (htodo : call.todo = task :: rest) (hap : c.taskApart s task = true)
    (hl : Locked c s i task s' call') : Kept c s' := by
  have hhead : call.todo.head? = some task := by rw [htodo]; rfl
  have hneeds : ∀ {j : Nat} {d : Call} {k}, s.calls[j]? = some d → d.running? = some k → s.Needs k :=
    fun hj hk => .inl ⟨_, List.mem_of_getElem? hj, hk⟩
  have hlive : ∀ {k e}, s.held k = some e → s.clock < e → s.Needs k :=
    fun he hlt => .inr (holds_iff.mpr ⟨_, he, hlt⟩)
  have hrow : ∀ {j : Nat} {d : Call} {k}, s.calls[j]? = some d → d.running? = some k → c.HasRow s.locks k :=
    fun hj hk => h.running _ (List.mem_of_getElem? hj) _ hk
  obtain ⟨hclock, hcalls, htidy, hstep⟩ := hl
  cases hstep with
  | idle hidle hheld hlocks =>
    have hkeep : ∀ {k}, s.Needs k → c.HasRow s.locks k → c.HasRow s'.locks k := by
      intro k hn hk
      rcases hlocks with he | ⟨he, htime⟩
      · rwa [he]
      · rw [he]
        exact hk.cleanup (htime hap) hn
    refine h.idle hclock hcalls htidy hidle (fun j d k _ hj hk => ?_) (fun k e he hlt => ?_) ?_
    · exact hkeep (hneeds hj hk) (hrow hj hk)
    · rw [hheld] at he
      exact hkeep (hlive he hlt) (h.held k e he hlt)
    · rw [hheld]
      exact h.unheld
  | @acquire source rel owner release change l hnext hheld hacq =>
    simp only [Config.taskApart, Bool.and_eq_true, List.all_eq_true, decide_eq_true_eq,
      Bool.or_eq_true, Bool.not_eq_true'] at hap
    obtain ⟨⟨htime, hnone⟩, hrel⟩ := hap
    obtain ⟨heng, hrun, hreleasing⟩ := engaged_of_head hnext
    refine h.set hclock hcalls htidy (fun k hk => ?_) (fun j d k _ hj hk => ?_)
      (fun k e he hlt => ?_) (fun j d k _ hj hk hk' => ?_) (fun k hk e he => ?_) ?_
    · rw [hrun] at hk
      cases hk
      exact hasRow_acquired hacq
    · exact (hrow hj hk).acquire htime (hneeds hj hk) hacq
    · rw [hheld] at he
      exact (h.held k e he hlt).acquire htime (hlive he hlt) hacq
    · rw [heng] at hk
      cases hk
      exact hnone d (List.mem_of_getElem? hj) hk'
    · rw [hreleasing] at hk
      cases release with
      | false => cases hk
      | true =>
        cases hk
        rw [hheld] at he
        by_contra hlt
        have hholds := holds_iff.mpr ⟨e, he, not_le.mp hlt⟩
        rcases hrel with hf | hf
        · cases hf
        · rw [hf] at hholds
          cases hholds
    · rw [hheld]
      exact h.unheld
  | @ran rel owner change hnext hheld hlocks =>
    obtain ⟨heng, hrun, hreleasing⟩ := engaged_of_head hnext
    obtain ⟨heng₀, hrun₀, hreleasing₀⟩ := engaged_of_head hhead
    refine h.set hclock hcalls htidy (fun k hk => ?_) (fun j d k _ hj hk => ?_)
      (fun k e he hlt => ?_) (fun j d k hne hj hk hk' => ?_) (fun k hk e he => ?_) ?_
    · rw [hrun] at hk
      cases hk
    · rw [hlocks]
      exact hrow hj hk
    · rw [hlocks]
      exact h.held k e (hheld ▸ he) hlt
    · exact h.distinct i j call d k (Ne.symm hne) hi hj (by rw [heng₀, ← hk, heng]; rfl) hk'
    · exact h.unheld call (List.mem_of_getElem? hi) k (by rw [hreleasing₀, ← hk, hreleasing]; rfl)
        e (hheld ▸ he)
    · rw [hheld]
      exact h.unheld
  | @release rel owner hidle hheld hlocks =>
    obtain ⟨heng₀, -, hreleasing₀⟩ := engaged_of_head hhead
    refine h.idle hclock hcalls htidy hidle (fun j d k hne hj hk => ?_) (fun k e he hlt => ?_) ?_
    · rw [hlocks]
      refine (hrow hj hk).release fun hk' => ?_
      subst hk'
      exact h.distinct i j call d _ (Ne.symm hne) hi hj heng₀ (engaged_of_running hk)
    · rw [hheld] at he
      rw [hlocks]
      refine (h.held k e he hlt).release fun hk' => ?_
      subst hk'
      exact absurd hlt (not_lt.mpr (h.unheld call (List.mem_of_getElem? hi) _ hreleasing₀ e he))
    · rw [hheld]
      exact h.unheld
  | @take rel owner l hidle hheld hacq =>
    simp only [Config.taskApart, Bool.and_eq_true, List.all_eq_true, decide_eq_true_eq] at hap
    obtain ⟨htime, hnone⟩ := hap
    refine h.idle hclock hcalls htidy hidle (fun j d k _ hj hk => ?_) (fun k e he hlt => ?_)
      (fun d hd k hk e he => ?_)
    · exact (hrow hj hk).acquire htime (hneeds hj hk) hacq
    · rw [hheld] at he
      by_cases hk : k = (rel, owner)
      · rw [hk]
        exact hasRow_acquired hacq
      · rw [Function.update_of_ne hk] at he
        exact (h.held k e he hlt).acquire htime (hlive he hlt) hacq
    · rw [hheld] at he
      by_cases hk' : k = (rel, owner)
      · exact absurd (hk' ▸ hk) (hnone d hd)
      · rw [Function.update_of_ne hk'] at he
        exact h.unheld d hd k hk e he
  | @give rel owner hidle hheld hlocks =>
    simp only [Config.taskApart, List.all_eq_true, decide_eq_true_eq] at hap
    have hold : ∀ {k e}, s'.held k = some e → k ≠ (rel, owner) ∧ s.held k = some e := by
      intro k e he
      rw [hheld] at he
      by_cases hk : k = (rel, owner)
      · rw [hk, Function.update_self] at he
        cases he
      · exact ⟨hk, by rwa [Function.update_of_ne hk] at he⟩
    refine h.idle hclock hcalls htidy hidle (fun j d k _ hj hk => ?_) (fun k e he hlt => ?_)
      (fun d hd k hk e he => ?_)
    · rw [hlocks]
      refine (hrow hj hk).release fun hk' => ?_
      subst hk'
      exact hap d (List.mem_of_getElem? hj) hk
    · rw [hlocks]
      exact (h.held k e (hold he).2 hlt).release (hold he).1
    · exact h.unheld d hd k hk e (hold he).2

theorem davTasks_tidy {r : WebDAV.Request} {t : WebDAV.Target} {todo : List Task}
    (h : c.davTasks r t = some todo) : Tidy todo := by
  unfold Config.davTasks at h
  split at h
  · split at h
    · cases h
    · split at h
      · cases h
      · cases h
        simp [Tidy, Task.engaged?]
  · split at h
    · cases h
    · cases h
      simp [Tidy, Task.engaged?]
  · split at h
    · cases h
    · cases h
      simp [Tidy, Task.engaged?]
  · split at h
    · cases h
    · split at h
      · cases h
      · split at h
        · cases h
        · cases h
          simp [Tidy, Task.engaged?]
  · cases h
  · cases h

theorem tasks_tidy {r : Request} {todo : List Task} (h : c.tasks r = some todo) : Tidy todo := by
  have hweb : ∀ rel owner change, (Config.webChange rel owner change).engaged? = none := by
    intro rel owner change
    unfold Config.webChange
    split <;> rfl
  cases r with
  | writeTextFile relPath content owner | createTextFile relPath content owner
  | createDir relPath owner | deletePath relPath owner | restoreFileFromCommit hash relPath owner
  | acquireFileLock relPath owner | releaseFileLock relPath owner =>
    obtain ⟨rel, -, rfl⟩ := Option.map_eq_some_iff.mp h
    simp only [Tidy, List.forall_mem_cons, hweb]
    simp [Task.engaged?]
  | movePath fromPath toPath owner =>
    obtain ⟨src, -, h⟩ := Option.bind_eq_some_iff.mp h
    obtain ⟨dst, -, rfl⟩ := Option.map_eq_some_iff.mp h
    simp only [Tidy, List.forall_mem_cons, hweb]
    simp [Task.engaged?]
  | webdav r login =>
    simp only [Config.tasks] at h
    split at h
    · cases h
    · split at h
      · exact davTasks_tidy h
      · cases h

theorem kept_start (h : c.machine.init s) : Kept c s := by
  obtain ⟨hcalls, -, hheld⟩ := h
  exact ⟨by simp [hcalls], by simp [hcalls], hheld, by simp [hcalls], by simp [hcalls]⟩

theorem Kept.tick (h : Kept c s) {now : Instant} (hle : s.clock ≤ now) :
    Kept c { s with clock := now } :=
  ⟨h.tidy, h.running, fun k e he hlt => h.held k e he (lt_of_le_of_lt hle hlt), h.distinct,
    fun d hd k hk e he => (h.unheld d hd k hk e he).trans hle⟩

theorem Kept.enter (h : Kept c s) {r : Request} {todo : List Task} (ht : c.tasks r = some todo) :
    Kept c { s with calls := s.calls ++ [⟨r, todo, false⟩] } := by
  have hnone : ∀ {d : Call}, d = ⟨r, todo, false⟩ → d.engaged? = none := by
    rintro d rfl
    exact engaged_none (tasks_tidy ht) rfl
  have hmem : ∀ {d k}, d ∈ s.calls ++ [⟨r, todo, false⟩] → d.engaged? = some k → d ∈ s.calls := by
    intro d k hd hk
    rcases List.mem_append.mp hd with hd | hd
    · exact hd
    · rw [hnone (List.mem_singleton.mp hd)] at hk
      cases hk
  have hat : ∀ {j : Nat} {d : Call} {k}, (s.calls ++ [⟨r, todo, false⟩])[j]? = some d →
      d.engaged? = some k → s.calls[j]? = some d := by
    intro j d k hd hk
    rcases getElem?_concat_cases hd with hd | ⟨-, hd⟩
    · exact hd
    · rw [hnone hd] at hk
      cases hk
  refine ⟨fun d hd => ?_, fun d hd k hk => ?_, h.held, ?_, fun d hd k hk => ?_⟩
  · rcases List.mem_append.mp hd with hd | hd
    · exact h.tidy d hd
    · rw [List.mem_singleton.mp hd]
      exact (tasks_tidy ht).tail
  · exact h.running d (hmem hd (engaged_of_running hk)) k hk
  · exact fun j j' d d' k hne hj hj' hk hk' =>
      h.distinct j j' d d' k hne (hat hj hk) (hat hj' hk') hk hk'
  · exact h.unheld d (hmem hd (engaged_of_releasing hk)) k hk

theorem Kept.step {a : Act} (h : Kept c s) (hap : c.ownersApart s a = true)
    (hstep : c.step s a = some s') : Kept c s' := by
  rcases step_cases hstep with ⟨now, hle, rfl⟩ | ⟨r, todo, ht, rfl⟩ |
      ⟨i, call, task, rest, rfl, hi, htodo, rfl⟩ | ⟨i, call, rest, hi, htodo, rfl⟩
  · exact h.tick hle
  · exact h.enter ht
  · have htidy : Tidy rest := by
      have := h.tidy call (List.mem_of_getElem? hi)
      rwa [htodo] at this
    obtain ⟨call', hl⟩ := perform_locked c s i call htidy task
    refine h.locked hi htodo ?_ hl
    simpa [Config.ownersApart, State.next?, hi, htodo] using hap
  · obtain ⟨call', hl⟩ := locked_fail c s i call .enqueue
    exact h.locked hi htodo rfl hl

theorem kept (h : c.machine.ReachVia (fun s a => c.ownersApart s a = true) s) : Kept c s :=
  Machine.ReachVia.invariant (fun _ => kept_start) (fun _ _ _ h hg hs => h.step hg hs) h

/-- Two calls that run under the lock on one path run under one name. -/
theorem Kept.exclusive (h : Kept c s) : Exclusive s := by
  intro i j d d' k k' hij hi hj hk hk' hpath
  obtain ⟨r, hr, hkey, ho⟩ := h.running d (List.mem_of_getElem? hi) k hk
  obtain ⟨r', hr', hkey', ho'⟩ := h.running d' (List.mem_of_getElem? hj) k' hk'
  have hrr : r = r' := by
    have hget := Keyed.get?_of_mem hr
    rw [hkey, hpath, ← hkey', Keyed.get?_of_mem hr'] at hget
    exact (Option.some.inj hget).symm
  have hkk : k = k' := Prod.ext hpath (by rw [← ho, ← ho', hrr])
  exact h.distinct i j d d' k hij hi hj (engaged_of_running hk) (hkk ▸ engaged_of_running hk')

theorem Kept.releasesSafely (h : Kept c s) : c.ReleasesSafely s := by
  rintro i call rel owner rest hi htodo r hr hgone ⟨hid, hrel⟩
  obtain ⟨heng, -, hreleasing⟩ := engaged_of_head (d := call) (t := .release rel owner)
    (by rw [htodo]; rfl)
  have hk : (r.path, r.owner) = (rel, owner) := by
    by_contra hne
    rw [Locks.release, Keyed.mem_deleteWhere] at hgone
    refine hgone ⟨hr, decide_eq_false fun hm => hne (Prod.ext hm.2.1 hm.2.2)⟩
  rw [hk] at hrel
  rcases hrel with ⟨j, d, hne, hj, hrun⟩ | ⟨e, he, hlt⟩
  · exact h.distinct i j call d _ (Ne.symm hne) hi hj heng (engaged_of_running hrun)
  · exact absurd hlt (not_lt.mpr (h.unheld call (List.mem_of_getElem? hi) _ hreleasing e he))

/-! ### The new paths of renames -/

/-- Where a rename is going, nobody else is at work. -/
def Targets (s : State) : Prop := ∀ (i j : Nat) (d d' : Call) (p : Bytes), i ≠ j →
  s.calls[i]? = some d → s.calls[j]? = some d' → d.target? = some p → ¬ d'.worksOn p

theorem target_of_idle {d : Call} (h : d.running? = none) : d.target? = none := by
  unfold Call.running? at h
  unfold Call.target?
  cases hh : d.todo.head? with
  | none => rfl
  | some t =>
    rw [hh] at h
    cases t with
    | run rel owner release change => cases h
    | _ => rfl

/-- A call that comes to run is one that was granted its lock. -/
theorem Locked.running_cases (hl : Locked c s i task s' call') : call'.running? = none ∨
    ∃ source rel owner release change, task = .acquire source rel owner release change ∧
      call'.running? = some (rel, owner) ∧ call'.target? = change.target? := by
  have hidle : call'.engaged? = none → call'.running? = none := by
    intro hn
    cases hr : call'.running? with
    | none => rfl
    | some k => rw [engaged_of_running hr] at hn; cases hn
  obtain ⟨-, -, -, hstep⟩ := hl
  cases hstep with
  | idle hn | release hn | take hn | give hn => exact .inl (hidle hn)
  | @acquire source rel owner release change l hnext =>
    exact .inr ⟨source, rel, owner, release, change, rfl, (engaged_of_head hnext).2.1,
      by simp [Call.target?, hnext, Task.target?]⟩
  | ran hnext => exact .inl (engaged_of_head hnext).2.1

theorem Targets.locked (h : Targets s)
    (hclear : s.taskClear task = true) (hl : Locked c s i task s' call') : Targets s' := by
  have hnew : ∀ (j : Nat) (d : Call) (p : Bytes), j ≠ i → s.calls[j]? = some d →
      (call'.target? = some p → ¬ d.worksOn p) ∧ (d.target? = some p → ¬ call'.worksOn p) := by
    intro j d p hne hj
    rcases hl.running_cases with hrun | ⟨source, rel, owner, release, change, rfl, hrun, htarget⟩
    · have htarget := target_of_idle hrun
      exact ⟨by simp [htarget], by simp [Call.worksOn, hrun, htarget]⟩
    · simp only [State.taskClear, List.all_eq_true, Bool.and_eq_true, decide_eq_true_eq] at hclear
      obtain ⟨hrel, htgt⟩ := hclear d (List.mem_of_getElem? hj)
      rw [htarget]
      have hclash : change.target? = some p → ¬ d.worksOn p := by
        intro hp
        simpa [hp] using htgt
      refine ⟨hclash, fun hd hw => ?_⟩
      rcases hw with hw | hw
      · rw [hrun] at hw
        exact hrel (hd.trans hw.symm)
      · exact hclash (htarget ▸ hw) (.inr hd)
  intro j j' d d' p hne hj hj' hp
  rw [hl.calls] at hj hj'
  rcases getElem?_set_cases hj with ⟨hji, hjd⟩ | ⟨rfl, rfl⟩
  · rcases getElem?_set_cases hj' with ⟨-, hj'⟩ | ⟨-, rfl⟩
    · exact h j j' d d' p hne hjd hj' hp
    · exact (hnew j d p hji hjd).2 hp
  · rcases getElem?_set_cases hj' with ⟨hji, hj'⟩ | ⟨rfl, -⟩
    · exact (hnew j' d' p hji hj').1 hp
    · exact absurd rfl hne

theorem Targets.enter (h : Targets s) {r : Request} {todo : List Task}
    (ht : c.tasks r = some todo) :
    Targets { s with calls := s.calls ++ [⟨r, todo, false⟩] } := by
  have hidle : (Call.mk r todo false).running? = none := by
    cases hr : (Call.mk r todo false).running? with
    | none => rfl
    | some k =>
      have hnone := engaged_none (d := ⟨r, todo, false⟩) (tasks_tidy ht) rfl
      rw [engaged_of_running hr] at hnone
      cases hnone
  intro j j' d d' p hne hj hj' hp hw
  rcases getElem?_concat_cases hj with hj | ⟨-, rfl⟩
  · rcases getElem?_concat_cases hj' with hj' | ⟨-, rfl⟩
    · exact h j j' d d' p hne hj hj' hp hw
    · simp [Call.worksOn, hidle, target_of_idle hidle] at hw
  · rw [target_of_idle hidle] at hp
    cases hp

theorem Targets.step {a : Act} (hk : Kept c s) (h : Targets s) (hpaths : c.pathsApart s a = true)
    (hstep : c.step s a = some s') : Targets s' := by
  rcases step_cases hstep with ⟨now, hle, rfl⟩ | ⟨r, todo, ht, rfl⟩ |
      ⟨i, call, task, rest, rfl, hi, htodo, rfl⟩ | ⟨i, call, rest, hi, htodo, rfl⟩
  · exact h
  · exact h.enter ht
  · have htidy : Tidy rest := by
      have := hk.tidy call (List.mem_of_getElem? hi)
      rwa [htodo] at this
    obtain ⟨call', hl⟩ := perform_locked c s i call htidy task
    refine h.locked ?_ hl
    have hclear := ((Bool.and_eq_true ..).mp hpaths).2
    simpa [State.next?, hi, htodo] using hclear
  · obtain ⟨call', hl⟩ := locked_fail c s i call .enqueue
    exact h.locked rfl hl

theorem targets (h : c.machine.ReachVia (fun s a => c.pathsApart s a = true) s) :
    Kept c s ∧ Targets s := by
  have hstart : ∀ s, c.machine.init s → Kept c s ∧ Targets s :=
    fun s hs => ⟨kept_start hs, by simp [Targets, hs.1]⟩
  have hstep : ∀ s a t, Kept c s ∧ Targets s → c.pathsApart s a = true →
      c.machine.step s a = some t → Kept c t ∧ Targets t := by
    rintro s a t ⟨hk, ht⟩ hpaths hs
    exact ⟨hk.step ((Bool.and_eq_true ..).mp hpaths).1 hs, ht.step hk hpaths hs⟩
  exact Machine.ReachVia.invariant hstart hstep h

theorem Targets.disjoint (h : Targets s) (he : Exclusive s) : Disjoint s := by
  intro i j d d' p hij hi hj hw hw'
  rcases hw with hw | hw
  · rcases hw' with hw' | hw'
    · obtain ⟨k, hk, rfl⟩ := Option.map_eq_some_iff.mp hw
      obtain ⟨k', hk', hp⟩ := Option.map_eq_some_iff.mp hw'
      exact he i j d d' k k' hij hi hj hk hk' hp.symm
    · exact h j i d' d p (Ne.symm hij) hj hi hw' (.inl hw)
  · exact h i j d d' p hij hi hj hw hw'

/-- While names on a path are kept apart and locks last, changes under the lock on a path
exclude each other and no release removes a lock that others rely on. With the new paths of
renames kept clear too, no two changes work on one path. -/
theorem changes_exclude (c : Config) (s : State) :
    (c.machine.ReachVia (fun s a => c.ownersApart s a = true) s →
      Exclusive s ∧ c.ReleasesSafely s) ∧
    (c.machine.ReachVia (fun s a => c.pathsApart s a = true) s →
      Disjoint s ∧ c.ReleasesSafely s) := by
  refine ⟨fun h => ⟨(kept h).exclusive, (kept h).releasesSafely⟩, fun h => ?_⟩
  obtain ⟨hk, ht⟩ := targets h
  exact ⟨ht.disjoint hk.exclusive, hk.releasesSafely⟩

def writeNote (name : String) : Request := .writeTextFile (utf8 name) (utf8 "text") []

/-- Two notes are written at one time. -/
theorem changes_exclude_notes : ∃ s,
    noteConfig.machine.ReachVia (fun s a => noteConfig.pathsApart s a = true) s ∧
    (∀ call ∈ s.calls, call.running?.isSome) ∧ s.calls.length = 2 ∧
    Exclusive s ∧ Disjoint s ∧ noteConfig.ReleasesSafely s := by
  obtain ⟨s, hrun, hp⟩ := (Option.any_eq_true _ _).mp
    (show ((noteConfig.machine.runVia (fun s a => noteConfig.pathsApart s a = true) noteStart
      [.enter (writeNote "a.md"), .enter (writeNote "b.md"), .advance 0, .advance 0, .advance 1,
        .advance 1]).any fun s => decide ((∀ call ∈ s.calls, call.running?.isSome) ∧
          s.calls.length = 2)) = true by decide +kernel)
  obtain ⟨hall, hlen⟩ := of_decide_eq_true hp
  have hpaths : noteConfig.machine.ReachVia (fun s a => noteConfig.pathsApart s a = true) s :=
    (Machine.ReachVia.init noteStart_init).run (fun _ _ h => h) _ hrun
  have howners : noteConfig.machine.ReachVia (fun s a => noteConfig.ownersApart s a = true) s :=
    (Machine.ReachVia.init noteStart_init).run (fun _ _ h => ((Bool.and_eq_true ..).mp h).1) _ hrun
  exact ⟨s, hpaths, hall, hlen, ((changes_exclude noteConfig s).1 howners).1,
    (changes_exclude noteConfig s).2 hpaths⟩

def putNote : Request :=
  .webdav ⟨.put, utf8 "/notes/c.md", [], [], [], [], some (utf8 "text")⟩ (utf8 "alice")

/-- Two uploads of one user have one name: they run at one time, and the first to end takes the
lock from the other. -/
theorem uploads_share_lock : (∃ s, noteConfig.machine.Reach s ∧ ¬ Exclusive s) ∧
    ∃ s, noteConfig.machine.Reach s ∧ ¬ noteConfig.ReleasesSafely s := by
  have hinit : noteConfig.machine.Reach noteStart := .init noteStart_init
  constructor
  · obtain ⟨s, hs, hp⟩ := hinit.run_any
      [.enter putNote, .enter putNote, .advance 0, .advance 1]
      (p := fun s : State => [0, 1].all fun i => (s.calls[i]?).any fun call : Call =>
        decide (call.running? = some (utf8 "c.md", utf8 "webdav:alice:PUT"))) (by decide +kernel)
    simp only [List.all_cons, List.all_nil, Option.any_eq_true, decide_eq_true_eq,
      Bool.and_eq_true, and_true] at hp
    obtain ⟨⟨d, hd, hk⟩, d', hd', hk'⟩ := hp
    exact ⟨s, hs, fun he => he 0 1 d d' _ _ (by decide) hd hd' hk hk' rfl⟩
  · obtain ⟨s, hs, hp⟩ := hinit.run_any
      [.enter putNote, .enter putNote, .advance 0, .advance 1, .advance 0]
      (p := fun s : State => ((s.calls[0]?).any fun call : Call =>
          decide (call.todo = [.release (utf8 "c.md") (utf8 "webdav:alice:PUT")])) &&
        ((s.calls[1]?).any fun call : Call =>
          decide (call.running? = some (utf8 "c.md", utf8 "webdav:alice:PUT"))) &&
        s.locks.rows.any fun r => decide (r.vaultID = 1 ∧ r.path = utf8 "c.md" ∧
          r.owner = utf8 "webdav:alice:PUT")) (by decide +kernel)
    simp only [Option.any_eq_true, decide_eq_true_eq, Bool.and_eq_true, List.any_eq_true] at hp
    obtain ⟨⟨⟨d, hd, htodo⟩, d', hd', hk'⟩, r, hr, hid, hpath, ho⟩ := hp
    refine ⟨s, hs, fun hsafe => hsafe 0 d _ _ [] hd htodo r hr (fun hmem => ?_)
      ⟨hid, .inl ⟨1, d', by decide, hd', by rw [hpath, ho]; exact hk'⟩⟩⟩
    rw [Locks.release, Keyed.mem_deleteWhere] at hmem
    exact absurd hmem.2 (by simp [mine, noteConfig, hid, hpath, ho])

end Kept
end Mdock.App.Requests
