import Mdock.App.Requests
import Mdock.Vault.Found

/-! Creating a file and moving one, with other requests at work. Both look for a file in
their way before they have a lock; what appears there after the look is overwritten. -/
namespace Mdock.App.Requests
open Mdock.Go Mdock.Lib Mdock.Vault Mdock.Locks Mdock.Store

/-- `CreateTextFile` and `MovePath`, which refuse to overwrite. -/
def Request.makes : Request → Bool
  | .createTextFile .. | .movePath .. => true
  | _ => false

/-- The path a `CreateTextFile` is for. -/
def Request.creates : Request → Option Bytes
  | .createTextFile relPath _ _ => Config.clean relPath
  | _ => none

/-- The path at which a change puts something. -/
def Change.target (rel : Bytes) : Change → Bytes
  | .rename newRel => newRel
  | _ => rel

def Change.removes : Change → Bool
  | .delete | .rename _ | .restore _ => true
  | .write _ | .mkdir => false

def Config.isFile (c : Config) (t : FileTree) (rel : Bytes) : Bool :=
  c.vaultService.isFile t.tree c.item.path rel

def Config.fileAt (c : Config) (t : FileTree) (rel : Bytes) : Option Loc :=
  c.vaultService.fileAt t.tree c.item.path rel

/-- Files that exist keep their content or are moved away. -/
def Event.Keeps (e : Event) : Prop := ∀ l d, e.before.tree.file l = some d →
  e.after.tree.file l = some d ∨ e.after.tree.node l = none

/-- The file that was there under a path is deleted or moved away. -/
def Event.Frees (c : Config) (rel : Bytes) (e : Event) : Prop :=
  e.change.removes = true ∧ (c.fileAt e.before rel).isSome ∧ c.fileAt e.after rel = none

def State.Succeeded (s : State) (i : Nat) (call : Call) : Prop :=
  s.calls[i]? = some call ∧ call.todo = [] ∧ call.failed = false

/-- No file is overwritten by a request that makes one or moves one. -/
def NoOverwrite (s : State) : Prop := ∀ e ∈ s.log, e.request.makes = true → e.Keeps

/-- Between two requests that created a file under one path, that path was freed. -/
def OneCreate (c : Config) (s : State) : Prop := ∀ i j call call' rel, i ≠ j →
  s.Succeeded i call → s.Succeeded j call' →
  call.request.creates = some rel → call'.request.creates = some rel →
  ∃ (a b k : Nat) (e f g : Event), s.log[a]? = some e ∧ s.log[b]? = some f ∧ s.log[k]? = some g ∧
    e.call = i ∧ f.call = j ∧ (a < k ∧ k < b ∨ b < k ∧ k < a) ∧ g.Frees c rel

/-- The look for a file in the way would have the same answer at the write or the rename. -/
def Config.free (c : Config) (s : State) : Act → Bool
  | .advance i =>
    match s.calls[i]? with
    | some call =>
      match call.todo with
      | .run rel _ _ change :: _ => !call.request.makes || !c.isFile s.tree (change.target rel)
      | _ => true
    | none => true
  | _ => true

/-! ### What a task can do -/

/-- The change a task leads to. -/
def Task.change? : Task → Option (Bytes × Change)
  | .transient rel change | .getLock rel _ change => some (rel, change)
  | .acquire _ rel _ _ change | .run rel _ _ change => some (rel, change)
  | .statDestination rel _ _ _ => some (rel, .delete)
  | _ => none

/-- The changes that belong to a request. -/
def Asks (r : Request) (p : Bytes × Change) : Prop :=
  match r with
  | .createTextFile relPath content _ => Config.clean relPath = some p.1 ∧ p.2 = .write content
  | .movePath fromPath toPath _ => Config.clean fromPath = some p.1 ∧
      ∃ dst, Config.clean toPath = some dst ∧ p.2 = .rename dst
  | _ => True

def Pending (todo : List Task) : Prop := ∃ task ∈ todo, ∃ p, task.change? = some p

section Steps
variable {c : Config} {s s' : State} {i : Nat} {call : Call} {rest : List Task} {task : Task}

/-- What performing a task comes to: no new change is asked for, and one that was asked for is
still to come, has failed, or is made. -/
structure Moved (c : Config) (s : State) (i : Nat) (call : Call) (task : Task) (rest : List Task)
    (s' : State) (call' : Call) : Prop where
  calls : s'.calls = s.calls.set i call'
  request : call'.request = call.request
  failed : call.failed = true → call'.failed = true
  asked : ∀ t ∈ call'.todo, t ∈ rest ∨ t.change? = none ∨ t.change? = task.change?
  rest : call'.failed = false → ∀ t ∈ rest, t ∈ call'.todo
  effect : (s.tree.tree.Extends s'.tree.tree ∧ s'.log = s.log ∧ (call'.failed = false →
        ∀ p, task.change? = some p → p.2 = .delete ∨ ∃ t ∈ call'.todo, t.change? = some p)) ∨
      ∃ rel owner release change t, task = .run rel owner release change ∧
        c.change rel s.tree change = some t ∧ s'.tree = t ∧
        s'.log = s.log ++ [⟨i, call.request, rel, change, s.tree, t⟩]

theorem moved_fail (s s' : State) (h : s'.calls = s.calls) (ht : s'.tree = s.tree) (hl : s'.log = s.log)
    {todo : List Task} (htodo : ∀ t ∈ todo, t.change? = none) :
    Moved c s i call task rest (s'.fail i call todo)
      { call with todo := todo, failed := true } where
  calls := by simp [h]
  request := rfl
  failed _ := rfl
  asked t ht := .inr (.inl (htodo t ht))
  rest hf := by cases hf
  effect := .inl ⟨by simp [ht, Tree.Extends.refl], hl, fun hf => by cases hf⟩

theorem moved_goOn (s s' : State) (new : List Task) (h : s'.calls = s.calls)
    (ht : s.tree.tree.Extends s'.tree.tree) (hl : s'.log = s.log)
    (hnew : ∀ t ∈ new, t.change? = none ∨ t.change? = task.change?)
    (hold : ∀ p, task.change? = some p → p.2 = .delete ∨ ∃ t ∈ new, t.change? = some p) :
    Moved c s i call task rest (s'.goOn i call (new ++ rest))
      { call with todo := new ++ rest } where
  calls := by simp [h]
  request := rfl
  failed hf := hf
  asked t ht := (List.mem_append.mp ht).symm.imp_right (hnew t)
  rest _ t ht := List.mem_append_right new ht
  effect := .inl ⟨ht, hl, fun _ p hp => (hold p hp).imp_right fun ⟨t, ht, he⟩ =>
    ⟨t, List.mem_append_left rest ht, he⟩⟩

/-- A task with a call of the lock service. -/
theorem moved_locking {α : Type} (res : Except Locks.Err α × FileLocks)
    {todo : α → Option (List Task)} (htodo : ∀ a l, todo a = some l → ∃ new, l = new ++ rest ∧
      (∀ t ∈ new, t.change? = none ∨ t.change? = task.change?) ∧
      ∀ p, task.change? = some p → ∃ t ∈ new, t.change? = some p) :
    ∃ call', Moved c s i call task rest (s.locking i call res todo) call' := by
  rcases locking_cases res todo with he | ⟨a, l, -, hl, he⟩
  · rw [he]
    exact ⟨_, moved_fail s { s with locks := res.2 } rfl rfl rfl (by simp)⟩
  · obtain ⟨new, rfl, hnew, hold⟩ := htodo a l hl
    rw [he]
    exact ⟨_, moved_goOn s { s with locks := res.2 } new rfl (.refl _) rfl hnew
      fun p hp => .inr (hold p hp)⟩

theorem after_change (rel owner : Bytes) (release : Bool) :
    ∀ t ∈ Config.after rel owner release, t.change? = none := by
  unfold Config.after
  split <;> simp [Task.change?]

/-- A check that lets the call go on or fails it. -/
theorem moved_check (ok : Prop) [Decidable ok] (h : task.change? = none) :
    ∃ call', Moved c s i call task rest (if ok then s.goOn i call rest else s.fail i call [])
      call' := by
  split
  · exact ⟨_, moved_goOn s s [] rfl (.refl _) rfl (by simp) (by simp [h])⟩
  · exact ⟨_, moved_fail s s rfl rfl rfl (by simp)⟩

theorem perform_moved (c : Config) (s : State) (i : Nat) (call : Call) (rest : List Task)
    (task : Task) : ∃ call', Moved c s i call task rest (c.perform s i call rest task) call' := by
  cases task with
  | absent rel =>
    simp only [Config.perform]
    rw [← ite_not]
    exact moved_check _ rfl
  | present rel => exact moved_check _ rfl
  | parentOk rel => exact moved_check _ rfl
  | statSource rel =>
    simp only [Config.perform]
    split
    · exact ⟨_, moved_fail s s rfl rfl rfl (by simp)⟩
    · exact ⟨_, moved_goOn s s [_] rfl (.refl _) rfl (by simp [Task.change?])
        (by simp [Task.change?])⟩
  | ensureMoveUnlocked rel isDir =>
    simp only [Config.perform]
    split
    · refine moved_locking _ fun a l hl => ⟨[], ?_, by simp, by simp [Task.change?]⟩
      simpa using (Option.ite_none_right_eq_some.mp hl).2.symm
    · refine moved_locking _ fun a l hl => ⟨[], ?_, by simp, by simp [Task.change?]⟩
      simpa using (Option.ite_none_right_eq_some.mp hl).2.symm
  | statDestination rel owner release overwrite =>
    simp only [Config.perform]
    split
    · split
      · exact ⟨_, moved_goOn s s [_, _] rfl (.refl _) rfl (by simp [Task.change?])
          (by simp [Task.change?])⟩
      · exact ⟨_, moved_fail s s rfl rfl rfl (by simp)⟩
    · exact ⟨_, moved_goOn s s [_] rfl (.refl _) rfl (by simp [Task.change?])
        (by simp [Task.change?])⟩
  | ensureVault =>
    simp only [Config.perform]
    split
    · exact ⟨_, moved_fail s s rfl rfl rfl (by simp)⟩
    · rename_i t ht
      exact ⟨_, moved_goOn s { s with tree := t } [] rfl
        (FileTree.ensureVault_extends ht) rfl (by simp) (by simp [Task.change?])⟩
  | transient rel change =>
    exact ⟨_, moved_goOn s s [_] rfl (.refl _) rfl (by simp [Task.change?])
      (by simp [Task.change?])⟩
  | getLock rel owner change =>
    refine moved_locking _ fun a l hl => ⟨[_], (Option.some.inj hl).symm, ?_, ?_⟩ <;>
      simp [Task.change?]
  | acquire source rel owner release change =>
    refine moved_locking _ fun a l hl => ⟨[_], (Option.some.inj hl).symm, ?_, ?_⟩ <;>
      simp [Task.change?]
  | run rel owner release change =>
    simp only [Config.perform]
    split
    · exact ⟨_, moved_fail s s rfl rfl rfl (after_change rel owner release)⟩
    · rename_i t ht
      refine ⟨{ call with todo := Config.after rel owner release ++ rest }, rfl, rfl, id, ?_, ?_, ?_⟩
      · intro u hu
        exact (List.mem_append.mp hu).symm.imp_right fun h => .inl (after_change _ _ _ u h)
      · exact fun _ u hu => List.mem_append_right _ hu
      · exact .inr ⟨rel, owner, release, change, t, rfl, ht, rfl, rfl⟩
  | release rel owner =>
    exact ⟨_, moved_goOn s { s with locks := _ } [] rfl (.refl _) rfl (by simp)
      (by simp [Task.change?])⟩
  | enqueue =>
    exact ⟨_, moved_goOn s s [] rfl (.refl _) rfl (by simp) (by simp [Task.change?])⟩
  | acquireFileLock rel owner =>
    simp only [Config.perform]
    split
    · rename_i t _
      exact ⟨_, moved_fail s { s with locks := t } rfl rfl rfl (by simp)⟩
    · exact ⟨_, moved_goOn s { s with locks := _, held := _ } [] rfl (.refl _) rfl
        (by simp) (by simp [Task.change?])⟩
  | releaseFileLock rel owner =>
    exact ⟨_, moved_goOn s { s with locks := _, held := _ } [] rfl (.refl _) rfl
      (by simp) (by simp [Task.change?])⟩

/-- A refusal is a task that fails. -/
theorem refuse_moved : Moved c s i call .enqueue rest (s.fail i call [])
    { call with todo := [], failed := true } := moved_fail s s rfl rfl rfl (by simp)

/-- Every call stays where it is and keeps its request. -/
theorem Moved.request_at {call' : Call} (h : Moved c s i call task rest s' call')
    (hi : s.calls[i]? = some call) {j : Nat} {d : Call} (hj : s.calls[j]? = some d) :
    ∃ d', s'.calls[j]? = some d' ∧ d'.request = d.request := by
  rw [h.calls]
  by_cases hij : i = j
  · subst hij
    rw [hi] at hj
    obtain rfl := Option.some.inj hj
    exact ⟨call', by rw [List.getElem?_set_self' , hi]; rfl, h.request⟩
  · exact ⟨d, by rwa [List.getElem?_set_ne hij], rfl⟩

end Steps

/-! ### What holds in every run -/

/-- Calls ask for the changes of their requests and make no others; a call that creates a file
does not succeed without. -/
structure Sound (s : State) : Prop where
  asked : ∀ call ∈ s.calls, ∀ t ∈ call.todo, ∀ p, t.change? = some p → Asks call.request p
  made : ∀ e ∈ s.log, Asks e.request (e.rel, e.change) ∧
    ∃ call, s.calls[e.call]? = some call ∧ call.request = e.request
  wrote : ∀ i call rel, s.calls[i]? = some call → call.request.creates = some rel →
    call.failed = false → Pending call.todo ∨ ∃ e ∈ s.log, e.call = i

section Sound
variable {c : Config} {s s' : State} {i : Nat} {call call' : Call} {rest : List Task} {task : Task}

/-- A call that creates a file writes it. -/
theorem creates_asks {r : Request} {rel path : Bytes} {change : Change}
    (hc : r.creates = some rel) (hp : Asks r (path, change)) :
    path = rel ∧ ∃ content, change = .write content := by
  cases r with
  | createTextFile relPath content owner =>
    obtain ⟨hrel, hw⟩ := hp
    exact ⟨Option.some.inj (hrel.symm.trans hc), content, hw⟩
  | _ => cases hc

theorem makes_of_creates {r : Request} {rel : Bytes} (hc : r.creates = some rel) :
    r.makes = true := by
  cases r with
  | createTextFile relPath content owner => rfl
  | _ => cases hc

theorem webChange_asks (rel owner : Bytes) (change : Change) :
    (Config.webChange rel owner change).change? = some (rel, change) := by
  unfold Config.webChange
  split <;> rfl

theorem tasks_ask {r : Request} {todo : List Task} (h : c.tasks r = some todo) :
    (∀ t ∈ todo, ∀ p, t.change? = some p → Asks r p) ∧
      (r.creates.isSome → Pending todo) := by
  cases r with
  | createTextFile relPath content owner =>
    obtain ⟨rel, hrel, rfl⟩ := Option.map_eq_some_iff.mp h
    constructor
    · intro t ht p hp
      simp only [List.mem_cons, List.not_mem_nil, or_false] at ht
      rcases ht with rfl | rfl | rfl | rfl
      · cases hp
      · rw [webChange_asks] at hp
        cases hp
        exact ⟨hrel, rfl⟩
      · cases hp
      · cases hp
    · exact fun _ => ⟨_, List.mem_cons_of_mem _ (List.mem_cons_self ..), _, webChange_asks ..⟩
  | movePath fromPath toPath owner =>
    obtain ⟨src, hsrc, h⟩ := Option.bind_eq_some_iff.mp h
    obtain ⟨dst, hdst, rfl⟩ := Option.map_eq_some_iff.mp h
    refine ⟨fun t ht p hp => ?_, by simp [Request.creates]⟩
    simp only [List.mem_cons, List.not_mem_nil, or_false] at ht
    rcases ht with rfl | rfl | rfl | rfl
    · cases hp
    · cases hp
    · rw [webChange_asks] at hp
      cases hp
      exact ⟨hsrc, dst, hdst, rfl⟩
    · cases hp
  | _ => exact ⟨fun _ _ _ _ => trivial, by simp [Request.creates]⟩

theorem Sound.enter (h : Sound s) {r : Request} {todo : List Task} (ht : c.tasks r = some todo) :
    Sound { s with calls := s.calls ++ [⟨r, todo, false⟩] } where
  asked d hd := by
    rcases List.mem_append.mp hd with hd | hd
    · exact h.asked d hd
    · obtain rfl := List.mem_singleton.mp hd
      exact (tasks_ask ht).1
  made e he := by
    obtain ⟨ha, d, hd, hr⟩ := h.made e he
    refine ⟨ha, d, ?_, hr⟩
    rw [List.getElem?_append_left (List.getElem?_eq_some_iff.mp hd).1]
    exact hd
  wrote j d rel hd hc hf := by
    rcases getElem?_concat_cases hd with hd | ⟨-, rfl⟩
    · exact h.wrote j d rel hd hc hf
    · exact .inl ((tasks_ask ht).2 (by rw [hc]; rfl))

theorem Moved.log_old (h : Moved c s i call task rest s' call') {e : Event} (he : e ∈ s.log) :
    e ∈ s'.log := by
  rcases h.effect with ⟨-, hl, -⟩ | ⟨rel, owner, release, change, t, -, -, -, hl⟩
  · rwa [hl]
  · rw [hl]
    exact List.mem_append_left _ he

theorem Sound.moved (h : Sound s) (hm : Moved c s i call task rest s' call')
    (hi : s.calls[i]? = some call) (htodo : call.todo = task :: rest) : Sound s' where
  asked d hd t ht p hp := by
    rw [hm.calls] at hd
    rcases List.mem_or_eq_of_mem_set hd with hd | rfl
    · exact h.asked d hd t ht p hp
    · have hcall := h.asked call (List.mem_of_getElem? hi)
      rw [hm.request]
      rcases hm.asked t ht with hr | hn | he
      · exact hcall t (by rw [htodo]; exact List.mem_cons_of_mem task hr) p hp
      · rw [hn] at hp
        cases hp
      · exact hcall task (by rw [htodo]; exact List.mem_cons_self ..) p (he ▸ hp)
  made e he := by
    have hold : ∀ e ∈ s.log, Asks e.request (e.rel, e.change) ∧
        ∃ d, s'.calls[e.call]? = some d ∧ d.request = e.request := by
      intro e he
      obtain ⟨ha, d, hd, hr⟩ := h.made e he
      obtain ⟨d', hd', hr'⟩ := hm.request_at hi hd
      exact ⟨ha, d', hd', hr'.trans hr⟩
    rcases hm.effect with ⟨-, hl, -⟩ | ⟨rel, owner, release, change, t, rfl, -, -, hl⟩
    · exact hold e (hl ▸ he)
    · rw [hl] at he
      rcases List.mem_append.mp he with he | he
      · exact hold e he
      · obtain rfl := List.mem_singleton.mp he
        exact ⟨h.asked call (List.mem_of_getElem? hi) _ (by rw [htodo]; exact List.mem_cons_self ..) _
          rfl, hm.request_at hi hi⟩
  wrote j d rel hd hc hf := by
    rw [hm.calls] at hd
    rcases getElem?_set_cases hd with ⟨-, hd⟩ | ⟨rfl, rfl⟩
    · rcases h.wrote j d rel hd hc hf with hp | ⟨e, he, hj⟩
      · exact .inl hp
      · exact .inr ⟨e, hm.log_old he, hj⟩
    · have hf' : call.failed = false := by
        cases hb : call.failed with
        | false => rfl
        | true => rw [hm.failed hb] at hf; cases hf
      rcases h.wrote j call rel hi (hm.request ▸ hc) hf' with ⟨t, ht, p, hp⟩ | ⟨e, he, hj⟩
      · rw [htodo] at ht
        rcases List.mem_cons.mp ht with rfl | ht
        · rcases hm.effect with ⟨-, -, hnext⟩ | ⟨_, _, _, _, u, rfl, -, -, hl⟩
          · rcases hnext hf p hp with hdel | ⟨t', ht', hp'⟩
            · have hask := h.asked call (List.mem_of_getElem? hi) _
                (by rw [htodo]; exact List.mem_cons_self ..) p hp
              obtain ⟨-, content, hw⟩ := creates_asks (hm.request ▸ hc) hask
              rw [hdel] at hw
              cases hw
            · exact .inl ⟨t', ht', p, hp'⟩
          · exact .inr ⟨_, by rw [hl]; exact List.mem_append_right _ (List.mem_singleton_self _), rfl⟩
        · exact .inl ⟨t, hm.rest hf t ht, p, hp⟩
      · exact .inr ⟨e, hm.log_old he, hj⟩

theorem Sound.step {a : Act} (h : Sound s) (hstep : c.step s a = some s') : Sound s' := by
  rcases step_cases hstep with ⟨now, -, rfl⟩ | ⟨r, todo, ht, rfl⟩ |
      ⟨i, call, task, rest, -, hi, htodo, rfl⟩ | ⟨i, call, rest, hi, htodo, rfl⟩
  · exact ⟨h.asked, h.made, h.wrote⟩
  · exact h.enter ht
  · obtain ⟨call', hm⟩ := perform_moved c s i call rest task
    exact h.moved hm hi htodo
  · exact h.moved (refuse_moved (c := c)) hi htodo

theorem sound_start (h : c.machine.init s) : Sound s := by
  obtain ⟨hcalls, hlog, -⟩ := h
  exact ⟨by simp [hcalls], by simp [hlog], by simp [hcalls]⟩

theorem sound (h : c.machine.Reach s) : Sound s :=
  Machine.Reach.invariant (fun _ => sound_start) (fun _ _ _ hs hstep => hs.step hstep) h

/-- A call that created a file is in the record. -/
theorem Sound.event_of (h : Sound s) (hi : s.calls[i]? = some call) (htodo : call.todo = [])
    (hf : call.failed = false) {rel : Bytes} (hc : call.request.creates = some rel) :
    ∃ (a : Nat) (e : Event), s.log[a]? = some e ∧ e.call = i ∧ e.request.creates = some rel := by
  rcases h.wrote i call rel hi hc hf with ⟨t, ht, -⟩ | ⟨e, he, rfl⟩
  · simp [htodo] at ht
  · obtain ⟨a, ha⟩ := List.getElem?_of_mem he
    obtain ⟨-, d, hd, hr⟩ := h.made e he
    obtain rfl := Option.some.inj (hi.symm.trans hd)
    exact ⟨a, e, ha, rfl, hr ▸ hc⟩

end Sound

/-! ### What a change leaves -/

section Changes
variable {c : Config} {t t' : FileTree} {rel : Bytes} {change : Change}

theorem done_ok {x : Except Vault.Err Unit × Tree} {hx : x.2.Rooted}
    (h : Config.done (x.1, ⟨x.2, hx⟩) = some t') : x = (.ok (), t'.tree) := by
  obtain ⟨res, u⟩ := x
  cases res with
  | error e => cases h
  | ok a =>
    obtain rfl := Option.some.inj h
    rfl

theorem change_write {data : Bytes} (h : c.change rel t (.write data) = some t') :
    c.vaultService.writeFile t.tree c.item.path rel data = (.ok (), t'.tree) := done_ok h

theorem change_rename {newRel : Bytes} (h : c.change rel t (.rename newRel) = some t') :
    c.vaultService.rename t.tree c.item.path rel newRel = (.ok (), t'.tree) := done_ok h

theorem change_mkdir (h : c.change rel t .mkdir = some t') :
    c.vaultService.mkdir t.tree c.item.path rel = (.ok (), t'.tree) := done_ok h

theorem change_extends (h : c.change rel t change = some t') (hr : change.removes = false) :
    t.tree.Extends t'.tree := by
  cases change with
  | write data => exact (writeFile_extends c.plain t.rooted (change_write h)).1
  | mkdir => exact mkdir_extends c.plain t.rooted (change_mkdir h)
  | delete | rename newRel | restore hash => cases hr

/-- A change that a request makes for itself where `Stat` finds no file overwrites none. -/
theorem change_keeps {r : Request} (h : c.change rel t change = some t')
    (hmakes : r.makes = true) (hasks : Asks r (rel, change))
    (hfree : c.isFile t (change.target rel) = false) {l : Loc} {d : Bytes}
    (hl : t.tree.file l = some d) : t'.tree.file l = some d ∨ t'.tree.node l = none := by
  cases r with
  | createTextFile relPath content owner =>
    obtain ⟨-, rfl⟩ := hasks
    exact .inl (writeFile_keeps_files c.plain t.rooted hfree (change_write h) hl)
  | movePath fromPath toPath owner =>
    obtain ⟨-, dst, -, rfl⟩ := hasks
    exact rename_keeps_files c.plain t.rooted hfree (change_rename h) hl
  | _ => cases hmakes

/-- Where a write succeeds and a file is under the path, `Stat` finds it. -/
theorem isFile_of_write {data : Bytes} (h : c.change rel t (.write data) = some t')
    (hf : (c.fileAt t rel).isSome) : c.isFile t rel = true := by
  obtain ⟨x, hx⟩ := Option.isSome_iff_exists.mp hf
  obtain ⟨r, hr, -⟩ := Service.run_ok (change_write h)
  exact isFile_of_fileAt c.plain t.rooted hr hx

end Changes

/-! ### Runs in which nothing comes in between -/

/-- The files that requests created are under their paths until these are freed, which they
are before another request creates a file there. -/
structure Apart (c : Config) (s : State) : Prop where
  keeps : NoOverwrite s
  taken : ∀ (a : Nat) (e : Event) (rel : Bytes), s.log[a]? = some e →
    e.request.creates = some rel → (c.fileAt s.tree rel).isSome ∨
      ∃ (k : Nat) (g : Event), a < k ∧ s.log[k]? = some g ∧ g.Frees c rel
  apart : ∀ (a b : Nat) (e f : Event) (rel : Bytes), a < b → s.log[a]? = some e →
    s.log[b]? = some f → e.request.creates = some rel → f.request.creates = some rel →
    ∃ (k : Nat) (g : Event), a < k ∧ k < b ∧ s.log[k]? = some g ∧ g.Frees c rel

section Apart
variable {c : Config} {s s' : State}

/-- Nothing happens to files but that directories may appear. -/
theorem Apart.quiet (h : Apart c s) (ht : s.tree.tree.Extends s'.tree.tree)
    (hl : s'.log = s.log) : Apart c s' where
  keeps := by
    unfold NoOverwrite
    rw [hl]
    exact h.keeps
  taken a e rel he hc := by
    rw [hl] at he ⊢
    refine (h.taken a e rel he hc).imp_left fun hs => ?_
    obtain ⟨x, hx⟩ := Option.isSome_iff_exists.mp hs
    exact Option.isSome_iff_exists.mpr ⟨x, fileAt_extends ht hx⟩
  apart := by
    rw [hl]
    exact h.apart

theorem getElem?_concat_old {l : List Event} {g e : Event} {k : Nat} (h : l[k]? = some g) :
    (l ++ [e])[k]? = some g := by
  rw [List.getElem?_append_left (List.getElem?_eq_some_iff.mp h).1, h]

/-- A path that had its file keeps it through a change, or is freed by it. -/
theorem taken_or_freed {e : Event} {rel : Bytes}
    (hch : c.change e.rel e.before e.change = some e.after)
    (h : (c.fileAt e.before rel).isSome) : (c.fileAt e.after rel).isSome ∨ e.Frees c rel := by
  cases hr : e.change.removes with
  | false =>
    obtain ⟨x, hx⟩ := Option.isSome_iff_exists.mp h
    exact .inl (Option.isSome_iff_exists.mpr ⟨x, fileAt_extends (change_extends hch hr) hx⟩)
  | true =>
    cases ha : c.fileAt e.after rel with
    | some x => exact .inl rfl
    | none => exact .inr ⟨hr, h, ha⟩

theorem Apart.event (h : Apart c s) {e : Event} (hb : e.before = s.tree)
    (hch : c.change e.rel e.before e.change = some e.after)
    (hasks : Asks e.request (e.rel, e.change))
    (hfree : e.request.makes = true → c.isFile e.before (e.change.target e.rel) = false)
    (ht : s'.tree = e.after) (hl : s'.log = s.log ++ [e]) : Apart c s' where
  keeps f hf hm := by
    rw [hl] at hf
    rcases List.mem_append.mp hf with hf | hf
    · exact h.keeps f hf hm
    · obtain rfl := List.mem_singleton.mp hf
      exact fun l d => change_keeps hch hm hasks (hfree hm)
  taken a f rel hf hc := by
    rw [hl] at hf ⊢
    rw [ht]
    rcases getElem?_concat_cases hf with hf | ⟨-, rfl⟩
    · rcases h.taken a f rel hf hc with hs | ⟨k, g, hk, hg, hfr⟩
      · refine (taken_or_freed hch (hb ▸ hs)).imp_right fun hfr => ⟨s.log.length, e, ?_, ?_, hfr⟩
        · exact (List.getElem?_eq_some_iff.mp hf).1
        · simp
      · exact .inr ⟨k, g, hk, getElem?_concat_old hg, hfr⟩
    · obtain ⟨rfl, content, hw⟩ := creates_asks hc hasks
      rw [hw] at hch
      exact .inl (writeFile_extends c.plain f.before.rooted (change_write hch)).2
  apart a b f g rel hab hf hg hcf hcg := by
    rw [hl] at hf hg ⊢
    rcases getElem?_concat_cases hg with hg | ⟨hbn, rfl⟩
    · have hlen := (List.getElem?_eq_some_iff.mp hg).1
      have hf' : s.log[a]? = some f := by
        rcases getElem?_concat_cases hf with hf | ⟨ha, -⟩
        · exact hf
        · omega
      obtain ⟨k, g', hak, hkb, hk, hfr⟩ := h.apart a b f g rel hab hf' hg hcf hcg
      exact ⟨k, g', hak, hkb, getElem?_concat_old hk, hfr⟩
    · have hf' : s.log[a]? = some f := by
        rcases getElem?_concat_cases hf with hf | ⟨ha, -⟩
        · exact hf
        · omega
      rcases h.taken a f rel hf' hcf with hs | ⟨k, g', hk, hg', hfr⟩
      · obtain ⟨rfl, content, hw⟩ := creates_asks hcg hasks
        have hno := hfree (makes_of_creates hcg)
        rw [hw] at hch hno
        exact absurd (isFile_of_write hch (hb ▸ hs)) (Bool.eq_false_iff.mp hno)
      · exact ⟨k, g', hk, by rw [hbn]; exact (List.getElem?_eq_some_iff.mp hg').1,
          getElem?_concat_old hg', hfr⟩

theorem Moved.apart {i : Nat} {call call' : Call} {task : Task} {rest : List Task}
    (h : Apart c s) (hs : Sound s) (hm : Moved c s i call task rest s' call')
    (hi : s.calls[i]? = some call) (htodo : call.todo = task :: rest)
    (hfree : c.free s (.advance i) = true) : Apart c s' := by
  rcases hm.effect with ⟨ht, hl, -⟩ | ⟨rel, owner, release, change, t, rfl, hch, ht, hl⟩
  · exact h.quiet ht hl
  · refine h.event rfl hch ?_ (fun hmakes => ?_) ht hl
    · exact hs.asked call (List.mem_of_getElem? hi) _ (by rw [htodo]; exact List.mem_cons_self ..) _
        rfl
    · simpa [Config.free, hi, htodo, show call.request.makes = true from hmakes] using hfree

theorem apart_start (h : c.machine.init s) : Sound s ∧ Apart c s := by
  have hlog := h.2.1
  exact ⟨sound_start h, by simp [NoOverwrite, hlog], by simp [hlog], by simp [hlog]⟩

theorem apart_step {a : Act} (h : Sound s ∧ Apart c s) (hfree : c.free s a = true)
    (hstep : c.step s a = some s') : Sound s' ∧ Apart c s' := by
  obtain ⟨hs, ha⟩ := h
  refine ⟨hs.step hstep, ?_⟩
  rcases step_cases hstep with ⟨now, -, rfl⟩ | ⟨r, todo, -, rfl⟩ |
      ⟨i, call, task, rest, rfl, hi, htodo, rfl⟩ | ⟨i, call, rest, hi, htodo, rfl⟩
  · exact ha.quiet (.refl _) rfl
  · exact ha.quiet (.refl _) rfl
  · obtain ⟨call', hm⟩ := perform_moved c s i call rest task
    exact hm.apart ha hs hi htodo hfree
  · exact ha.quiet (.refl _) rfl

theorem apart (h : c.machine.ReachVia (fun s a => c.free s a = true) s) : Apart c s :=
  (Machine.ReachVia.invariant (fun _ => apart_start) (fun _ _ _ => apart_step) h).2

/-- In a run in which no file appears in the way of a request between its look and its write,
creating and moving overwrite no file, and a path is created once until it is freed. -/
theorem never_overwrites (h : c.machine.ReachVia (fun s a => c.free s a = true) s) :
    NoOverwrite s ∧ OneCreate c s := by
  have ha := apart h
  have hs := sound h.reach
  refine ⟨ha.keeps, fun i j call call' rel hij ⟨hi, htodo, hf⟩ ⟨hj, htodo', hf'⟩ hc hc' => ?_⟩
  obtain ⟨a, e, he, hei, hce⟩ := hs.event_of hi htodo hf hc
  obtain ⟨b, f, hfb, hfj, hcf⟩ := hs.event_of hj htodo' hf' hc'
  rcases Nat.lt_trichotomy a b with hab | rfl | hba
  · obtain ⟨k, g, hak, hkb, hg, hfr⟩ := ha.apart a b e f rel hab he hfb hce hcf
    exact ⟨a, b, k, e, f, g, he, hfb, hg, hei, hfj, .inl ⟨hak, hkb⟩, hfr⟩
  · obtain rfl := Option.some.inj (he.symm.trans hfb)
    exact absurd (hei.symm.trans hfj) hij
  · obtain ⟨k, g, hbk, hka, hg, hfr⟩ := ha.apart b a f e rel hba hfb he hcf hce
    exact ⟨a, b, k, e, f, g, he, hfb, hg, hei, hfj, .inr ⟨hbk, hka⟩, hfr⟩

def createNote (content : String) : Request := .createTextFile (utf8 "c.md") (utf8 content) []

def createSteps (i : Nat) : List Act := List.replicate 6 (.advance i)

/-- A note is created, deleted and created again. -/
theorem never_overwrites_note : ∃ s,
    noteConfig.machine.ReachVia (fun s a => noteConfig.free s a = true) s ∧ s.log.length = 3 ∧
      NoOverwrite s ∧ OneCreate noteConfig s := by
  have hinit : noteConfig.machine.ReachVia (fun s a => noteConfig.free s a = true) noteStart :=
    .init noteStart_init
  obtain ⟨s, hs, hp⟩ := hinit.run_any
    (.enter (createNote "one") :: .advance 0 :: createSteps 0 ++
      (.enter (.deletePath (utf8 "c.md") []) :: List.replicate 5 (.advance 1)) ++
      .enter (createNote "two") :: .advance 2 :: createSteps 2)
    (p := fun s => decide (s.log.length = 3)) (by decide +kernel)
  exact ⟨s, hs, of_decide_eq_true hp, never_overwrites hs⟩

/-- Two requests look for the note before either of them writes it. -/
theorem creates_over_created : ∃ s, noteConfig.machine.Reach s ∧ ¬ NoOverwrite s ∧
    ¬ OneCreate noteConfig s := by
  have hinit : noteConfig.machine.Reach noteStart := .init noteStart_init
  obtain ⟨s, hs, hp⟩ := hinit.run_any
    (.enter (createNote "one") :: .enter (createNote "two") :: .advance 0 :: .advance 1 ::
      createSteps 0 ++ createSteps 1)
    (p := fun s : State => decide (s.log.length = 2) &&
      ((s.log[1]?).any fun e : Event => e.request.makes &&
        decide (e.before.tree.file (note "c.md") = some (utf8 "one") ∧
          e.after.tree.file (note "c.md") = some (utf8 "two"))) &&
      [0, 1].all fun i => (s.calls[i]?).any fun call : Call =>
        call.todo.isEmpty && !call.failed && decide (call.request.creates = some (utf8 "c.md")))
    (by decide +kernel)
  simp only [Bool.and_eq_true, decide_eq_true_eq, List.all_cons, List.all_nil, Option.any_eq_true,
    Bool.not_eq_true', List.isEmpty_iff, and_true] at hp
  obtain ⟨⟨hlen, e, he, hmakes, hbefore, hafter⟩, ⟨d₀, hd₀, ⟨htodo₀, hf₀⟩, hc₀⟩,
    d₁, hd₁, ⟨htodo₁, hf₁⟩, hc₁⟩ := hp
  refine ⟨s, hs, fun hno => ?_, fun hone => ?_⟩
  · rcases hno e (List.mem_of_getElem? he) hmakes _ _ hbefore with h | h
    · rw [hafter] at h
      revert h
      decide
    · rw [(file_eq_some.mp hafter)] at h
      cases h
  · obtain ⟨a, b, k, f, g, x, ha, hb, -, -, -, hk, -⟩ :=
      hone 0 1 d₀ d₁ _ (by decide) ⟨hd₀, htodo₀, hf₀⟩ ⟨hd₁, htodo₁, hf₁⟩ hc₀ hc₁
    have hla := (List.getElem?_eq_some_iff.mp ha).1
    have hlb := (List.getElem?_eq_some_iff.mp hb).1
    omega

end Apart
end Mdock.App.Requests
