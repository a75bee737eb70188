import Mdock.App.Indexing
import Mdock.Store.Outline

/-! The outlines that are served while calls of `UpdatePageIndex`, `DeletePageIndex` and
`UpdatePageIndexPath` run statement by statement, in any order, and the files change under them.
The index stands for a table of texts, one for each page. -/
namespace Mdock.App.Outline
open Mdock.Go Mdock.Lib Mdock.Vault Mdock.Store Mdock.App.Indexing

/-! ### Calls on a table of pages -/

/-- A table of pages, as the calls use it; `make` is what is kept of a text. -/
structure Catalog (δ γ : Type) where
  make : Bytes → γ
  get : δ → Bytes → Bytes → Option γ
  same : γ → γ → Bool
  upsert : δ → Bytes → Bytes → γ → Int → δ
  delete : δ → Bytes → Bytes → δ

/-- What is left to do of a call. -/
inductive Call (γ : Type)
  | compare (vaultSlug relPath : Bytes) (page : γ)
  | upsert (vaultSlug relPath : Bytes) (page : γ)
  | delete (vaultSlug relPath : Bytes)
  | move (vaultSlug oldPath newPath : Bytes) (existing : γ)

structure State (δ γ : Type) where
  tree : Tree
  table : δ
  calls : List (Call γ)

/-- `next` is the next statement of a call, at the time `now`. `ReindexVault` is many calls of
`UpdatePageIndex`. -/
inductive Event
  | files (t : Tree)
  | updatePageIndex (vaultPath vaultSlug relPath : Bytes)
  | deletePageIndex (vaultSlug relPath : Bytes)
  | updatePageIndexPath (vaultSlug oldPath newPath : Bytes)
  | next (i : Nat) (now : Int) (fails : Bool)

section Calls
variable {δ γ : Type} (C : Catalog δ γ)

/-- A query that fails is no reason to keep the row; a transaction that fails ends its call. -/
def Call.next (table : δ) (now : Int) (fails : Bool) : Call γ → δ × Option (Call γ)
  | .compare vaultSlug relPath page =>
    if fails = false ∧ (C.get table vaultSlug relPath).any (C.same page) then (table, none)
    else (table, some (.upsert vaultSlug relPath page))
  | .upsert vaultSlug relPath page =>
    (if fails then table else C.upsert table vaultSlug relPath page now, none)
  | .delete vaultSlug relPath => (if fails then table else C.delete table vaultSlug relPath, none)
  | .move vaultSlug oldPath newPath existing =>
    if fails then (table, none)
    else (C.delete table vaultSlug oldPath, some (.upsert vaultSlug newPath existing))

/-- The call that `UpdatePageIndex` goes on with once it has read the file. -/
def started (vaultSlug relPath content : Bytes) : Call γ :=
  if utf8Valid content then .compare vaultSlug relPath (C.make content)
  else .delete vaultSlug relPath

def State.start (st : State δ γ) (call : Call γ) : State δ γ :=
  { st with calls := st.calls ++ [call] }

def machine (s : Vault.Service) : Machine (State δ γ) Event where
  init st := st.calls = []
  step st
    | .files t => some { st with tree := t }
    | .updatePageIndex vaultPath vaultSlug relPath =>
      match s.readFile st.tree vaultPath relPath with
      | .error _ => some st
      | .ok content => some (st.start (started C vaultSlug relPath content))
    | .deletePageIndex vaultSlug relPath => some (st.start (.delete vaultSlug relPath))
    | .updatePageIndexPath vaultSlug oldPath newPath =>
      match C.get st.table vaultSlug oldPath with
      | none => some st
      | some existing => some (st.start (.move vaultSlug oldPath newPath existing))
    | .next i now fails =>
      (st.calls[i]?).map fun call =>
        let r := call.next C st.table now fails
        { st with table := r.1, calls := st.calls.take i ++ r.2.toList ++ st.calls.drop (i + 1) }

end Calls

/-- The texts that calls read, each with the slug of its vault. -/
def reads (s : Vault.Service) (t : Tree) : List Event → List (Bytes × Bytes)
  | [] => []
  | .files u :: events => reads s u events
  | .updatePageIndex vaultPath vaultSlug relPath :: events =>
    match s.readFile t vaultPath relPath with
    | .error _ => reads s t events
    | .ok content =>
      if utf8Valid content then (vaultSlug, content) :: reads s t events else reads s t events
  | _ :: events => reads s t events

/-! ### The page index and the texts it stands for -/

section Levels
variable (c : Config)

def pages : Catalog PageIndex (PageMeta × Bytes) where
  make content := (c.parsePage content, c.contentHash content)
  get d vaultSlug path :=
    match d.getPageIndex vaultSlug path with
    | .ok (some p) =>
      some (⟨p.title, p.aliases, p.tags, p.headings, p.blocks⟩, p.contentHash)
    | _ => none
  same page existing := existing.2 = page.2
  upsert d vaultSlug path page now := d.upsertPageIndex vaultSlug path page.1.title page.1.aliases
    page.1.tags page.1.headings page.1.blocks page.2 now
  delete := PageIndex.deletePageIndex

abbrev Texts := Bytes × Bytes → Option Bytes

def texts : Catalog Texts Bytes where
  make := id
  get e vaultSlug path := if vaultSlug = [] ∨ path = [] then none else e (vaultSlug, path)
  same content existing := c.contentHash existing = c.contentHash content
  upsert e vaultSlug path content _ := Function.update e (vaultSlug, path) (some content)
  delete e vaultSlug path :=
    if vaultSlug = [] ∨ path = [] then e else Function.update e (vaultSlug, path) none

/-- Each page has the row of its text. -/
def Represents (d : PageIndex) (e : Texts) : Prop := ∀ key,
  (d.pages.table.get? key).map (fun p => (p.text, p.contentHash)) =
    (e key).map fun content => ((c.parsePage content).text, some (c.contentHash content))

end Levels

/-! ### One table for another -/

def Call.map {γ κ : Type} (f : κ → γ) : Call κ → Call γ
  | .compare vaultSlug relPath page => .compare vaultSlug relPath (f page)
  | .upsert vaultSlug relPath page => .upsert vaultSlug relPath (f page)
  | .delete vaultSlug relPath => .delete vaultSlug relPath
  | .move vaultSlug oldPath newPath existing => .move vaultSlug oldPath newPath (f existing)

section Refinement
variable {δ γ ε κ : Type}

/-- The table `C` keeps, seen through `R`, is what `D` keeps. -/
structure Refines (C : Catalog δ γ) (D : Catalog ε κ) (R : δ → ε → Prop) (f : κ → γ) : Prop where
  make : ∀ content, C.make content = f (D.make content)
  get : ∀ {d e}, R d e → ∀ slug path, C.get d slug path = (D.get e slug path).map f
  same : ∀ a b, C.same (f a) (f b) = D.same a b
  upsert : ∀ {d e}, R d e → ∀ slug path a now,
    R (C.upsert d slug path (f a) now) (D.upsert e slug path a now)
  delete : ∀ {d e}, R d e → ∀ slug path, R (C.delete d slug path) (D.delete e slug path)

structure Alike (R : δ → ε → Prop) (f : κ → γ) (st : State δ γ) (u : State ε κ) : Prop where
  tree : st.tree = u.tree
  table : R st.table u.table
  calls : st.calls = u.calls.map (Call.map f)

variable {C : Catalog δ γ} {D : Catalog ε κ} {R : δ → ε → Prop} {f : κ → γ}
  {s : Vault.Service} {st : State δ γ} {u : State ε κ}

theorem next_alike (h : Refines C D R f) {d : δ} {e : ε} (hr : R d e) (now : Int) (fails : Bool)
    (call : Call κ) : R ((call.map f).next C d now fails).1 (call.next D e now fails).1 ∧
      ((call.map f).next C d now fails).2 = (call.next D e now fails).2.map (Call.map f) := by
  cases call with
  | compare slug path a =>
    have hany : (C.get d slug path).any (C.same (f a)) = (D.get e slug path).any (D.same a) := by
      rw [h.get hr, Option.any_map]
      exact congrArg (fun p => Option.any p (D.get e slug path)) (funext (h.same a))
    simp only [Call.map, Call.next, hany]
    split
    · exact ⟨hr, rfl⟩
    · exact ⟨hr, rfl⟩
  | upsert slug path a =>
    refine ⟨?_, rfl⟩
    cases fails with
    | true => exact hr
    | false => exact h.upsert hr slug path a now
  | delete slug path =>
    refine ⟨?_, rfl⟩
    cases fails with
    | true => exact hr
    | false => exact h.delete hr slug path
  | move slug oldPath newPath a =>
    cases fails with
    | true => exact ⟨hr, rfl⟩
    | false => exact ⟨h.delete hr slug oldPath, rfl⟩

theorem Alike.start (h : Alike R f st u) (call : Call κ) :
    Alike R f (st.start (call.map f)) (u.start call) where
  tree := h.tree
  table := h.table
  calls := by
    simp only [State.start, h.calls, List.map_append, List.map_cons, List.map_nil]

/-- A step on one table is the same step on the other. -/
theorem step_alike (h : Refines C D R f) (ha : Alike R f st u) {event : Event} {st' : State δ γ}
    (hstep : (machine C s).step st event = some st') :
    ∃ u', (machine D s).step u event = some u' ∧ Alike R f st' u' := by
  cases event with
  | files t =>
    cases hstep
    exact ⟨_, rfl, rfl, ha.table, ha.calls⟩
  | updatePageIndex vaultPath slug rel =>
    simp only [machine, ha.tree] at hstep ⊢
    cases hread : s.readFile u.tree vaultPath rel with
    | error e =>
      rw [hread] at hstep
      cases hstep
      exact ⟨u, rfl, ha⟩
    | ok content =>
      rw [hread] at hstep
      cases hstep
      have hcall : started C slug rel content = (started D slug rel content).map f := by
        unfold started
        split
        · rw [h.make]
          rfl
        · rfl
      exact ⟨_, rfl, hcall ▸ ha.start _⟩
  | deletePageIndex slug rel =>
    cases hstep
    exact ⟨_, rfl, ha.start (.delete slug rel)⟩
  | updatePageIndexPath slug oldPath newPath =>
    simp only [machine, h.get ha.table] at hstep ⊢
    cases hget : D.get u.table slug oldPath with
    | none =>
      rw [hget] at hstep
      cases hstep
      exact ⟨u, rfl, ha⟩
    | some existing =>
      rw [hget] at hstep
      cases hstep
      exact ⟨_, rfl, ha.start (.move slug oldPath newPath existing)⟩
  | next i now fails =>
    obtain ⟨call, hcall, rfl⟩ := Option.map_eq_some_iff.mp hstep
    rw [ha.calls, List.getElem?_map] at hcall
    obtain ⟨a, hget, rfl⟩ := Option.map_eq_some_iff.mp hcall
    obtain ⟨htable, hrest⟩ := next_alike h ha.table now fails a
    refine ⟨_, Option.map_eq_some_iff.mpr ⟨a, hget, rfl⟩, ha.tree, htable, ?_⟩
    simp only [hrest, ha.calls, List.map_append, List.map_take, List.map_drop]
    congr 2
    cases (a.next D u.table now fails).2 <;> rfl

theorem run_alike (h : Refines C D R f) (ha : Alike R f st u) {events : List Event}
    {st' : State δ γ} (hrun : (machine C s).run st events = some st') :
    ∃ u', (machine D s).run u events = some u' ∧ Alike R f st' u' := by
  induction events generalizing st u with
  | nil =>
    cases hrun
    exact ⟨u, rfl, ha⟩
  | cons event events ih =>
    obtain ⟨v, hv, hrun⟩ := Option.bind_eq_some_iff.mp hrun
    obtain ⟨w, hw, hvw⟩ := step_alike h ha hv
    obtain ⟨u', hu', ha'⟩ := ih hvw hrun
    exact ⟨u', Option.bind_eq_some_iff.mpr ⟨w, hw, hu'⟩, ha'⟩

end Refinement

/-! ### The index stands for the texts -/

section Index
variable (c : Config)

theorem represents_empty : Represents c PageIndex.empty fun _ => none := fun _ => rfl

theorem get?_upsertPageIndex (d : PageIndex) (slug path : Bytes) (m : PageMeta) (hash : Bytes)
    (now : Int) (key : Bytes × Bytes) :
    (d.upsertPageIndex slug path m.title m.aliases m.tags m.headings m.blocks hash
      now).pages.table.get? key =
      if (slug, path) = key then
        some ⟨d.pages.rowidFor slug path, slug, path, m.text, some hash, now⟩
      else d.pages.table.get? key := Keyed.get?_upsert _ _ _

theorem get_pages {d : PageIndex} {e : Texts} (h : Represents c d e) (slug path : Bytes) :
    (pages c).get d slug path = ((texts c).get e slug path).map (pages c).make := by
  have hkey := h (slug, path)
  by_cases hargs : slug = [] ∨ path = []
  · simp only [pages, texts, PageIndex.getPageIndex, if_pos hargs]
    rfl
  · simp only [pages, texts, PageIndex.getPageIndex, if_neg hargs]
    cases hrow : d.pages.table.get? (slug, path) with
    | none =>
      rw [hrow] at hkey
      rw [Option.map_eq_none_iff.mp hkey.symm]
      rfl
    | some p =>
      rw [hrow, Option.map_some] at hkey
      obtain ⟨content, hcontent, hp⟩ := Option.map_eq_some_iff.mp hkey.symm
      obtain ⟨htext, hhash⟩ := Prod.ext_iff.mp hp
      simp only at htext hhash
      simp only [hcontent, ← htext, ← hhash]
      rfl

theorem pages_refine : Refines (pages c) (texts c) (Represents c) (pages c).make where
  make _ := rfl
  get := get_pages c
  same _ _ := rfl
  upsert := by
    intro d e h slug path content now key
    have hget := get?_upsertPageIndex d slug path (c.parsePage content) (c.contentHash content) now
      key
    simp only [pages, texts, hget]
    by_cases hk : (slug, path) = key
    · subst hk
      rw [if_pos rfl, Function.update_self]
      rfl
    · rw [if_neg hk, Function.update_of_ne (Ne.symm hk)]
      exact h key
  delete := by
    intro d e h slug path key
    simp only [pages, texts, PageIndex.deletePageIndex]
    split
    · exact h key
    · have hkey := h key
      cases hrow : d.pages.table.get? (slug, path) with
      | none =>
        by_cases hk : key = (slug, path)
        · subst hk
          rw [Function.update_self, hrow]
          rfl
        · rw [Function.update_of_ne hk]
          exact hkey
      | some p =>
        simp only [Pages.delete, Keyed.get?_deleteWhere]
        by_cases hk : key = (slug, path)
        · subst hk
          rw [Function.update_self, hrow]
          simp [Keyed.key_of_get? hrow]
        · rw [Function.update_of_ne hk, ← hkey]
          cases hget : d.pages.table.get? key with
          | none => rfl
          | some q =>
            have hne : q.key ≠ (slug, path) := by
              rw [Keyed.key_of_get? hget]
              exact hk
            rw [Option.filter_some, if_pos (by simpa using hne)]

/-- A call that nothing comes between. -/
theorem updatePageIndex_alone (t : Tree) (d : PageIndex) (vaultPath slug rel : Bytes) (now : Int) :
    ∃ k, (machine (pages c) c.service.vaultService).run ⟨t, d, []⟩
        (.updatePageIndex vaultPath slug rel :: List.replicate k (.next 0 now false)) =
      some ⟨t, c.updatePageIndex t d vaultPath slug rel now, []⟩ := by
  unfold Config.updatePageIndex
  cases hread : c.service.vaultService.readFile t vaultPath rel with
  | error e => exact ⟨0, by simp only [Machine.run, machine, hread]; rfl⟩
  | ok content =>
    have hstart : ∀ k, (machine (pages c) c.service.vaultService).run ⟨t, d, []⟩
        (.updatePageIndex vaultPath slug rel :: List.replicate k (.next 0 now false)) =
        (machine (pages c) c.service.vaultService).run
          ⟨t, d, [started (pages c) slug rel content]⟩ (List.replicate k (.next 0 now false)) := by
      intro k
      simp only [Machine.run, machine, hread]
      rfl
    simp only [hstart, started]
    by_cases hvalid : utf8Valid content
    · rw [if_pos hvalid, if_neg (by simp [hvalid])]
      have hwritten : ((pages c).get d slug rel).any ((pages c).same ((pages c).make content)) =
          false → (machine (pages c) c.service.vaultService).run
            ⟨t, d, [.compare slug rel ((pages c).make content)]⟩
            [.next 0 now false, .next 0 now false] =
          some ⟨t, (pages c).upsert d slug rel ((pages c).make content) now, []⟩ := by
        intro hany
        simp only [Machine.run, machine, List.getElem?_cons_zero, Option.map_some,
          Option.bind_some, Call.next, hany, Bool.false_eq_true, and_false, if_false]
        rfl
      cases hget : d.getPageIndex slug rel with
      | error e => exact ⟨2, hwritten (by simp only [pages, hget]; rfl)⟩
      | ok existing =>
        cases existing with
        | none => exact ⟨2, hwritten (by simp only [pages, hget]; rfl)⟩
        | some p =>
          by_cases hsame : p.contentHash = c.contentHash content
          · refine ⟨1, ?_⟩
            simp only [List.replicate, Machine.run, machine, List.getElem?_cons_zero,
              Option.map_some, Option.bind_some, Call.next, pages, hget, Option.any_some, hsame,
              decide_true, and_self, if_true]
            rfl
          · refine ⟨2, ?_⟩
            simp only [if_neg hsame]
            exact hwritten (by simp only [pages, hget, Option.any_some, hsame, decide_false])
    · rw [if_neg hvalid, if_pos (by simpa using hvalid)]
      exact ⟨1, rfl⟩

end Index

/-! ### The texts were read -/

def Call.page? {γ : Type} : Call γ → Option (Bytes × γ)
  | .compare vaultSlug _ page | .upsert vaultSlug _ page | .move vaultSlug _ _ page =>
    some (vaultSlug, page)
  | .delete .. => none

structure Known (K : Bytes × Bytes → Prop) (st : State Texts Bytes) : Prop where
  table : ∀ slug path content, st.table (slug, path) = some content → K (slug, content)
  calls : ∀ call ∈ st.calls, ∀ page ∈ call.page?, K page

section Reads
variable {c : Config} {s : Vault.Service} {K : Bytes × Bytes → Prop} {st st' : State Texts Bytes}

theorem Known.start (h : Known K st) {call : Call Bytes} (hc : ∀ page ∈ call.page?, K page) :
    Known K (st.start call) where
  table := h.table
  calls call' hmem := by
    rcases List.mem_append.mp hmem with hmem | hmem
    · exact h.calls call' hmem
    · rwa [List.mem_singleton.mp hmem]

theorem known_delete {e : Texts} (h : ∀ slug path content, e (slug, path) = some content →
    K (slug, content)) (slug path : Bytes) : ∀ slug' path' content,
    (texts c).delete e slug path (slug', path') = some content → K (slug', content) := by
  intro slug' path' content hget
  simp only [texts] at hget
  split at hget
  · exact h slug' path' content hget
  · by_cases hk : (slug', path') = (slug, path)
    · rw [hk, Function.update_self] at hget
      cases hget
    · rw [Function.update_of_ne hk] at hget
      exact h slug' path' content hget

theorem known_upsert {e : Texts} (h : ∀ slug path content, e (slug, path) = some content →
    K (slug, content)) {slug page : Bytes} (hp : K (slug, page)) (path : Bytes) (now : Int) :
    ∀ slug' path' content, (texts c).upsert e slug path page now (slug', path') = some content →
      K (slug', content) := by
  intro slug' path' content hget
  simp only [texts] at hget
  by_cases hk : (slug', path') = (slug, path)
  · rw [hk, Function.update_self] at hget
    cases hget
    obtain ⟨rfl, -⟩ := Prod.mk.inj hk
    exact hp
  · rw [Function.update_of_ne hk] at hget
    exact h slug' path' content hget

theorem next_known {e : Texts} (h : ∀ slug path content, e (slug, path) = some content →
    K (slug, content)) {call : Call Bytes} (hc : ∀ page ∈ call.page?, K page) (now : Int)
    (fails : Bool) :
    (∀ slug path content, (call.next (texts c) e now fails).1 (slug, path) = some content →
      K (slug, content)) ∧
    ∀ call' ∈ (call.next (texts c) e now fails).2, ∀ page ∈ call'.page?, K page := by
  have hnone : ∀ call' ∈ (none : Option (Call Bytes)), ∀ page ∈ call'.page?, K page :=
    fun _ hm => by cases hm
  cases call with
  | compare slug path page =>
    rw [Call.next]
    split
    · exact ⟨h, hnone⟩
    · refine ⟨h, ?_⟩
      rintro call' ⟨rfl⟩
      exact hc
  | upsert slug path page =>
    refine ⟨?_, hnone⟩
    cases fails with
    | true => exact h
    | false => exact known_upsert (c := c) h (hc _ rfl) path now
  | delete slug path =>
    refine ⟨?_, hnone⟩
    cases fails with
    | true => exact h
    | false => exact known_delete (c := c) h slug path
  | move slug oldPath newPath page =>
    cases fails with
    | true => exact ⟨h, hnone⟩
    | false =>
      refine ⟨known_delete (c := c) h slug oldPath, ?_⟩
      rintro call' ⟨rfl⟩
      exact hc

/-- Whatever the order, a text in the table is one that a call read, in the same vault. -/
theorem run_known {events : List Event} (h : Known K st)
    (hreads : ∀ r ∈ reads s st.tree events, K r)
    (hrun : (machine (texts c) s).run st events = some st') : Known K st' := by
  induction events generalizing st with
  | nil =>
    cases hrun
    exact h
  | cons event events ih =>
    obtain ⟨u, hstep, hrun⟩ := Option.bind_eq_some_iff.mp hrun
    cases event with
    | files t =>
      cases hstep
      have hnext : Known K { st with tree := t } := ⟨h.table, h.calls⟩
      exact ih hnext hreads hrun
    | updatePageIndex vaultPath slug rel =>
      simp only [machine] at hstep
      rw [reads] at hreads
      cases hread : s.readFile st.tree vaultPath rel with
      | error e =>
        rw [hread] at hstep hreads
        cases hstep
        exact ih h hreads hrun
      | ok content =>
        rw [hread] at hstep hreads
        cases hstep
        simp only [started] at hrun
        split at hrun
        · rename_i hvalid
          simp only [if_pos hvalid] at hreads
          refine ih (h.start ?_) (fun r hr => hreads r (List.mem_cons_of_mem _ hr)) hrun
          rintro page ⟨rfl⟩
          exact hreads _ List.mem_cons_self
        · rename_i hvalid
          simp only [if_neg hvalid] at hreads
          exact ih (h.start fun page hp => by cases hp) hreads hrun
    | deletePageIndex slug rel =>
      cases hstep
      exact ih (h.start fun page hp => by cases hp) hreads hrun
    | updatePageIndexPath slug oldPath newPath =>
      simp only [machine] at hstep
      cases hget : (texts c).get st.table slug oldPath with
      | none =>
        rw [hget] at hstep
        cases hstep
        exact ih h hreads hrun
      | some existing =>
        rw [hget] at hstep
        cases hstep
        refine ih (h.start ?_) hreads hrun
        rintro page ⟨rfl⟩
        simp only [texts] at hget
        split at hget
        · cases hget
        · exact h.table slug oldPath existing hget
    | next i now fails =>
      obtain ⟨call, hcall, rfl⟩ := Option.map_eq_some_iff.mp hstep
      obtain ⟨htable, hrest⟩ := next_known (c := c) h.table
        (h.calls call (List.mem_of_getElem? hcall)) now fails
      let r := Call.next (texts c) st.table now fails call
      have hnext : Known K
          ⟨st.tree, r.1, st.calls.take i ++ r.2.toList ++ st.calls.drop (i + 1)⟩ := by
        refine ⟨htable, fun call' hmem => ?_⟩
        rcases List.mem_append.mp hmem with hmem | hmem
        · rcases List.mem_append.mp hmem with hmem | hmem
          · exact h.calls call' (List.mem_of_mem_take hmem)
          · exact hrest call' (Option.mem_toList.mp hmem)
        · exact h.calls call' (List.mem_of_mem_drop hmem)
      exact ih hnext hreads hrun

end Reads

/-! ### What is served -/

section Served
variable (P : Search.BlockParser) (I : Search.Inlines)

/-- `ParsePage` with its lists marshalled; `blocks` is `MarshalBlocks` of the block references. -/
def pageMeta (blocks : Bytes → Bytes) (content : Bytes) : PageMeta :=
  let m := Search.parsePage P I content
  ⟨m.title, Search.marshalStrings m.aliases, Search.marshalStrings m.tags,
    Search.marshalHeadings m.headings, blocks content⟩

def document (content : Bytes) : List (Nat × Search.Block) :=
  P.events P.document 0 (content.splitOn newline)

/-- What goldmark makes of UTF-8 is UTF-8, and a text is no longer than an `int` counts. -/
structure Parsable (content : Bytes) : Prop where
  size : content.length + 1 < 2 ^ 63
  level : ∀ r ∈ Search.raws (document P content), r.level ≤ 6
  text : ∀ r ∈ Search.raws (document P content),
    utf8Valid (I.text (Search.definitions (document P content)) r.source)
  ids : ∀ id ∈ I.ids ((Search.raws (document P content)).map Search.Raw.source), utf8Valid id

theorem length_splitOn_le (s : Bytes) (b : UInt8) : (s.splitOn b).length ≤ s.length + 1 := by
  induction s with
  | nil => simp
  | cons x s ih =>
    rw [List.splitOn_cons_eq_if_modifyHead]
    split
    · simpa using ih
    · rw [List.length_modifyHead]
      simp only [List.length_cons]
      omega

variable {P I} {content : Bytes}

theorem Parsable.held (h : Parsable P I content) :
    ∀ x ∈ (Search.parsePage P I content).headings, Held x := by
  rw [Search.parsePage_headings]
  intro x hx
  obtain ⟨⟨r, id⟩, hmem, rfl⟩ := List.mem_map.mp hx
  obtain ⟨hr, hid⟩ := List.of_mem_zip hmem
  have hlevel := h.level r hr
  have hsize := h.size
  have hline : r.line < (content.splitOn newline).length := by
    rw [Search.raws_events] at hr
    obtain ⟨j, back, hj, hline⟩ := Search.mem_raws.mp hr
    obtain ⟨-, hlt, -⟩ := Search.feed_document_spec P 0 _ hj
    omega
  have hlines := length_splitOn_le content newline
  exact ⟨by dsimp only; omega, utf8Valid_trimSpace (h.text r hr), h.ids id hid,
    by dsimp only; omega⟩

/-- The headings of a page, as the store answers them. -/
def outline (P : Search.BlockParser) (I : Search.Inlines) (content : Bytes) :
    List Store.Heading := (Search.parsePage P I content).headings.map ofSearch

theorem getPageHeadings_represented {c : Config} {blocks : Bytes → Bytes} {d : PageIndex}
    {e : Texts} (hparse : c.parsePage = pageMeta P I blocks) (h : Represents c d e)
    {slug path : Bytes} (hs : slug ≠ []) (hp : path ≠ [])
    (hpage : ∀ content, e (slug, path) = some content → Parsable P I content) :
    d.getPageHeadings slug path = .ok ((e (slug, path)).map (outline P I)) := by
  have hkey := h (slug, path)
  rw [PageIndex.getPageHeadings, if_neg (not_or.mpr ⟨hs, hp⟩)]
  cases hrow : d.pages.table.get? (slug, path) with
  | none =>
    rw [hrow] at hkey
    rw [Option.map_eq_none_iff.mp hkey.symm]
    rfl
  | some p =>
    rw [hrow, Option.map_some] at hkey
    obtain ⟨content, hcontent, hpair⟩ := Option.map_eq_some_iff.mp hkey.symm
    have htext : p.text.headings =
        some (Search.marshalHeadings (Search.parsePage P I content).headings) := by
      rw [← (Prod.mk.inj hpair).1, hparse]
      rfl
    have hread := unmarshalHeadings_marshalHeadings (hpage content hcontent).held
    obtain ⟨b, col, hcol⟩ := List.exists_cons_of_ne_nil
      (marshalHeadings_ne_nil (Search.parsePage P I content).headings)
    rw [hcol] at htext hread
    simp only [Option.bind_some, htext, hread, hcontent]
    rfl

/-- However the calls interleave, and whatever happens to the files, the outline of a page is
that of the text the index stands for, which is one that a call read in the same vault. -/
theorem outlines_served {c : Config} {blocks : Bytes → Bytes}
    (hparse : c.parsePage = pageMeta P I blocks) {t : Tree} {events : List Event}
    (hreads : ∀ r ∈ reads c.service.vaultService t events, Parsable P I r.2)
    {st : State PageIndex (PageMeta × Bytes)}
    (hrun : (machine (pages c) c.service.vaultService).run ⟨t, PageIndex.empty, []⟩ events =
      some st) :
    ∃ u, (machine (texts c) c.service.vaultService).run ⟨t, fun _ => none, []⟩ events = some u ∧
      ∀ slug path, slug ≠ [] → path ≠ [] →
        st.table.getPageHeadings slug path = .ok ((u.table (slug, path)).map (outline P I)) ∧
        ∀ content, u.table (slug, path) = some content →
          (slug, content) ∈ reads c.service.vaultService t events := by
  have hstart : Alike (Represents c) (pages c).make (⟨t, PageIndex.empty, []⟩ : State _ _)
      ⟨t, fun _ => none, []⟩ := ⟨rfl, represents_empty c, rfl⟩
  obtain ⟨u, hu, halike⟩ := run_alike (pages_refine c) hstart hrun
  have hnone : Known (fun r => r ∈ reads c.service.vaultService t events)
      ⟨t, fun _ => none, []⟩ :=
    ⟨fun slug path content h => (by cases h), fun call h => (by cases h)⟩
  have hknown := run_known hnone (fun _ h => h) hu
  refine ⟨u, hu, fun slug path hs hp => ⟨?_, fun content hc => hknown.table slug path content hc⟩⟩
  exact getPageHeadings_represented hparse halike.table hs hp fun content hc =>
    hreads _ (hknown.table slug path content hc)

end Served

/-! ### Two writers of a page -/

def plainIndex : Config :=
  { noteIndex with
    parsePage := pageMeta Search.plainParser Search.plainInlines fun _ => utf8 "[]" }

def withNote (content : String) : Tree := notes.upsert (note "a.md", .file (utf8 content))

def updateNote : Event := .updatePageIndex (utf8 "v") (utf8 "notes") (utf8 "a.md")

/-- The first call has read the page when the second one writes it, and is done last. -/
def overtaken : List Event := [updateNote, .files (withNote "# two"), updateNote,
  .next 1 0 false, .next 1 1 false, .next 0 2 false, .next 0 3 false]

def overtakenReads : List (Bytes × Bytes) :=
  reads noteService (withNote "# one") overtaken

theorem overtaken_parsable : ∀ r ∈ overtakenReads,
    Parsable Search.plainParser Search.plainInlines r.2 := by
  have hreads : overtakenReads =
      [(utf8 "notes", utf8 "# one"), (utf8 "notes", utf8 "# two")] := by decide +kernel
  rw [hreads]
  intro r hr
  rcases List.mem_cons.mp hr with rfl | hr
  · exact ⟨by decide, by decide +kernel, by decide +kernel, by decide +kernel⟩
  · obtain rfl := List.mem_singleton.mp hr
    exact ⟨by decide, by decide +kernel, by decide +kernel, by decide +kernel⟩

theorem outlines_served_overtaken : ∃ st u,
    (machine (pages plainIndex) noteService).run ⟨withNote "# one", PageIndex.empty, []⟩
      overtaken = some st ∧
    (machine (texts plainIndex) noteService).run ⟨withNote "# one", fun _ => none, []⟩
      overtaken = some u ∧
    st.table.getPageHeadings (utf8 "notes") (utf8 "a.md") =
      .ok ((u.table (utf8 "notes", utf8 "a.md")).map
        (outline Search.plainParser Search.plainInlines)) := by
  have hrun : ((machine (pages plainIndex) noteService).run
      ⟨withNote "# one", PageIndex.empty, []⟩ overtaken).isSome = true := by decide +kernel
  obtain ⟨st, hst⟩ := Option.isSome_iff_exists.mp hrun
  obtain ⟨u, hu, hserved⟩ := outlines_served (c := plainIndex) rfl overtaken_parsable hst
  exact ⟨st, u, hst, hu, (hserved _ _ (by decide) (by decide)).1⟩

end Mdock.App.Outline
