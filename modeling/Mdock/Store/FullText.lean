import Mathlib.Tactic.IntervalCases
import Mdock.Lib.Run
import Mdock.Store.PageIndex

/-! The page index through the schema versions. Migration 5 makes the two tables and triggers
between them, migration 7 makes the full-text table anew, and migration 8 drops the triggers;
from then on the calls of the store write both tables. -/
namespace Mdock.Store
open Mdock.Go Mdock.Lib

/-- The index in a database to which the migrations up to `version` were applied; before the
fifth there are no tables, hence no rows. -/
structure Database where
  version : Nat
  index : PageIndex

/-- `x || ' ' || ...` over the five columns, `NULL` if one of them is. -/
def PageText.joined (x : PageText) : Option Bytes := do
  let title ← x.title
  let aliases ← x.aliases
  let tags ← x.tags
  let headings ← x.headings
  let blocks ← x.blocks
  pure (title ++ utf8 " " ++ aliases ++ utf8 " " ++ tags ++ utf8 " " ++ headings ++ utf8 " " ++
    blocks)

/-- What the trigger `page_index_ai` of a version inserts. -/
def triggered (version : Nat) (p : PageRow) : FtsRow :=
  if version = 5 then ⟨p.rowid, p.text, p.text.joined⟩
  else if version = 6 then ⟨p.rowid, p.text.coalesce, p.text.coalesce.joined⟩
  else ⟨p.rowid, p.text.coalesce, none⟩

/-- The statements on `page_index` while there are triggers. -/
inductive Statement
  | upsert (vaultSlug path : Bytes) (text : PageText) (contentHash : Option Bytes) (now : Int)
  | delete (vaultSlug path : Bytes)

/-- A statement and its triggers, all or nothing. The triggers on deletion and update use the
command `'delete'`, which a full-text table with contents of its own refuses: only new rows
get through. -/
def Database.execute (d : Database) : Statement → Database
  | .upsert vaultSlug path text contentHash now =>
    let rowid := d.index.pages.newRowid
    if (d.index.pages.table.get? (vaultSlug, path)).isSome ∨ (d.index.fts.get? rowid).isSome then d
    else
      { d with index :=
        { pages := d.index.pages.upsert vaultSlug path text contentHash now
          fts := d.index.fts.upsert
            (triggered d.version ⟨rowid, vaultSlug, path, text, contentHash, now⟩) } }
  | .delete _ _ => d

/-- What the migration of a number does to the rows of the two tables. -/
def PageIndex.up (d : PageIndex) (id : Nat) : PageIndex :=
  if id = 7 then { d with fts := Keyed.empty } else d

/-- `migrate`: the migrations that are not recorded, one after the other. -/
def Database.migrate (d : Database) : Database :=
  [1, 2, 3, 4, 5, 6, 7, 8].foldl
    (fun d id => if id ≤ d.version then d else ⟨id, d.index.up id⟩) d

inductive HistoryStep
  | migration
  | statement (s : Statement)

/-- The databases of the earlier versions: migrations, and statements between them. -/
def history : Machine Database HistoryStep where
  init d := d = ⟨0, PageIndex.empty⟩
  step d
    | .migration => if d.version < 7 then some ⟨d.version + 1, d.index.up (d.version + 1)⟩ else none
    | .statement s => if 5 ≤ d.version then some (d.execute s) else none

/-- The calls on a database that is up to date; one that does not commit is rolled back. -/
inductive IndexCall
  | upsert (vaultSlug path title aliases tags headings blocks contentHash : Bytes) (now : Int)
      (commits : Bool)
  | delete (vaultSlug path : Bytes) (commits : Bool)

def IndexCall.run (d : PageIndex) : IndexCall → PageIndex
  | .upsert vaultSlug path title aliases tags headings blocks contentHash now commits =>
    if commits then d.upsertPageIndex vaultSlug path title aliases tags headings blocks contentHash now
    else d
  | .delete vaultSlug path commits => if commits then d.deletePageIndex vaultSlug path else d

/-- The page whose rows a call writes or removes. -/
def IndexCall.renews : IndexCall → Option (Bytes × Bytes)
  | .upsert vaultSlug path _ _ _ _ _ _ _ commits => if commits then some (vaultSlug, path) else none
  | .delete vaultSlug path commits =>
    if commits ∧ vaultSlug ≠ [] ∧ path ≠ [] then some (vaultSlug, path) else none

/-- The page was in `page_index` when migration 7 ran, or will be. -/
def Database.Older (d : Database) (p : PageRow) : Prop :=
  d.version < 7 ∨ ∀ f ∈ d.index.fts.rows, f.rowid ≠ p.rowid

/-! ### Up to date -/

theorem migrate_index {d : Database} (hv : d.version ≤ 7) :
    d.migrate.index = if d.version < 7 then { d.index with fts := Keyed.empty } else d.index := by
  obtain ⟨version, index⟩ := d
  simp only at hv ⊢
  interval_cases version <;> rfl

theorem execute_version (d : Database) (s : Statement) : (d.execute s).version = d.version := by
  cases s with
  | upsert vaultSlug path text contentHash now =>
    simp only [Database.execute]
    split <;> rfl
  | delete vaultSlug path => rfl

theorem triggered_text {version : Nat} (hv : version = 7) (p : PageRow) :
    (triggered version p).rowid = p.rowid ∧
      (triggered version p).text.coalesce = p.text.coalesce := by
  subst hv
  exact ⟨rfl, rfl⟩

/-- A statement under the triggers of version 7 adds a page with its row, if anything. -/
theorem execute_sound {d : Database} (hv : d.version = 7) (h : d.index.Sound) (s : Statement) :
    (d.execute s).index.Sound := by
  cases s with
  | delete vaultSlug path => exact h
  | upsert vaultSlug path text contentHash now =>
    simp only [Database.execute]
    split
    · exact h
    · rename_i hfree
      have hget : d.index.pages.table.get? (vaultSlug, path) = none :=
        Option.not_isSome_iff_eq_none.mp fun hs => hfree (.inl hs)
      have hid : d.index.pages.rowidFor vaultSlug path = d.index.pages.newRowid := by
        simp [Pages.rowidFor, hget]
      intro f hf
      rcases Keyed.mem_upsert.mp hf with rfl | ⟨hf, -⟩
      · obtain ⟨hrow, htext⟩ := triggered_text hv
          ⟨d.index.pages.newRowid, vaultSlug, path, text, contentHash, now⟩
        exact ⟨_, Keyed.mem_upsert.mpr (.inl rfl), hid.trans hrow.symm, htext⟩
      · obtain ⟨p, hp, hrow, htext⟩ := h f hf
        refine ⟨p, Keyed.mem_upsert.mpr (.inr ⟨hp, fun hk => ?_⟩), hrow, htext⟩
        have hget' := Keyed.get?_of_mem hp
        rw [show p.key = (vaultSlug, path) from hk, hget] at hget'
        cases hget'

/-- In a database of version 7 the full-text table has rows of pages only. -/
theorem history_sound {d : Database} (h : history.Reach d) :
    d.version ≤ 7 ∧ (d.version = 7 → d.index.Sound) := by
  have hinit : ∀ d, history.init d → d.version ≤ 7 ∧ (d.version = 7 → d.index.Sound) := by
    rintro d rfl
    exact ⟨Nat.zero_le 7, fun h => by cases h⟩
  have hstep : ∀ d a d', (d.version ≤ 7 ∧ (d.version = 7 → d.index.Sound)) →
      history.step d a = some d' → d'.version ≤ 7 ∧ (d'.version = 7 → d'.index.Sound) := by
    intro d a d' ⟨hle, hsound⟩ hstep
    cases a with
    | migration =>
      simp only [history] at hstep
      split at hstep
      · rename_i hlt
        cases hstep
        refine ⟨hlt, fun hv f hf => ?_⟩
        simp only [PageIndex.up] at hf
        rw [if_pos hv] at hf
        cases hf
      · cases hstep
    | statement s =>
      simp only [history] at hstep
      split at hstep
      · cases hstep
        rw [execute_version]
        exact ⟨hle, fun hv => execute_sound hv (hsound hv) s⟩
      · cases hstep
  exact Machine.Reach.invariant hinit hstep h

/-! ### Under the calls -/

/-- Once every row of the full-text table is that of a page, a call keeps it so. -/
theorem run_sound {d : PageIndex} (h : d.Sound) (c : IndexCall) : (c.run d).Sound := by
  cases c with
  | upsert vaultSlug path title aliases tags headings blocks contentHash now commits =>
    cases commits with
    | false => exact h
    | true => exact PageIndex.sound_upsert h
  | delete vaultSlug path commits =>
    cases commits with
    | false => exact h
    | true =>
      by_cases hargs : vaultSlug = [] ∨ path = []
      · simpa only [IndexCall.run, PageIndex.deletePageIndex, if_pos hargs, if_true] using h
      · exact PageIndex.sound_delete (not_or.mp hargs) h

/-- A call renews the page it is about, and leaves every other page with or without its row. -/
theorem run_uncovered {d : PageIndex} (c : IndexCall) (k : Bytes × Bytes) :
    (∃ p ∈ (c.run d).pages.table.rows, p.key = k ∧ ¬ (c.run d).Covers p) ↔
      c.renews ≠ some k ∧ ∃ p ∈ d.pages.table.rows, p.key = k ∧ ¬ d.Covers p := by
  have hsame : ∀ {u : PageIndex}, u = d → c.renews = none →
      ((∃ p ∈ u.pages.table.rows, p.key = k ∧ ¬ u.Covers p) ↔
        c.renews ≠ some k ∧ ∃ p ∈ d.pages.table.rows, p.key = k ∧ ¬ d.Covers p) := by
    rintro u rfl hr
    simp [hr]
  cases c with
  | upsert vaultSlug path title aliases tags headings blocks contentHash now commits =>
    cases commits with
    | false => exact hsame rfl rfl
    | true =>
      constructor
      · rintro ⟨p, hp, rfl, hun⟩
        obtain ⟨hk, hun⟩ := not_or.mp fun h => hun ((PageIndex.covers_upsert hp).mpr h)
        rcases PageIndex.mem_upsert_pages.mp hp with rfl | ⟨hp, -⟩
        · exact absurd rfl hk
        · exact ⟨fun hr => hk (Option.some.inj hr).symm, p, hp, rfl, hun⟩
      · rintro ⟨hr, p, hp, rfl, hun⟩
        have hk : p.key ≠ (vaultSlug, path) := fun hk => hr (congrArg some hk.symm)
        have hp' : p ∈ (d.upsertPageIndex vaultSlug path title aliases tags headings blocks
            contentHash now).pages.table.rows := PageIndex.mem_upsert_pages.mpr (.inr ⟨hp, hk⟩)
        exact ⟨p, hp', rfl, fun hc => ((PageIndex.covers_upsert hp').mp hc).elim hk hun⟩
  | delete vaultSlug path commits =>
    cases commits with
    | false => exact hsame rfl rfl
    | true =>
      by_cases hargs : vaultSlug ≠ [] ∧ path ≠ []
      · have hr : (IndexCall.delete vaultSlug path true).renews = some (vaultSlug, path) :=
          if_pos ⟨rfl, hargs⟩
        rw [hr]
        constructor
        · rintro ⟨p, hp, rfl, hun⟩
          obtain ⟨hold, hk⟩ := (PageIndex.mem_delete_pages hargs).mp hp
          refine ⟨fun h => hk (Option.some.inj h).symm, p, hold, rfl, fun hc => hun ?_⟩
          exact (PageIndex.covers_delete hargs hp).mpr hc
        · rintro ⟨hr, p, hp, rfl, hun⟩
          have hk : p.key ≠ (vaultSlug, path) := fun hk => hr (congrArg some hk.symm)
          have hp' := (PageIndex.mem_delete_pages hargs).mpr ⟨hp, hk⟩
          exact ⟨p, hp', rfl, fun hc => hun ((PageIndex.covers_delete hargs hp').mp hc)⟩
      · refine hsame ?_ (if_neg fun h => hargs h.2)
        have hnone : vaultSlug = [] ∨ path = [] := by
          by_contra h
          exact hargs (not_or.mp h)
        simp only [IndexCall.run, PageIndex.deletePageIndex, if_pos hnone, if_true]

/-- The calls bring the two tables in step exactly when they renew every page that has no row. -/
theorem runs_mirror_iff {d : PageIndex} (h : d.Sound) (calls : List IndexCall) :
    (calls.foldl IndexCall.run d).Mirrors ↔
      ∀ p ∈ d.pages.table.rows, ¬ d.Covers p → ∃ c ∈ calls, c.renews = some p.key := by
  induction calls generalizing d with
  | nil =>
    simp only [List.foldl_nil, List.not_mem_nil, false_and, exists_false, imp_false, not_not]
    exact and_iff_right h
  | cons c calls ih =>
    rw [List.foldl_cons, ih (run_sound h c)]
    have hc := run_uncovered (d := d) c
    constructor
    · intro hall p hp hun
      by_cases hr : c.renews = some p.key
      · exact ⟨c, List.mem_cons_self, hr⟩
      · obtain ⟨q, hq, hk, hun'⟩ := (hc p.key).mpr ⟨hr, p, hp, rfl, hun⟩
        obtain ⟨c', hc', hr'⟩ := hall q hq hun'
        exact ⟨c', List.mem_cons_of_mem c hc', hk ▸ hr'⟩
    · intro hall q hq hun
      obtain ⟨hr, p, hp, hk, hun'⟩ := (hc q.key).mp ⟨q, hq, rfl, hun⟩
      obtain ⟨c', hc', hr'⟩ := hall p hp hun'
      rcases List.mem_cons.mp hc' with rfl | hc'
      · exact absurd (hk ▸ hr') hr
      · exact ⟨c', hc', hk ▸ hr'⟩

/-! ### From any earlier version -/

theorem migrate_pages {d : Database} (hv : d.version ≤ 7) : d.migrate.index.pages = d.index.pages := by
  rw [migrate_index hv]
  split <;> rfl

theorem covers_migrate {d : Database} (h : history.Reach d) {p : PageRow}
    (hp : p ∈ d.index.pages.table.rows) : d.migrate.index.Covers p ↔ ¬ d.Older p := by
  obtain ⟨hv, hsound⟩ := history_sound h
  rw [migrate_index hv]
  unfold Database.Older
  by_cases hlt : d.version < 7
  · rw [if_pos hlt]
    refine iff_of_false ?_ (not_not.mpr (.inl hlt))
    rintro ⟨f, hf, -⟩
    cases hf
  · rw [if_neg hlt, not_or, and_iff_right hlt]
    constructor
    · rintro ⟨f, hf, hid, -⟩ hall
      exact hall f hf hid
    · intro hno
      simp only [ne_eq, not_forall, not_not] at hno
      obtain ⟨f, hf, hid⟩ := hno
      obtain ⟨q, hq, hrow, htext⟩ := hsound (by omega) f hf
      obtain rfl := d.index.pages.inj q hq p hp (hrow.trans hid)
      exact ⟨f, hf, hid, htext⟩

theorem migrated_sound {d : Database} (h : history.Reach d) : d.migrate.index.Sound := by
  obtain ⟨hv, hsound⟩ := history_sound h
  rw [migrate_index hv]
  split
  · intro f hf
    cases hf
  · exact hsound (by omega)

def pageStatement : HistoryStep :=
  .statement (.upsert (utf8 "notes") (utf8 "a.md") ⟨some (utf8 "A"), none, none, none, none⟩ none 0)

/-- Six migrations, and then a page. -/
def oldSteps : List HistoryStep := List.replicate 6 .migration ++ [pageStatement]

def pageUpsert : IndexCall :=
  .upsert (utf8 "notes") (utf8 "a.md") (utf8 "A") [] [] [] [] (utf8 "hash") 1 true

theorem history_start : history.Reach ⟨0, PageIndex.empty⟩ := .init rfl

end Mdock.Store
