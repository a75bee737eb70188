import Mdock.Go.Strings
import Mdock.Lib.Keyed

/-! The tables `page_index` and `page_index_fts`, and the calls of the store that keep the
second one in step with the first. -/
namespace Mdock.Store
open Mdock.Go Mdock.Lib

/-- The columns the two tables share; in `page_index` they may be `NULL`. -/
structure PageText where
  title : Option Bytes
  aliases : Option Bytes
  tags : Option Bytes
  headings : Option Bytes
  blocks : Option Bytes
  deriving DecidableEq

/-- `COALESCE(x, '')`, column by column. -/
def PageText.coalesce (x : PageText) : PageText :=
  ⟨some (x.title.getD []), some (x.aliases.getD []), some (x.tags.getD []),
    some (x.headings.getD []), some (x.blocks.getD [])⟩

structure PageRow where
  rowid : Nat
  vaultSlug : Bytes
  path : Bytes
  text : PageText
  contentHash : Option Bytes
  updatedAt : Int
  deriving DecidableEq

def PageRow.key (p : PageRow) : Bytes × Bytes := (p.vaultSlug, p.path)

/-- A row of the full-text table; the column `content` is gone since migration 7. -/
structure FtsRow where
  rowid : Nat
  text : PageText
  content : Option Bytes
  deriving DecidableEq

/-- The table `page_index`: one row a page, one rowid a row. -/
structure Pages where
  table : Keyed PageRow.key
  inj : ∀ p ∈ table.rows, ∀ q ∈ table.rows, p.rowid = q.rowid → p = q

namespace Pages

def empty : Pages := ⟨Keyed.empty, fun p hp => by cases hp⟩

/-- The rowid of a new row: one more than the largest. -/
def newRowid (t : Pages) : Nat := (t.table.rows.map PageRow.rowid).foldr max 0 + 1

theorem lt_newRowid (t : Pages) {p : PageRow} (hp : p ∈ t.table.rows) : p.rowid < t.newRowid := by
  have hle : ∀ l : List Nat, ∀ n ∈ l, n ≤ l.foldr max 0 := by
    intro l
    induction l with
    | nil => simp
    | cons m l ih =>
      intro n hn
      rcases List.mem_cons.mp hn with rfl | hn
      · exact le_max_left _ _
      · exact (ih n hn).trans (le_max_right _ _)
  exact Nat.lt_succ_of_le (hle _ _ (List.mem_map_of_mem hp))

/-- The rowid an upsert returns. -/
def rowidFor (t : Pages) (vaultSlug path : Bytes) : Nat :=
  ((t.table.get? (vaultSlug, path)).map PageRow.rowid).getD t.newRowid

/-- Only the row of the page itself has the rowid its upsert returns. -/
theorem key_of_rowidFor {t : Pages} {vaultSlug path : Bytes} {p : PageRow}
    (hp : p ∈ t.table.rows) (h : p.rowid = t.rowidFor vaultSlug path) :
    p.key = (vaultSlug, path) := by
  unfold rowidFor at h
  cases hget : t.table.get? (vaultSlug, path) with
  | none =>
    rw [hget] at h
    exact absurd h (t.lt_newRowid hp).ne
  | some q =>
    rw [hget] at h
    rw [t.inj p hp q (Keyed.mem_of_get? hget) h]
    exact Keyed.key_of_get? hget

/-- `INSERT INTO page_index ... ON CONFLICT (vault_slug, path) DO UPDATE`. -/
def upsert (t : Pages) (vaultSlug path : Bytes) (text : PageText) (contentHash : Option Bytes)
    (now : Int) : Pages where
  table := t.table.upsert
    ⟨t.rowidFor vaultSlug path, vaultSlug, path, text, contentHash, now⟩
  inj := by
    intro p hp q hq h
    rcases Keyed.mem_upsert.mp hp with rfl | ⟨hp, hkp⟩ <;>
      rcases Keyed.mem_upsert.mp hq with rfl | ⟨hq, hkq⟩
    · rfl
    · exact absurd (key_of_rowidFor hq h.symm) hkq
    · exact absurd (key_of_rowidFor hp h) hkp
    · exact t.inj p hp q hq h

def delete (t : Pages) (vaultSlug path : Bytes) : Pages where
  table := t.table.deleteWhere fun p => decide (p.key = (vaultSlug, path))
  inj p hp q hq h :=
    t.inj p (Keyed.mem_deleteWhere.mp hp).1 q (Keyed.mem_deleteWhere.mp hq).1 h

end Pages

structure PageIndex where
  pages : Pages
  fts : Keyed FtsRow.rowid

namespace PageIndex

def empty : PageIndex := ⟨Pages.empty, Keyed.empty⟩

/-- `UpsertPageIndex`: the row of the page, then its row in the full-text table anew. -/
def upsertPageIndex (d : PageIndex) (vaultSlug path : Bytes)
    (title aliases tags headings blocks contentHash : Bytes) (now : Int) : PageIndex :=
  let text : PageText := ⟨some title, some aliases, some tags, some headings, some blocks⟩
  let rowid := d.pages.rowidFor vaultSlug path
  { pages := d.pages.upsert vaultSlug path text (some contentHash) now
    fts := (d.fts.deleteWhere fun f => decide (f.rowid = rowid)).upsert ⟨rowid, text, none⟩ }

/-- `DeletePageIndex`; without a slug or a path it fails. -/
def deletePageIndex (d : PageIndex) (vaultSlug path : Bytes) : PageIndex :=
  if vaultSlug = [] ∨ path = [] then d
  else
    match d.pages.table.get? (vaultSlug, path) with
    | none => d
    | some p =>
      { pages := d.pages.delete vaultSlug path
        fts := d.fts.deleteWhere fun f => decide (f.rowid = p.rowid) }

/-- What `GetPageIndex` scans; `NULL` is the empty string, except in the two columns that are
scanned into a string. -/
structure Page where
  title : Bytes
  aliases : Bytes
  tags : Bytes
  headings : Bytes
  blocks : Bytes
  contentHash : Bytes
  deriving DecidableEq

inductive PageErr
  | argsRequired | scan
  deriving DecidableEq

def getPageIndex (d : PageIndex) (vaultSlug path : Bytes) : Except PageErr (Option Page) :=
  if vaultSlug = [] ∨ path = [] then .error .argsRequired
  else
    match d.pages.table.get? (vaultSlug, path) with
    | none => .ok none
    | some p =>
      match p.text.title, p.contentHash with
      | some title, some contentHash =>
        .ok (some ⟨title, p.text.aliases.getD [], p.text.tags.getD [], p.text.headings.getD [],
          p.text.blocks.getD [], contentHash⟩)
      | _, _ => .error .scan

/-- What `SearchPageIndex` joins, before `ORDER BY` and `LIMIT`; `matched` is `MATCH`. -/
def searchPageIndex (d : PageIndex) (matched : PageText → Bytes → Bool) (vaultSlug query : Bytes) :
    Option (List PageRow) :=
  if vaultSlug = [] ∨ query = [] then none
  else some (d.pages.table.rows.filter fun p => decide (p.vaultSlug = vaultSlug) &&
    d.fts.rows.any fun f => decide (f.rowid = p.rowid) && matched f.text.coalesce query)

/-! ### In step -/

/-- The full-text table has the row of the page. -/
def Covers (d : PageIndex) (p : PageRow) : Prop :=
  ∃ f ∈ d.fts.rows, f.rowid = p.rowid ∧ f.text.coalesce = p.text.coalesce

/-- Every row of the full-text table is that of a page. -/
def Sound (d : PageIndex) : Prop :=
  ∀ f ∈ d.fts.rows, ∃ p ∈ d.pages.table.rows, p.rowid = f.rowid ∧ f.text.coalesce = p.text.coalesce

/-- The full-text table mirrors `page_index`, row by row. -/
def Mirrors (d : PageIndex) : Prop := d.Sound ∧ ∀ p ∈ d.pages.table.rows, d.Covers p

variable {d : PageIndex} {vaultSlug path : Bytes}

section Upsert
variable {title aliases tags headings blocks contentHash : Bytes} {now : Int}

theorem mem_upsert_fts {f : FtsRow} : f ∈
    (d.upsertPageIndex vaultSlug path title aliases tags headings blocks contentHash now).fts.rows ↔
      f = ⟨d.pages.rowidFor vaultSlug path,
        ⟨some title, some aliases, some tags, some headings, some blocks⟩, none⟩ ∨
      f ∈ d.fts.rows ∧ f.rowid ≠ d.pages.rowidFor vaultSlug path := by
  unfold upsertPageIndex
  simp only [Keyed.mem_upsert, Keyed.mem_deleteWhere, decide_eq_false_iff_not, and_assoc, and_self]

theorem mem_upsert_pages {p : PageRow} : p ∈
    (d.upsertPageIndex vaultSlug path title aliases tags headings blocks contentHash
      now).pages.table.rows ↔
      p = ⟨d.pages.rowidFor vaultSlug path, vaultSlug, path,
        ⟨some title, some aliases, some tags, some headings, some blocks⟩, some contentHash, now⟩ ∨
      p ∈ d.pages.table.rows ∧ p.key ≠ (vaultSlug, path) := Keyed.mem_upsert

theorem sound_upsert (h : d.Sound) :
    (d.upsertPageIndex vaultSlug path title aliases tags headings blocks contentHash now).Sound := by
  intro f hf
  rcases mem_upsert_fts.mp hf with rfl | ⟨hf, hne⟩
  · exact ⟨_, mem_upsert_pages.mpr (.inl rfl), rfl, rfl⟩
  · obtain ⟨p, hp, hid, htext⟩ := h f hf
    by_cases hk : p.key = (vaultSlug, path)
    · have hget := Keyed.get?_of_mem hp
      rw [hk] at hget
      refine absurd (hid.symm.trans ?_) hne
      simp [Pages.rowidFor, hget]
    · exact ⟨p, mem_upsert_pages.mpr (.inr ⟨hp, hk⟩), hid, htext⟩

/-- After an upsert the page itself is covered, and the other pages as before. -/
theorem covers_upsert {p : PageRow} (hp : p ∈
    (d.upsertPageIndex vaultSlug path title aliases tags headings blocks contentHash
      now).pages.table.rows) :
    (d.upsertPageIndex vaultSlug path title aliases tags headings blocks contentHash now).Covers p ↔
      p.key = (vaultSlug, path) ∨ d.Covers p := by
  rcases mem_upsert_pages.mp hp with rfl | ⟨hp, hk⟩
  · exact iff_of_true ⟨_, mem_upsert_fts.mpr (.inl rfl), rfl, rfl⟩ (.inl rfl)
  · have hne : p.rowid ≠ d.pages.rowidFor vaultSlug path := fun h => hk (Pages.key_of_rowidFor hp h)
    constructor
    · rintro ⟨f, hf, hid, htext⟩
      rcases mem_upsert_fts.mp hf with rfl | ⟨hf, -⟩
      · exact absurd hid.symm hne
      · exact .inr ⟨f, hf, hid, htext⟩
    · rintro (h | ⟨f, hf, hid, htext⟩)
      · exact absurd h hk
      · exact ⟨f, mem_upsert_fts.mpr (.inr ⟨hf, hid ▸ hne⟩), hid, htext⟩

end Upsert

section Delete
variable (hargs : vaultSlug ≠ [] ∧ path ≠ [])
include hargs

theorem mem_delete_pages {p : PageRow} :
    p ∈ (d.deletePageIndex vaultSlug path).pages.table.rows ↔
      p ∈ d.pages.table.rows ∧ p.key ≠ (vaultSlug, path) := by
  unfold deletePageIndex
  rw [if_neg (not_or.mpr hargs)]
  cases hget : d.pages.table.get? (vaultSlug, path) with
  | none =>
    refine ⟨fun hp => ⟨hp, fun hk => ?_⟩, And.left⟩
    have hget' := Keyed.get?_of_mem hp
    rw [hk, hget] at hget'
    cases hget'
  | some q => simp [Pages.delete]

theorem mem_delete_fts {f : FtsRow} : f ∈ (d.deletePageIndex vaultSlug path).fts.rows ↔
    f ∈ d.fts.rows ∧ ∀ q, d.pages.table.get? (vaultSlug, path) = some q → f.rowid ≠ q.rowid := by
  unfold deletePageIndex
  rw [if_neg (not_or.mpr hargs)]
  cases hget : d.pages.table.get? (vaultSlug, path) with
  | none => simp
  | some q => simp

theorem sound_delete (h : d.Sound) : (d.deletePageIndex vaultSlug path).Sound := by
  intro f hf
  obtain ⟨hf, hne⟩ := (mem_delete_fts hargs).mp hf
  obtain ⟨p, hp, hid, htext⟩ := h f hf
  refine ⟨p, (mem_delete_pages hargs).mpr ⟨hp, fun hk => ?_⟩, hid, htext⟩
  have hget := Keyed.get?_of_mem hp
  rw [hk] at hget
  exact hne p hget hid.symm

/-- After a deletion the pages that are left are covered as before. -/
theorem covers_delete {p : PageRow}
    (hp : p ∈ (d.deletePageIndex vaultSlug path).pages.table.rows) :
    (d.deletePageIndex vaultSlug path).Covers p ↔ d.Covers p := by
  obtain ⟨hp, hk⟩ := (mem_delete_pages hargs).mp hp
  constructor
  · rintro ⟨f, hf, hid, htext⟩
    exact ⟨f, ((mem_delete_fts hargs).mp hf).1, hid, htext⟩
  · rintro ⟨f, hf, hid, htext⟩
    refine ⟨f, (mem_delete_fts hargs).mpr ⟨hf, fun q hq he => hk ?_⟩, hid, htext⟩
    rw [d.pages.inj p hp q (Keyed.mem_of_get? hq) (hid.symm.trans he)]
    exact Keyed.key_of_get? hq

end Delete

section Get
variable {p : PageRow}

theorem get?_row (hp : p ∈ d.pages.table.rows) :
    d.pages.table.get? (p.vaultSlug, p.path) = some p := Keyed.get?_of_mem hp

/-- A page with a title and a hash is one that `GetPageIndex` reads. -/
theorem getPageIndex_of_mem (hp : p ∈ d.pages.table.rows) (hargs : p.vaultSlug ≠ [] ∧ p.path ≠ [])
    {title contentHash : Bytes} (ht : p.text.title = some title)
    (hh : p.contentHash = some contentHash) :
    d.getPageIndex p.vaultSlug p.path = .ok (some ⟨title, p.text.aliases.getD [],
      p.text.tags.getD [], p.text.headings.getD [], p.text.blocks.getD [], contentHash⟩) := by
  simp only [getPageIndex, if_neg (not_or.mpr hargs), get?_row hp, ht, hh]

theorem getPageIndex_some {page : Page} (h : d.getPageIndex vaultSlug path = .ok (some page)) :
    (vaultSlug ≠ [] ∧ path ≠ []) ∧ ∃ p ∈ d.pages.table.rows, p.key = (vaultSlug, path) ∧
      p.text.coalesce = ⟨some page.title, some page.aliases, some page.tags, some page.headings,
        some page.blocks⟩ ∧ p.contentHash = some page.contentHash := by
  unfold getPageIndex at h
  split at h
  · cases h
  · rename_i hargs
    refine ⟨not_or.mp hargs, ?_⟩
    split at h
    · cases h
    · rename_i p hget
      split at h
      · rename_i title contentHash ht hh
        cases h
        exact ⟨p, Keyed.mem_of_get? hget, Keyed.key_of_get? hget, by simp [PageText.coalesce, ht], hh⟩
      · cases h

end Get

/-- Where the full-text table mirrors the pages, a search finds the pages that match by their
own columns, and no others. -/
theorem search_of_mirrors (h : d.Mirrors) (matched : PageText → Bytes → Bool)
    {vaultSlug query : Bytes} {found : List PageRow}
    (hs : d.searchPageIndex matched vaultSlug query = some found) (p : PageRow) :
    p ∈ found ↔ p ∈ d.pages.table.rows ∧ p.vaultSlug = vaultSlug ∧
      matched p.text.coalesce query = true := by
  unfold searchPageIndex at hs
  split at hs
  · cases hs
  · cases hs
    rw [List.mem_filter, Bool.and_eq_true, decide_eq_true_eq, List.any_eq_true]
    refine and_congr_right fun hp => and_congr_right fun _ => ?_
    constructor
    · rintro ⟨f, hf, hm⟩
      rw [Bool.and_eq_true, decide_eq_true_eq] at hm
      obtain ⟨q, hq, hid, htext⟩ := h.1 f hf
      rw [← d.pages.inj q hq p hp (hid.trans hm.1), ← htext]
      exact hm.2
    · intro hm
      obtain ⟨f, hf, hid, htext⟩ := h.2 p hp
      exact ⟨f, hf, by rw [htext, hm, decide_eq_true hid]; rfl⟩

end PageIndex
end Mdock.Store
