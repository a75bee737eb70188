import Mdock.Go.Strings
import Mdock.Lib.Keyed
import Mdock.Lib.Restart

/-! The schema of the database: its tables with their columns, rows, indexes and triggers, and
the statements of SQLite that the migrations change them with. A statement that fails
changes nothing. -/
namespace Mdock.Store.Sql
open Mdock.Go Mdock.Lib

inductive Value
  | null
  | integer (n : Int)
  | text (b : Bytes)
  | blob (b : Bytes)
  deriving DecidableEq

/-- A column as it is declared; `default` is what the rows get that are there already. -/
structure Column where
  name : Bytes
  decl : Bytes
  default : Value
  deriving DecidableEq

structure Index where
  name : Bytes
  columns : List Bytes
  deriving DecidableEq

inductive Event
  | insert | delete | update
  deriving DecidableEq

/-- One `INSERT INTO page_index_fts` of a trigger: the `'delete'` command with the old row
or an insertion of the new one, with `COALESCE` or without, with the column `content` or
without. -/
structure FtsStmt where
  delete : Bool
  coalesce : Bool
  content : Bool
  deriving DecidableEq

structure Trigger where
  name : Bytes
  event : Event
  body : List FtsStmt
  deriving DecidableEq

structure Row where
  rowid : Int
  values : List Value
  deriving DecidableEq

/-- `fts5` tables are virtual ones; `constraints` is what follows the columns. -/
structure Table where
  name : Bytes
  fts5 : Bool
  columns : List Column
  constraints : Bytes
  indexes : List Index
  triggers : List Trigger
  rows : List Row
  deriving DecidableEq

abbrev Schema := Keyed Table.name

inductive SqlErr
  | duplicateColumn | noSuchTable | noSuchColumn | alreadyExists | virtualTable | constraint
  | interrupted
  deriving DecidableEq

/-- A table without rows, indexes and triggers. -/
def newTable (name : Bytes) (fts5 : Bool) (columns : List Column) (constraints : Bytes) : Table :=
  ⟨name, fts5, columns, constraints, [], [], []⟩

def col (name decl : String) (default : Value) : Column := ⟨utf8 name, utf8 decl, default⟩

def shadowSuffixes : List Bytes := ["_data", "_idx", "_content", "_docsize", "_config"].map utf8

/-- The names of the tables an `fts5` table keeps its contents in. -/
def shadowNames (name : Bytes) : List Bytes := shadowSuffixes.map (name ++ ·)

/-- The columns and the constraints of these tables, in the same order. -/
def shadowColumns (columns : Nat) : List (List Column × Bytes) :=
  [([col "id" "INTEGER PRIMARY KEY" .null, col "block" "BLOB" .null], []),
    ([col "segid" "" .null, col "term" "" .null, col "pgno" "" .null],
      utf8 "PRIMARY KEY(segid, term) WITHOUT ROWID"),
    (col "id" "INTEGER PRIMARY KEY" .null ::
      (List.range columns).map (fun i => ⟨utf8 ("c" ++ toString i), [], .null⟩), []),
    ([col "id" "INTEGER PRIMARY KEY" .null, col "sz" "BLOB" .null], []),
    ([col "k" "PRIMARY KEY" .null, col "v" "" .null], utf8 "WITHOUT ROWID")]

def shadowTables (name : Bytes) (columns : Nat) : List Table :=
  List.zipWith (fun n c => newTable n false c.1 c.2) (shadowNames name) (shadowColumns columns)

inductive Stmt
  | pragma
  | createTable (ifNotExists : Bool) (name : Bytes) (columns : List Column) (constraints : Bytes)
  | createFts5 (ifNotExists : Bool) (name : Bytes) (columns : List Column) (options : Bytes)
  | addColumn (table : Bytes) (column : Column)
  | createIndex (ifNotExists : Bool) (table : Bytes) (index : Index)
  | createTrigger (ifNotExists : Bool) (table : Bytes) (trigger : Trigger)
  | dropTrigger (name : Bytes)
  | dropTable (name : Bytes)
  | fillEmpty (table column source : Bytes)
  deriving DecidableEq

/-- An empty text at `i` is replaced by what stands at `j`. -/
def Row.fillEmpty (i j : Nat) (r : Row) : Row :=
  if r.values[i]? = some (.text []) then
    { r with values := r.values.set i (r.values.getD j .null) }
  else r

/-- Where the column stands. -/
def Table.position (t : Table) (name : Bytes) : Option Nat :=
  t.columns.findIdx? fun c => c.name = name

namespace Schema

def hasTable (s : Schema) (name : Bytes) : Bool := s.rows.any fun t => t.name = name

def hasIndex (s : Schema) (name : Bytes) : Bool :=
  s.rows.any fun t => t.indexes.any fun i => i.name = name

def hasTrigger (s : Schema) (name : Bytes) : Bool :=
  s.rows.any fun t => t.triggers.any fun g => g.name = name

theorem nodup_append {s : Schema} {ts : List Table} (hn : (ts.map Table.name).Nodup)
    (h : ∀ t ∈ ts, s.hasTable t.name = false) : ((s.rows ++ ts).map Table.name).Nodup := by
  rw [List.map_append, List.nodup_append]
  refine ⟨s.nodup, hn, ?_⟩
  intro n hn₁ n' hn₂ hne
  obtain ⟨a, ha, rfl⟩ := List.mem_map.mp hn₁
  obtain ⟨b, hb, rfl⟩ := List.mem_map.mp hn₂
  have hno := h b hb
  simp only [hasTable, List.any_eq_false, decide_eq_true_eq] at hno
  exact hno a ha hne

/-- Add tables under names that no table and no index has. -/
def add (s : Schema) (ts : List Table) : Except SqlErr Schema :=
  if h : (ts.map Table.name).Nodup ∧
      ∀ t ∈ ts, s.hasTable t.name = false ∧ s.hasIndex t.name = false then
    .ok ⟨s.rows ++ ts, nodup_append h.1 fun t ht => (h.2 t ht).1⟩
  else .error .alreadyExists

def create (s : Schema) (ifNotExists : Bool) (name : Bytes) (ts : List Table) :
    Except SqlErr Schema :=
  if s.hasTable name then if ifNotExists then .ok s else .error .alreadyExists else s.add ts

def addColumn (s : Schema) (table : Bytes) (c : Column) : Except SqlErr Schema :=
  match s.get? table with
  | none => .error .noSuchTable
  | some t =>
    if t.fts5 then .error .virtualTable
    else if (t.position c.name).isSome then .error .duplicateColumn
    else .ok (s.updateWhere (fun t => decide (t.name = table))
      (fun t => { t with
        columns := t.columns ++ [c]
        rows := t.rows.map fun r => { r with values := r.values ++ [c.default] } }) fun _ => rfl)

def createIndex (s : Schema) (ifNotExists : Bool) (table : Bytes) (i : Index) :
    Except SqlErr Schema :=
  match s.get? table with
  | none => .error .noSuchTable
  | some t =>
    if t.fts5 then .error .virtualTable
    else if s.hasTable i.name then .error .alreadyExists
    else if s.hasIndex i.name then if ifNotExists then .ok s else .error .alreadyExists
    else .ok (s.updateWhere (fun t => decide (t.name = table))
      (fun t => { t with indexes := t.indexes ++ [i] }) fun _ => rfl)

def createTrigger (s : Schema) (ifNotExists : Bool) (table : Bytes) (g : Trigger) :
    Except SqlErr Schema :=
  match s.get? table with
  | none => .error .noSuchTable
  | some t =>
    if t.fts5 then .error .virtualTable
    else if s.hasTrigger g.name then if ifNotExists then .ok s else .error .alreadyExists
    else .ok (s.updateWhere (fun t => decide (t.name = table))
      (fun t => { t with triggers := t.triggers ++ [g] }) fun _ => rfl)

/-- `DROP TRIGGER IF EXISTS`. -/
def dropTrigger (s : Schema) (name : Bytes) : Schema :=
  s.updateWhere (fun _ => true)
    (fun t => { t with triggers := t.triggers.filter fun g => g.name ≠ name }) fun _ => rfl

/-- `DROP TABLE IF EXISTS`; a table takes its indexes and triggers with it, and an `fts5`
table the tables it keeps its contents in. -/
def dropTable (s : Schema) (name : Bytes) : Schema :=
  match s.get? name with
  | none => s
  | some t =>
    let names := if t.fts5 then name :: shadowNames name else [name]
    s.deleteWhere fun t => t.name ∈ names

/-- `UPDATE table SET column = source WHERE column = ''`. -/
def fillEmpty (s : Schema) (table column source : Bytes) : Except SqlErr Schema :=
  match s.get? table with
  | none => .error .noSuchTable
  | some t =>
    match t.position column, t.position source with
    | some i, some j =>
      .ok (s.updateWhere (fun t => decide (t.name = table))
        (fun t => { t with rows := t.rows.map (Row.fillEmpty i j) }) fun _ => rfl)
    | _, _ => .error .noSuchColumn

end Schema

def Stmt.exec : Stmt → Schema → Except SqlErr Schema
  | .pragma, s => .ok s
  | .createTable ifNotExists name columns constraints, s =>
    s.create ifNotExists name [newTable name false columns constraints]
  | .createFts5 ifNotExists name columns options, s =>
    s.create ifNotExists name
      (newTable name true columns options :: shadowTables name columns.length)
  | .addColumn table c, s => s.addColumn table c
  | .createIndex ifNotExists table i, s => s.createIndex ifNotExists table i
  | .createTrigger ifNotExists table g, s => s.createTrigger ifNotExists table g
  | .dropTrigger name, s => .ok (s.dropTrigger name)
  | .dropTable name, s => .ok (s.dropTable name)
  | .fillEmpty table c source, s => s.fillEmpty table c source

/-- A column that is there already is passed over. -/
def Stmt.execIgnoreDuplicate (a : Stmt) (s : Schema) : Except SqlErr Schema :=
  match a.exec s with
  | .error .duplicateColumn => .ok s
  | r => r

/-! ### What a statement has done -/

namespace Schema
variable {s t : Schema} {n : Bytes}

theorem addColumn_ok {c : Column} (h : s.addColumn n c = .ok t) :
    ∃ a, s.get? n = some a ∧ a.fts5 = false ∧
      t = s.updateWhere (fun a => decide (a.name = n))
        (fun a => { a with
          columns := a.columns ++ [c]
          rows := a.rows.map fun r => { r with values := r.values ++ [c.default] } })
        fun _ => rfl := by
  unfold addColumn at h
  split at h
  · cases h
  · rename_i a ha
    split at h
    · cases h
    · rename_i hf
      split at h
      · cases h
      · exact ⟨a, ha, Bool.eq_false_of_not_eq_true hf, (Except.ok.inj h).symm⟩

theorem addColumn_duplicate {c : Column} (h : s.addColumn n c = .error .duplicateColumn) :
    ∃ a, s.get? n = some a ∧ a.fts5 = false ∧ (a.position c.name).isSome := by
  unfold addColumn at h
  split at h
  · cases h
  · rename_i a ha
    split at h
    · cases h
    · rename_i hf
      split at h
      · rename_i hc
        exact ⟨a, ha, Bool.eq_false_of_not_eq_true hf, hc⟩
      · cases h

/-- The index is new, or was there and asked for with `IF NOT EXISTS`. -/
theorem createIndex_ok {ifNotExists : Bool} {i : Index}
    (h : s.createIndex ifNotExists n i = .ok t) :
    ∃ a, s.get? n = some a ∧ a.fts5 = false ∧ s.hasTable i.name = false ∧
      (s.hasIndex i.name ∧ t = s ∨
        t = s.updateWhere (fun a => decide (a.name = n))
          (fun a => { a with indexes := a.indexes ++ [i] }) fun _ => rfl) := by
  unfold createIndex at h
  split at h
  · cases h
  · rename_i a ha
    split at h
    · cases h
    · rename_i hf
      split at h
      · cases h
      · rename_i hn
        refine ⟨a, ha, Bool.eq_false_of_not_eq_true hf, Bool.eq_false_of_not_eq_true hn, ?_⟩
        split at h
        · rename_i hi
          split at h
          · exact .inl ⟨hi, (Except.ok.inj h).symm⟩
          · cases h
        · exact .inr (Except.ok.inj h).symm

theorem createTrigger_ok {ifNotExists : Bool} {g : Trigger}
    (h : s.createTrigger ifNotExists n g = .ok t) :
    ∃ a, s.get? n = some a ∧ a.fts5 = false ∧
      (s.hasTrigger g.name ∧ t = s ∨
        t = s.updateWhere (fun a => decide (a.name = n))
          (fun a => { a with triggers := a.triggers ++ [g] }) fun _ => rfl) := by
  unfold createTrigger at h
  split at h
  · cases h
  · rename_i a ha
    split at h
    · cases h
    · rename_i hf
      refine ⟨a, ha, Bool.eq_false_of_not_eq_true hf, ?_⟩
      split at h
      · rename_i hg
        split at h
        · exact .inl ⟨hg, (Except.ok.inj h).symm⟩
        · cases h
      · exact .inr (Except.ok.inj h).symm

theorem fillEmpty_ok {c source : Bytes} (h : s.fillEmpty n c source = .ok t) :
    ∃ a i j, s.get? n = some a ∧ a.position c = some i ∧ a.position source = some j ∧
      t = s.updateWhere (fun a => decide (a.name = n))
        (fun a => { a with rows := a.rows.map (Row.fillEmpty i j) }) fun _ => rfl := by
  unfold fillEmpty at h
  split at h
  · cases h
  · rename_i a ha
    split at h
    · rename_i i j hi hj
      exact ⟨a, i, j, ha, hi, hj, (Except.ok.inj h).symm⟩
    · cases h

end Schema

/-! ### Statements that only add -/

namespace Schema

theorem hasTable_iff {s : Schema} {n : Bytes} : s.hasTable n ↔ ∃ t, s.get? n = some t := by
  simp only [hasTable, List.any_eq_true, decide_eq_true_eq, Keyed.get?_eq_some_iff]

theorem hasTable_updateWhere (s : Schema) (p : Table → Bool) (f : Table → Table)
    (hf : ∀ t, (f t).name = t.name) (n : Bytes) :
    hasTable (s.updateWhere p f hf) n = s.hasTable n := by
  rw [Bool.eq_iff_iff, hasTable_iff, hasTable_iff, Keyed.get?_updateWhere]
  constructor
  · rintro ⟨t, ht⟩
    obtain ⟨a, ha, -⟩ := Option.map_eq_some_iff.mp ht
    exact ⟨a, ha⟩
  · rintro ⟨a, ha⟩
    exact ⟨_, Option.map_eq_some_iff.mpr ⟨a, ha, rfl⟩⟩

/-- Nothing that a later statement looks for has gone. -/
structure Grows (s t : Schema) : Prop where
  table : ∀ n a, s.get? n = some a → ∃ b, t.get? n = some b ∧ b.fts5 = a.fts5 ∧
    ∀ c, (a.position c).isSome → (b.position c).isSome
  index : ∀ n, s.hasIndex n → t.hasIndex n ∧ (s.hasTable n = false → t.hasTable n = false)
  trigger : ∀ n, s.hasTrigger n → t.hasTrigger n

theorem Grows.refl (s : Schema) : Grows s s :=
  ⟨fun _ a h => ⟨a, h, rfl, fun _ h => h⟩, fun _ h => ⟨h, id⟩, fun _ h => h⟩

theorem grows_update (s : Schema) (p : Table → Bool) (f : Table → Table)
    (hf : ∀ t, (f t).name = t.name) (hfts : ∀ t, (f t).fts5 = t.fts5)
    (hcol : ∀ t c, (t.position c).isSome → ((f t).position c).isSome)
    (hidx : ∀ t i, i ∈ t.indexes → i ∈ (f t).indexes)
    (htrg : ∀ t g, g ∈ t.triggers → g ∈ (f t).triggers) : Grows s (s.updateWhere p f hf) := by
  refine ⟨fun n a ha => ?_, fun n hn => ⟨?_, fun hno => ?_⟩, fun n hn => ?_⟩
  · refine ⟨if p a then f a else a, ?_, ?_, fun c hc => ?_⟩
    · rw [Keyed.get?_updateWhere, ha]
      rfl
    · split
      · exact hfts a
      · rfl
    · split
      · exact hcol a c hc
      · exact hc
  · simp only [hasIndex, List.any_eq_true, decide_eq_true_eq, Keyed.updateWhere,
      List.mem_map] at hn ⊢
    obtain ⟨t, ht, i, hi, rfl⟩ := hn
    refine ⟨_, ⟨t, ht, rfl⟩, i, ?_, rfl⟩
    split
    · exact hidx t i hi
    · exact hi
  · rw [hasTable_updateWhere, hno]
  · simp only [hasTrigger, List.any_eq_true, decide_eq_true_eq, Keyed.updateWhere,
      List.mem_map] at hn ⊢
    obtain ⟨t, ht, g, hg, rfl⟩ := hn
    refine ⟨_, ⟨t, ht, rfl⟩, g, ?_, rfl⟩
    split
    · exact htrg t g hg
    · exact hg

theorem add_ok {s t : Schema} {ts : List Table} (h : s.add ts = .ok t) :
    t.rows = s.rows ++ ts ∧
      ∀ a ∈ ts, s.hasTable a.name = false ∧ s.hasIndex a.name = false := by
  unfold add at h
  split at h
  · rename_i hno
    cases h
    exact ⟨rfl, hno.2⟩
  · cases h

theorem grows_add {s t : Schema} {ts : List Table} (h : s.add ts = .ok t) : Grows s t := by
  obtain ⟨hrows, hno⟩ := add_ok h
  refine ⟨fun n a ha => ?_, fun n hn => ⟨?_, fun hnt => ?_⟩, fun n hn => ?_⟩
  · refine ⟨a, ?_, rfl, fun c hc => hc⟩
    rw [Keyed.get?_eq_some_iff] at ha ⊢
    rw [hrows]
    exact ⟨List.mem_append_left ts ha.1, ha.2⟩
  · rw [hasIndex, hrows, List.any_append, Bool.or_eq_true]
    exact .inl hn
  · rw [hasTable, hrows, List.any_append, Bool.or_eq_false_iff]
    refine ⟨hnt, ?_⟩
    simp only [List.any_eq_false, decide_eq_true_eq]
    rintro a ha rfl
    rw [(hno a ha).2] at hn
    cases hn
  · rw [hasTrigger, hrows, List.any_append, Bool.or_eq_true]
    exact .inl hn

theorem grows_create {s t : Schema} {ifNotExists : Bool} {n : Bytes} {ts : List Table}
    (h : s.create ifNotExists n ts = .ok t) : Grows s t := by
  unfold create at h
  split at h
  · split at h
    · cases h
      exact .refl s
    · cases h
  · exact grows_add h

theorem position_append {t : Table} {n : Bytes} {cs : List Column} (h : (t.position n).isSome) :
    ({ t with columns := t.columns ++ cs }.position n).isSome := by
  simp only [Table.position, List.findIdx?_isSome, List.any_append, Bool.or_eq_true] at h ⊢
  exact .inl h

end Schema

/-- The statement takes nothing away. -/
def Stmt.additive : Stmt → Bool
  | .dropTrigger _ | .dropTable _ => false
  | _ => true

theorem Stmt.grows {a : Stmt} (ha : a.additive = true) {s t : Schema} (h : a.exec s = .ok t) :
    s.Grows t := by
  cases a with
  | pragma =>
    cases h
    exact .refl s
  | createTable | createFts5 => exact Schema.grows_create h
  | addColumn table c =>
    obtain ⟨a, -, -, rfl⟩ := Schema.addColumn_ok h
    exact Schema.grows_update s _ _ _ (fun _ => rfl) (fun _ _ => Schema.position_append)
      (fun _ _ hi => hi) fun _ _ hg => hg
  | createIndex ifNotExists table i =>
    obtain ⟨a, -, -, -, ⟨-, rfl⟩ | rfl⟩ := Schema.createIndex_ok h
    · exact .refl t
    · exact Schema.grows_update s _ _ _ (fun _ => rfl) (fun _ _ hc => hc)
        (fun _ _ hi => List.mem_append_left _ hi) fun _ _ hg => hg
  | createTrigger ifNotExists table g =>
    obtain ⟨a, -, -, ⟨-, rfl⟩ | rfl⟩ := Schema.createTrigger_ok h
    · exact .refl t
    · exact Schema.grows_update s _ _ _ (fun _ => rfl) (fun _ _ hc => hc)
        (fun _ _ hi => hi) fun _ _ hg => List.mem_append_left _ hg
  | fillEmpty table c source =>
    obtain ⟨a, i, j, -, -, -, rfl⟩ := Schema.fillEmpty_ok h
    exact Schema.grows_update s _ _ _ (fun _ => rfl) (fun _ _ hc => hc)
      (fun _ _ hi => hi) fun _ _ hg => hg
  | dropTrigger | dropTable => cases ha

theorem Stmt.execIgnoreDuplicate_ok {a : Stmt} {s t : Schema}
    (h : a.execIgnoreDuplicate s = .ok t) :
    a.exec s = .ok t ∨ a.exec s = .error .duplicateColumn ∧ t = s := by
  unfold execIgnoreDuplicate at h
  split at h
  · rename_i he
    cases h
    exact .inr ⟨he, rfl⟩
  · exact .inl h

/-- What the statement is to bring about is there. -/
def Stmt.present : Stmt → Schema → Prop
  | .pragma, _ => True
  | .createTable true name _ _, s | .createFts5 true name _ _, s => s.hasTable name
  | .addColumn table c, s =>
    ∃ t, s.get? table = some t ∧ t.fts5 = false ∧ (t.position c.name).isSome
  | .createIndex true table i, s =>
    (∃ t, s.get? table = some t ∧ t.fts5 = false) ∧ s.hasTable i.name = false ∧ s.hasIndex i.name
  | .createTrigger true table g, s =>
    (∃ t, s.get? table = some t ∧ t.fts5 = false) ∧ s.hasTrigger g.name
  | .fillEmpty table c source, s => s.fillEmpty table c source = .ok s
  | _, _ => False

/-- `present` lasts under the statements that only add. -/
def Stmt.lasting : Stmt → Bool
  | .pragma | .createTable true _ _ _ | .createFts5 true _ _ _ | .addColumn _ _
  | .createIndex true _ _ | .createTrigger true _ _ => true
  | _ => false

theorem Stmt.present_execIgnoreDuplicate {a : Stmt} {s : Schema} (h : a.present s) :
    a.execIgnoreDuplicate s = .ok s := by
  unfold present at h
  split at h
  · rfl
  · simp [execIgnoreDuplicate, exec, Schema.create, h]
  · simp [execIgnoreDuplicate, exec, Schema.create, h]
  · obtain ⟨t, ht, hf, hc⟩ := h
    simp [execIgnoreDuplicate, exec, Schema.addColumn, ht, hf, hc]
  · obtain ⟨⟨t, ht, hf⟩, hn, hi⟩ := h
    simp [execIgnoreDuplicate, exec, Schema.createIndex, ht, hf, hn, hi]
  · obtain ⟨⟨t, ht, hf⟩, hg⟩ := h
    simp [execIgnoreDuplicate, exec, Schema.createTrigger, ht, hf, hg]
  · rename_i table c source s
    simp [execIgnoreDuplicate, exec, h]
  · exact h.elim

theorem Stmt.present_grows {a : Stmt} (ha : a.lasting = true) {s t : Schema} (h : a.present s)
    (hg : s.Grows t) : a.present t := by
  have htable : ∀ n, s.hasTable n → t.hasTable n := fun n hn => by
    obtain ⟨b, hb⟩ := Schema.hasTable_iff.mp hn
    obtain ⟨b', hb', -⟩ := hg.table n b hb
    exact Schema.hasTable_iff.mpr ⟨b', hb'⟩
  have hplain : ∀ n, (∃ b, s.get? n = some b ∧ b.fts5 = false) →
      ∃ b, t.get? n = some b ∧ b.fts5 = false := by
    rintro n ⟨b, hb, hf⟩
    obtain ⟨b', hb', hf', -⟩ := hg.table n b hb
    exact ⟨b', hb', hf'.trans hf⟩
  unfold present at h
  split at h
  · trivial
  · exact htable _ h
  · exact htable _ h
  · obtain ⟨b, hb, hf, hc⟩ := h
    obtain ⟨b', hb', hf', hcol⟩ := hg.table _ b hb
    exact ⟨b', hb', hf'.trans hf, hcol _ hc⟩
  · obtain ⟨hb, hn, hi⟩ := h
    exact ⟨hplain _ hb, (hg.index _ hi).2 hn, (hg.index _ hi).1⟩
  · exact ⟨hplain _ h.1, hg.trigger _ h.2⟩
  · cases ha
  · exact h.elim

namespace Schema

theorem get?_update {s : Schema} {n : Bytes} {a : Table} (ha : s.get? n = some a)
    (f : Table → Table) (hf : ∀ t, (f t).name = t.name) :
    (s.updateWhere (fun t => decide (t.name = n)) f hf).get? n = some (f a) := by
  rw [Keyed.get?_updateWhere, ha, Option.map_some, if_pos (decide_eq_true (Keyed.key_of_get? ha))]

theorem hasTable_create {s t : Schema} {n : Bytes} {b : Table} {ts : List Table} (hb : b.name = n)
    (h : s.create true n (b :: ts) = .ok t) : t.hasTable n := by
  unfold create at h
  split at h
  · rename_i hn
    cases h
    exact hn
  · rw [hasTable, (add_ok h).1, List.any_append, Bool.or_eq_true]
    exact .inr (by simp [hb])

theorem addColumn_present {s t : Schema} {n : Bytes} {c : Column}
    (h : s.addColumn n c = .ok t ∨ s.addColumn n c = .error .duplicateColumn ∧ t = s) :
    (Stmt.addColumn n c).present t := by
  rcases h with h | ⟨h, rfl⟩
  · obtain ⟨a, ha, hf, rfl⟩ := addColumn_ok h
    refine ⟨_, get?_update ha _ _, hf, ?_⟩
    simp [Table.position]
  · exact addColumn_duplicate h

theorem createIndex_present {s t : Schema} {n : Bytes} {i : Index}
    (h : s.createIndex true n i = .ok t) : (Stmt.createIndex true n i).present t := by
  obtain ⟨a, ha, hf, hn, ⟨hi, rfl⟩ | rfl⟩ := createIndex_ok h
  · exact ⟨⟨a, ha, hf⟩, hn, hi⟩
  · refine ⟨⟨_, get?_update ha _ _, hf⟩, ?_, ?_⟩
    · rw [hasTable_updateWhere, hn]
    · simp only [hasIndex, List.any_eq_true, decide_eq_true_eq]
      exact ⟨_, Keyed.mem_of_get? (get?_update ha _ _), i,
        List.mem_append_right _ (List.mem_singleton.mpr rfl), rfl⟩

theorem createTrigger_present {s t : Schema} {n : Bytes} {g : Trigger}
    (h : s.createTrigger true n g = .ok t) : (Stmt.createTrigger true n g).present t := by
  obtain ⟨a, ha, hf, ⟨hg, rfl⟩ | rfl⟩ := createTrigger_ok h
  · exact ⟨⟨a, ha, hf⟩, hg⟩
  · refine ⟨⟨_, get?_update ha _ _, hf⟩, ?_⟩
    simp only [hasTrigger, List.any_eq_true, decide_eq_true_eq]
    exact ⟨_, Keyed.mem_of_get? (get?_update ha _ _), g,
      List.mem_append_right _ (List.mem_singleton.mpr rfl), rfl⟩

end Schema

theorem Row.fillEmpty_twice (i j : Nat) (r : Row) :
    (r.fillEmpty i j).fillEmpty i j = r.fillEmpty i j := by
  by_cases h : r.values[i]? = some (.text [])
  · have hi : i < r.values.length := (List.getElem?_eq_some_iff.mp h).1
    by_cases hij : j = i
    · subst hij
      simp [fillEmpty, hi]
    · simp only [fillEmpty, h, if_true]
      simp [List.getD_eq_getElem?_getD, hi, Ne.symm hij]
  · simp [fillEmpty, h]

theorem Schema.fillEmpty_twice {s t : Schema} {n c source : Bytes}
    (h : s.fillEmpty n c source = .ok t) : t.fillEmpty n c source = .ok t := by
  obtain ⟨a, i, j, ha, hi, hj, rfl⟩ := fillEmpty_ok h
  simp only [Table.position] at hi hj
  simp only [fillEmpty, get?_update ha, Table.position, hi, hj]
  refine congrArg Except.ok (Keyed.eq_of_rows ?_)
  simp only [Keyed.updateWhere, List.map_map]
  refine List.map_congr_left fun t _ => ?_
  by_cases ht : t.name = n
  · simp [ht, Row.fillEmpty_twice]
  · simp [ht]

def Stmt.addsColumn : Stmt → Bool
  | .addColumn _ _ => true
  | _ => false

/-- Only a column can be there twice. -/
theorem Stmt.exec_ne_duplicate {a : Stmt} (ha : a.addsColumn = false) (s : Schema) :
    a.exec s ≠ .error .duplicateColumn := by
  cases a with
  | addColumn => cases ha
  | pragma | dropTrigger | dropTable => simp [exec]
  | createTable | createFts5 =>
    simp only [exec, Schema.create, Schema.add]
    split_ifs <;> simp
  | createIndex =>
    simp only [exec, Schema.createIndex]
    split
    · simp
    · split_ifs <;> simp
  | createTrigger =>
    simp only [exec, Schema.createTrigger]
    split
    · simp
    · split_ifs <;> simp
  | fillEmpty =>
    simp only [exec, Schema.fillEmpty]
    split
    · simp
    · split <;> simp

theorem Stmt.execIgnoreDuplicate_eq {a : Stmt} (ha : a.addsColumn = false) (s : Schema) :
    a.execIgnoreDuplicate s = a.exec s := by
  unfold execIgnoreDuplicate
  split
  · rename_i h
    exact absurd h (exec_ne_duplicate ha s)
  · rfl

/-- A statement that has been executed has brought its work about. -/
theorem Stmt.execIgnoreDuplicate_present {a : Stmt} (ha : a.lasting = true) {s t : Schema}
    (h : a.execIgnoreDuplicate s = .ok t) : a.present t := by
  cases a with
  | pragma => trivial
  | addColumn n c => exact Schema.addColumn_present (execIgnoreDuplicate_ok h)
  | createTable ifNotExists | createFts5 ifNotExists =>
    rw [execIgnoreDuplicate_eq rfl] at h
    cases ifNotExists with
    | true => exact Schema.hasTable_create rfl h
    | false => cases ha
  | createIndex ifNotExists =>
    rw [execIgnoreDuplicate_eq rfl] at h
    cases ifNotExists with
    | true => exact Schema.createIndex_present h
    | false => cases ha
  | createTrigger ifNotExists =>
    rw [execIgnoreDuplicate_eq rfl] at h
    cases ifNotExists with
    | true => exact Schema.createTrigger_present h
    | false => cases ha
  | dropTrigger | dropTable | fillEmpty => cases ha

theorem Stmt.execIgnoreDuplicate_of_exec {a : Stmt} {s t : Schema} (h : a.exec s = .ok t) :
    a.execIgnoreDuplicate s = .ok t := by
  rw [execIgnoreDuplicate, h]

theorem Stmt.additive_of_lasting {a : Stmt} (ha : a.lasting = true) : a.additive = true := by
  cases a with
  | dropTrigger | dropTable => cases ha
  | _ => rfl

theorem Stmt.present_kept {a b : Stmt} (ha : a.lasting = true) (hb : b.additive = true)
    {s t : Schema} (hp : a.present s) (h : b.execIgnoreDuplicate s = .ok t) : a.present t := by
  rcases execIgnoreDuplicate_ok h with h | ⟨-, rfl⟩
  · exact present_grows ha hp (grows hb h)
  · exact hp

section Restart
variable {as : List Stmt} (has : ∀ a ∈ as, a.lasting = true)
include has

theorem pairwise_present : as.Pairwise fun a b => ∀ s t, a.present s →
    b.execIgnoreDuplicate s = .ok t → a.present t :=
  List.pairwise_of_forall_mem_list fun a ha b hb _ _ hp h =>
    Stmt.present_kept (has a ha) (Stmt.additive_of_lasting (has b hb)) hp h

/-- Statements that add what is missing can be broken off. -/
theorem restartable_exec (hno : ∀ a ∈ as, a.addsColumn = false) :
    Restartable Stmt.exec as := by
  refine restartable_of_present Stmt.present (fun a ha s hp => ?_) (fun a ha s t h => ?_)
    ((pairwise_present has).imp fun hab s t hp h => hab s t hp (Stmt.execIgnoreDuplicate_of_exec h))
  · rw [← Stmt.execIgnoreDuplicate_eq (hno a ha)]
    exact Stmt.present_execIgnoreDuplicate hp
  · exact Stmt.execIgnoreDuplicate_present (has a ha) (Stmt.execIgnoreDuplicate_of_exec h)

theorem restartable_execIgnoreDuplicate : Restartable Stmt.execIgnoreDuplicate as :=
  restartable_of_present Stmt.present (fun _ _ _ => Stmt.present_execIgnoreDuplicate)
    (fun a ha _ _ => Stmt.execIgnoreDuplicate_present (has a ha)) (pairwise_present has)

/-- At the end an update may fill in what is empty. -/
theorem restartable_fillEmpty (table c source : Bytes) :
    Restartable Stmt.execIgnoreDuplicate (as ++ [.fillEmpty table c source]) := by
  refine restartable_of_present Stmt.present (fun _ _ _ => Stmt.present_execIgnoreDuplicate)
    (fun a ha s t h => ?_) ?_
  · rcases List.mem_append.mp ha with ha | ha
    · exact Stmt.execIgnoreDuplicate_present (has a ha) h
    · rw [List.mem_singleton.mp ha] at h ⊢
      rw [Stmt.execIgnoreDuplicate_eq rfl] at h
      exact Schema.fillEmpty_twice h
  · rw [List.pairwise_append]
    refine ⟨pairwise_present has, List.pairwise_singleton _ _, fun a ha b hb s t hp h => ?_⟩
    rw [List.mem_singleton.mp hb] at h
    exact Stmt.present_kept (has a ha) rfl hp h

end Restart

/-! ### Statements that take away -/

namespace Schema

def dropTriggers (names : List Bytes) (s : Schema) : Schema :=
  s.updateWhere (fun _ => true)
    (fun t => { t with triggers := t.triggers.filter fun g => g.name ∉ names }) fun _ => rfl

theorem dropTriggers_eq {s t : Schema} {names : List Bytes}
    (h : s.rows.map (fun a => { a with triggers := a.triggers.filter fun g => g.name ∉ names }) =
      t.rows.map fun a => { a with triggers := a.triggers.filter fun g => g.name ∉ names }) :
    s.dropTriggers names = t.dropTriggers names := by
  apply Keyed.eq_of_rows
  simpa only [dropTriggers, Keyed.updateWhere, if_true] using h

/-- Dropping one more of the triggers first makes no difference. -/
theorem dropTriggers_dropTrigger {names : List Bytes} {n : Bytes} (hn : n ∈ names) (s : Schema) :
    (s.dropTrigger n).dropTriggers names = s.dropTriggers names := by
  apply dropTriggers_eq
  simp only [dropTrigger, Keyed.updateWhere, if_true, List.map_map]
  refine List.map_congr_left fun a _ => ?_
  simp only [Function.comp_apply, List.filter_filter]
  congr 2
  funext g
  by_cases hg : g.name = n
  · simp [hg, hn]
  · simp [hg]

theorem execAll_dropTriggers (names : List Bytes) (s : Schema) :
    execAll Stmt.exec (names.map .dropTrigger) s = .ok (s.dropTriggers names) := by
  induction names generalizing s with
  | nil =>
    refine congrArg Except.ok (Keyed.eq_of_rows ?_)
    simp [dropTriggers, Keyed.updateWhere]
  | cons n names ih =>
    rw [List.map_cons, execAll]
    refine (ih (s.dropTrigger n)).trans (congrArg Except.ok (Keyed.eq_of_rows ?_))
    simp only [dropTriggers, dropTrigger, Keyed.updateWhere, if_true, List.map_map]
    refine List.map_congr_left fun a _ => ?_
    simp [List.filter_filter, Bool.and_comm]

/-- A trigger of that name is dropped again. -/
theorem dropTriggers_createTrigger {s t : Schema} {names : List Bytes} {ifNotExists : Bool}
    {n : Bytes} {g : Trigger} (hg : g.name ∈ names)
    (h : s.createTrigger ifNotExists n g = .ok t) :
    t.dropTriggers names = s.dropTriggers names := by
  obtain ⟨a, -, -, ⟨-, rfl⟩ | rfl⟩ := createTrigger_ok h
  · rfl
  · apply dropTriggers_eq
    simp only [Keyed.updateWhere, List.map_map]
    refine List.map_congr_left fun a _ => ?_
    by_cases ha : a.name = n
    · simp [ha, hg]
    · simp [ha]

theorem get?_dropTriggers (s : Schema) (names : List Bytes) (n : Bytes) :
    (s.dropTriggers names).get? n = (s.get? n).map fun t =>
      { t with triggers := t.triggers.filter fun g => g.name ∉ names } := by
  rw [dropTriggers, Keyed.get?_updateWhere]
  rfl

theorem dropTable_dropTriggers (s : Schema) (names : List Bytes) (n : Bytes) :
    (s.dropTriggers names).dropTable n = (s.dropTable n).dropTriggers names := by
  unfold dropTable
  rw [get?_dropTriggers]
  cases s.get? n with
  | none => rfl
  | some t =>
    apply Keyed.eq_of_rows
    simp [Keyed.deleteWhere, dropTriggers, Keyed.updateWhere, List.filter_map, Function.comp_def]

theorem get?_dropTable (s : Schema) (n : Bytes) : (s.dropTable n).get? n = none := by
  unfold dropTable
  cases h : s.get? n with
  | none => exact h
  | some t =>
    rw [Keyed.get?_deleteWhere, h, Option.filter_eq_none_iff]
    rintro a ha
    cases ha
    have hk := Keyed.key_of_get? h
    by_cases hf : t.fts5 = true <;> simp [hf, hk]

theorem dropTable_dropTable (s : Schema) (n : Bytes) :
    (s.dropTable n).dropTable n = s.dropTable n := by
  rw [dropTable, get?_dropTable]

/-- Dropping an `fts5` table leaves what was there before it was created. -/
theorem dropTable_createFts5 {s t : Schema} {n : Bytes} {columns : List Column} {options : Bytes}
    (h : (Stmt.createFts5 false n columns options).exec s = .ok t) :
    t.dropTable n = s.dropTable n := by
  simp only [Stmt.exec, create] at h
  split at h
  · cases h
  · rename_i hn
    obtain ⟨hrows, hno⟩ := add_ok h
    have hnames : (newTable n true columns options :: shadowTables n columns.length).map
        Table.name = n :: shadowNames n := rfl
    have hget : s.get? n = none := by
      rw [Option.eq_none_iff_forall_ne_some]
      exact fun a ha => hn (hasTable_iff.mpr ⟨a, ha⟩)
    have hfts : t.get? n = some (newTable n true columns options) :=
      Keyed.get?_eq_some_iff.mpr ⟨hrows ▸ List.mem_append_right _ List.mem_cons_self, rfl⟩
    have hold : ∀ a ∈ s.rows, a.name ∉ n :: shadowNames n := by
      intro a ha hm
      rw [← hnames] at hm
      obtain ⟨b, hb, he⟩ := List.mem_map.mp hm
      have hb' := (hno b hb).1
      simp only [hasTable, List.any_eq_false, decide_eq_true_eq] at hb'
      exact hb' a ha he.symm
    have hnew : ∀ b ∈ newTable n true columns options :: shadowTables n columns.length,
        b.name ∈ n :: shadowNames n := fun b hb => hnames ▸ List.mem_map_of_mem hb
    rw [dropTable, hfts, dropTable, hget]
    apply Keyed.eq_of_rows
    simp only [Keyed.deleteWhere, newTable, if_true, hrows, List.filter_append]
    rw [List.filter_eq_self.mpr, List.filter_eq_nil_iff.mpr, List.append_nil]
    · intro b hb
      rw [decide_eq_true (hnew b hb)]
      decide
    · intro a ha
      simpa using hold a ha

end Schema

end Mdock.Store.Sql
