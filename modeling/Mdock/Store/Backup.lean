import Mathlib.Data.List.Sort
import Mdock.Store.Migrations
import Mdock.Store.Vaults

/-! `dumpSQL`: the script a backup consists of, and what SQLite makes of it when it is run on an
empty database. The statements that insert rows, and the full-text search, are those of SQLite. -/
namespace Mdock.Store.Backup
open Mdock.Go Mdock.Lib Mdock.Store.Sql Mdock.Store.Migrations

/-! ### The text -/

def quote (c : Bytes) (b : Bytes) : Bytes :=
  c ++ b.flatMap (fun x => if [x] = c then c ++ c else [x]) ++ c

def quoteIdent (value : Bytes) : Bytes := quote (utf8 "\"") value

def hexDigit (n : Nat) : UInt8 := if n < 10 then (0x30 + n).toUInt8 else (0x37 + n).toUInt8

def sqlLiteral : Value → Bytes
  | .null => utf8 "NULL"
  | .integer n => sprintInt n
  | .blob b =>
    utf8 "X'" ++ b.flatMap (fun x => [hexDigit (x.toNat / 16), hexDigit (x.toNat % 16)]) ++ utf8 "'"
  | .text b => quote (utf8 "'") b

def commaSep : List Bytes → Bytes
  | [] => []
  | [b] => b
  | b :: bs => b ++ utf8 ", " ++ commaSep bs

def columnSQL (c : Column) : Bytes := if c.decl = [] then c.name else c.name ++ utf8 " " ++ c.decl

/-- The text in `sqlite_schema`, up to white space and the quotes of names. -/
def tableSQL (t : Table) : Bytes :=
  if t.fts5 then
    utf8 "CREATE VIRTUAL TABLE " ++ t.name ++ utf8 " USING fts5(" ++
      commaSep (t.columns.map columnSQL ++ [t.constraints]) ++ utf8 ")"
  else
    utf8 "CREATE TABLE " ++ t.name ++ utf8 " (" ++
      commaSep (t.columns.map columnSQL ++ if t.constraints = [] then [] else [t.constraints]) ++
      utf8 ")"

def insertSQL (table : Bytes) (columns : List Bytes) (values : List Value) : Bytes :=
  utf8 "INSERT INTO " ++ quoteIdent table ++ utf8 " (" ++ commaSep (columns.map quoteIdent) ++
    utf8 ") VALUES (" ++ commaSep (values.map sqlLiteral) ++ utf8 ");\n"

/-- `schema_migrations` as a table. -/
def schemaMigrations (t : Keyed Record.id) : Table :=
  { newTable (utf8 "schema_migrations") false
      [col "id" "INTEGER PRIMARY KEY" .null, col "name" "TEXT NOT NULL" .null,
        col "applied_at" "TEXT NOT NULL DEFAULT CURRENT_TIMESTAMP" .null] [] with
    rows := t.rows.map fun r => ⟨r.id, [.integer r.id, .text r.name, .text r.appliedAt]⟩ }

def tables (d : Migrations.Database) : List Table :=
  d.schema.rows ++ (d.applied.map schemaMigrations).toList

/-- `name LIKE 'sqlite_%'`. -/
def likeSqlite (name : Bytes) : Bool :=
  (name.take 6).map (fun b => if 0x41 ≤ b ∧ b ≤ 0x5A then b + 0x20 else b) = utf8 "sqlite" ∧
    7 ≤ name.length

/-- The comparison of `dumpTables`. -/
def less (a b : Bytes) : Bool := a = utf8 "users" ∨ b ≠ utf8 "users" ∧ a < b

/-- The tables as the query gives them, and then sorted once more. -/
def dumpOrder (ts : List Table) : List Table :=
  ((ts.filter fun t => !likeSqlite t.name).insertionSort fun a b => a.name ≤ b.name)
    |>.insertionSort fun a b => less b.name a.name = false

def dumpTables (d : Migrations.Database) : List Table := dumpOrder (tables d)

def dumpTableRows (t : Table) : Bytes :=
  t.rows.flatMap fun r => insertSQL t.name (t.columns.map Column.name) r.values

def dumpSQL (d : Migrations.Database) : Bytes :=
  utf8 "PRAGMA foreign_keys=OFF;\n" ++ utf8 "BEGIN TRANSACTION;\n" ++
    (dumpTables d).flatMap (fun t => tableSQL t ++ utf8 ";\n") ++
    (dumpTables d).flatMap dumpTableRows ++
    utf8 "COMMIT;\n" ++ utf8 "PRAGMA foreign_keys=ON;\n"

/-! ### The script -/

/-- The statements of a script; of a table `create` keeps what its text says. -/
inductive Command
  | pragma (on : Bool)
  | begin
  | commit
  | create (t : Table)
  | insert (table : Bytes) (columns : List Bytes) (values : List Value)

def Command.text : Command → Bytes
  | .pragma on => utf8 (if on then "PRAGMA foreign_keys=ON;\n" else "PRAGMA foreign_keys=OFF;\n")
  | .begin => utf8 "BEGIN TRANSACTION;\n"
  | .commit => utf8 "COMMIT;\n"
  | .create t => tableSQL t ++ utf8 ";\n"
  | .insert table columns values => insertSQL table columns values

/-- The table without its rows. -/
def object (t : Table) : Table := { t with rows := [] }

/-- The table without its rows, indexes and triggers. -/
def declaration (t : Table) : Table := newTable t.name t.fts5 t.columns t.constraints

def creates (ts : List Table) : List Command := ts.map fun t => .create (declaration t)

def inserts (t : Table) : List Command :=
  t.rows.map fun r => .insert t.name (t.columns.map Column.name) r.values

def script (d : Migrations.Database) : List Command :=
  [.pragma false, .begin] ++ creates (dumpTables d) ++ (dumpTables d).flatMap inserts ++
    [.commit, .pragma true]

/-- The dump is the text of the script. -/
theorem dumpSQL_eq (d : Migrations.Database) :
    dumpSQL d = (script d).flatMap Command.text := by
  have hrows : ∀ t : Table, dumpTableRows t = (inserts t).flatMap Command.text := fun t => by
    simp [dumpTableRows, inserts, List.flatMap_map, Command.text]
  have hcreates : (dumpTables d).flatMap (fun t => tableSQL t ++ utf8 ";\n") =
      (creates (dumpTables d)).flatMap Command.text := by
    simp [creates, List.flatMap_map, Command.text, tableSQL, declaration, newTable]
  rw [dumpSQL, hcreates, script]
  simp only [List.flatMap_append, List.flatMap_cons, List.flatMap_nil, List.append_nil,
    List.flatMap_assoc, ← hrows, Command.text, List.append_assoc]
  rfl

section Restore
variable (insert : Bytes → List Bytes → List Value → Schema → Except SqlErr Schema)

/-- What SQLite makes of a statement of a script. -/
def Command.exec : Command → Schema → Except SqlErr Schema
  | .pragma _, s | .begin, s | .commit, s => .ok s
  | .create t, s =>
    if t.fts5 then (Stmt.createFts5 false t.name t.columns t.constraints).exec s
    else (Stmt.createTable false t.name t.columns t.constraints).exec s
  | .insert table columns values, s => insert table columns values s

/-- `SELECT ... FROM page_index JOIN page_index_fts ON rowid`; `hits` are the rowids that the
full-text search finds, in its order. -/
def searchPages (hits : List Row → Bytes → List Int) (ts : List Table) (query : Bytes) :
    List Row :=
  let rowsOf (name : String) :=
    ((ts.find? fun t => t.name = utf8 name).map Table.rows).getD []
  (hits (rowsOf "page_index_fts") query).filterMap fun rowid =>
    (rowsOf "page_index").find? fun r => r.rowid = rowid

/-- The dump, run on an empty database, gives back tables, indexes, triggers, rows and the
answers of the search. -/
def Restores (hits : List Row → Bytes → List Int) (d : Migrations.Database) : Prop :=
  ∃ r : Schema, execAll (Command.exec insert) (script d) .empty = .ok r ∧
    (∀ o, o ∈ r.rows.map object ↔ o ∈ (tables d).map object) ∧
    (∀ t ∈ r.rows, ∀ u ∈ tables d, t.name = u.name →
      (t.rows.map Row.values).Perm (u.rows.map Row.values)) ∧
    ∀ query, searchPages hits r.rows query = searchPages hits (tables d) query

end Restore

/-! ### Every dump fails -/

/-- A database that `migrate` and any calls of the store have made: these change rows only. -/
def Reachable (d : Migrations.Database) : Prop :=
  ∃ e d₀, Relation.ReflTransGen Attempt newDatabase e ∧ Completes e d₀ ∧
    d.schema.rows.map object = d₀.schema.rows.map object ∧ d.applied.isSome

theorem map_object_dumpOrder (ts : List Table) :
    (dumpOrder ts).map object = dumpOrder (ts.map object) := by
  have hsort : ∀ (r : Bytes → Bytes → Prop) [DecidableRel r] (ts : List Table),
      (ts.insertionSort fun a b => r a.name b.name).map object =
        (ts.map object).insertionSort fun a b => r a.name b.name :=
    fun r _ ts => List.map_insertionSort _ _ object ts fun _ _ _ _ => Iff.rfl
  unfold dumpOrder
  rw [hsort (fun a b => less b a = false), hsort (fun a b => a ≤ b), List.filter_map]
  rfl

theorem creates_map_object (ts : List Table) : creates (ts.map object) = creates ts := by
  simp only [creates, List.map_map]
  rfl

/-- The tables of a database of the present version. -/
def newTables : List Table :=
  (migrate [] ⟨newDatabase, none⟩).2.db.schema.rows.map object ++
    [object (schemaMigrations .empty)]

theorem tables_of_reachable {d : Migrations.Database} (h : Reachable d) :
    (tables d).map object = newTables := by
  obtain ⟨e, d₀, he, ⟨now, left, c, hc, rfl⟩, hobj, happ⟩ := h
  have hnew := complete_run [] newDatabase newDatabase_migrates
  obtain ⟨r, hr, hsame⟩ := attempts_complete now he hnew
  have hcr := migrate_ok hc
  rw [hr] at hcr
  cases hcr
  obtain ⟨t, ht⟩ := Option.isSome_iff_exists.mp happ
  have hrecords : object (schemaMigrations t) = object (schemaMigrations .empty) := rfl
  rw [tables, ht, List.map_append, hobj, hsame.schema, newTables, ← hrecords]
  simp only [Option.map_some, Option.toList_some, List.map_cons, List.map_nil]

theorem exec_creates (insert insert' : Bytes → List Bytes → List Value → Schema →
    Except SqlErr Schema) (ts : List Table) (s : Schema) :
    execAll (Command.exec insert) (creates ts) s =
      execAll (Command.exec insert') (creates ts) s := by
  induction ts generalizing s with
  | nil => rfl
  | cons t ts ih =>
    rw [creates, List.map_cons, execAll, execAll]
    exact congrArg (Except.bind _) (funext ih)

/-- `CREATE TABLE page_index_fts_config` comes after the full-text table has made it. -/
theorem creates_newTables : (execAll (Command.exec fun _ _ _ s => .ok s)
    (creates (dumpOrder newTables)) .empty).isOk = false := by decide +kernel

/-- No dump can be run on an empty database. -/
theorem dump_fails (insert : Bytes → List Bytes → List Value → Schema → Except SqlErr Schema)
    {d : Migrations.Database} (h : Reachable d) :
    ∃ e, execAll (Command.exec insert) (script d) .empty = .error e := by
  have hcreates : creates (dumpTables d) = creates (dumpOrder newTables) := by
    rw [dumpTables, ← creates_map_object, map_object_dumpOrder, tables_of_reachable h]
  have hno := creates_newTables
  rw [exec_creates _ insert, ← hcreates] at hno
  have hscript : script d = [.pragma false, .begin] ++ (creates (dumpTables d) ++
      ((dumpTables d).flatMap inserts ++ [.commit, .pragma true])) := by simp [script]
  cases he : execAll (Command.exec insert) (creates (dumpTables d)) .empty with
  | ok s =>
    rw [he] at hno
    cases hno
  | error e =>
    refine ⟨e, ?_⟩
    rw [hscript, execAll_append]
    change execAll (Command.exec insert) (creates (dumpTables d) ++ _) .empty = _
    rw [execAll_append, he]
    rfl

/-- No backup restores the database it was made of: the statement that creates the full-text
table creates the tables it keeps its contents in, which the dump then creates once more. -/
theorem backup_never_restores
    (insert : Bytes → List Bytes → List Value → Schema → Except SqlErr Schema)
    (hits : List Row → Bytes → List Int) {d : Migrations.Database} (h : Reachable d) :
    ¬ Restores insert hits d := by
  rintro ⟨r, hr, -⟩
  obtain ⟨e, he⟩ := dump_fails insert h
  rw [he] at hr
  cases hr

/-- A row is added under the next rowid. -/
def appendRow (table : Bytes) (_ : List Bytes) (values : List Value) (s : Schema) :
    Except SqlErr Schema :=
  .ok (s.updateWhere (fun t => t.name = table)
    (fun t => { t with rows := t.rows ++ [⟨t.rows.length + 1, values⟩] }) fun _ => rfl)

/-- A new database after its first `migrate`. -/
def migrated : Migrations.Database := (migrate [] ⟨newDatabase, none⟩).2.db

theorem migrated_reachable : Reachable migrated :=
  ⟨newDatabase, migrated, .refl, completes_run [] newDatabase newDatabase_migrates, rfl,
    by decide +kernel⟩

theorem backup_never_restores_migrated :
    ¬ Restores appendRow (fun rows _ => rows.map Row.rowid) migrated :=
  backup_never_restores _ _ migrated_reachable

theorem new_backup_fails : ¬ ∀ d, Reachable d →
    Restores appendRow (fun rows _ => rows.map Row.rowid) d := by
  intro h
  obtain ⟨r, hr, -⟩ := h migrated migrated_reachable
  obtain ⟨e, he⟩ := dump_fails appendRow migrated_reachable
  rw [he] at hr
  cases hr

end Mdock.Store.Backup
