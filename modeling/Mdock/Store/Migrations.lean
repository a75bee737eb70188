import Mathlib.Logic.Relation
import Mdock.Lib.Op
import Mdock.Store.Schema

/-! `migrate`: the list of migrations, each applied statement by statement and then recorded.
No transaction holds the statements together, so a run may end between any two. -/
namespace Mdock.Store.Migrations
open Mdock.Go Mdock.Lib Mdock.Store.Sql

/-- A row of `schema_migrations`. -/
structure Record where
  id : Nat
  name : Bytes
  appliedAt : Bytes
  deriving DecidableEq

/-- The schema, and `schema_migrations` once it is there. -/
structure Database where
  schema : Schema
  applied : Option (Keyed Record.id)

/-- A connection; `left` counts the statements until the run is broken off, if it is. -/
structure Conn where
  db : Database
  left : Option Nat

/-- `ExecContext`: the statement takes effect whole or not at all. -/
def execContext (f : Database → Except SqlErr Database) : Op SqlErr Conn Unit := fun c =>
  match c.left with
  | some 0 => (.error .interrupted, c)
  | left =>
    match f c.db with
    | .ok d => (.ok (), ⟨d, left.map (· - 1)⟩)
    | .error e => (.error e, ⟨c.db, left.map (· - 1)⟩)

/-- A statement that changes the schema. -/
def onSchema (f : Schema → Except SqlErr Schema) (d : Database) : Except SqlErr Database :=
  (f d.schema).map fun s => { d with schema := s }

def execEach (exec : Stmt → Schema → Except SqlErr Schema) : List Stmt → Op SqlErr Conn Unit
  | [] => pure ()
  | a :: as => do
    execContext (onSchema (exec a))
    execEach exec as

def execStatements : List Stmt → Op SqlErr Conn Unit := execEach Stmt.exec

def execStatementsIgnoreDuplicateColumns : List Stmt → Op SqlErr Conn Unit :=
  execEach Stmt.execIgnoreDuplicate

/-- `Up` executes the statements; `ignoreDuplicateColumns` says by which of the two. -/
structure Migration where
  id : Nat
  name : Bytes
  ignoreDuplicateColumns : Bool
  statements : List Stmt

def Migration.up (m : Migration) : Op SqlErr Conn Unit :=
  if m.ignoreDuplicateColumns then execStatementsIgnoreDuplicateColumns m.statements
  else execStatements m.statements

/-! ### The migrations -/

def table (ifNotExists : Bool) (name : String) (columns : List Column) (constraints : String) :
    Stmt := .createTable ifNotExists (utf8 name) columns (utf8 constraints)

def addColumn (table name decl : String) (default : Value) : Stmt :=
  .addColumn (utf8 table) (col name decl default)

def index (name : String) (columns : List String) : Stmt :=
  .createIndex true (utf8 "page_index") ⟨utf8 name, columns.map utf8⟩

def ftsColumns : List String := ["title", "aliases", "tags", "headings", "blocks"]

def createFts (ifNotExists : Bool) (columns : List String) : Stmt :=
  .createFts5 ifNotExists (utf8 "page_index_fts") (columns.map fun n => col n "" .null)
    (utf8 "tokenize='unicode61 remove_diacritics 1'")

def triggerNames : List Bytes := ["page_index_au", "page_index_ad", "page_index_ai"].map utf8

def dropTriggers : List Stmt := triggerNames.map .dropTrigger

/-- The triggers `page_index_ai`, `page_index_ad` and `page_index_au`. -/
def createTriggers (ifNotExists coalesce content : Bool) : List Stmt :=
  [(⟨utf8 "page_index_ai", .insert, [⟨false, coalesce, content⟩]⟩ : Trigger),
    ⟨utf8 "page_index_ad", .delete, [⟨true, coalesce, content⟩]⟩,
    ⟨utf8 "page_index_au", .update, [⟨true, coalesce, content⟩, ⟨false, coalesce, content⟩]⟩].map
    (.createTrigger ifNotExists (utf8 "page_index"))

def baseSchema : List Stmt :=
  [.pragma, .pragma, .pragma,
    table true "users" [
      col "id" "INTEGER PRIMARY KEY AUTOINCREMENT" .null,
      col "login" "TEXT NOT NULL UNIQUE" .null,
      col "password_hash" "TEXT NOT NULL" .null,
      col "is_admin" "INTEGER NOT NULL DEFAULT 0" (.integer 0),
      col "disabled" "INTEGER NOT NULL DEFAULT 0" (.integer 0),
      col "created_at" "TEXT NOT NULL" .null] "",
    table true "vaults" [
      col "id" "INTEGER PRIMARY KEY AUTOINCREMENT" .null,
      col "name" "TEXT NOT NULL DEFAULT ''" (.text []),
      col "slug" "TEXT NOT NULL UNIQUE" .null,
      col "kind" "TEXT NOT NULL" .null,
      col "path" "TEXT NOT NULL UNIQUE" .null,
      col "archived" "INTEGER NOT NULL DEFAULT 0" (.integer 0),
      col "remote_url" "TEXT NOT NULL DEFAULT ''" (.text []),
      col "last_push_at" "TEXT NOT NULL DEFAULT ''" (.text []),
      col "last_push_error" "TEXT NOT NULL DEFAULT ''" (.text []),
      col "created_at" "TEXT NOT NULL" .null] "",
    table true "vault_members" [
      col "vault_id" "INTEGER NOT NULL REFERENCES vaults(id) ON DELETE CASCADE" .null,
      col "user_id" "INTEGER NOT NULL REFERENCES users(id) ON DELETE CASCADE" .null,
      col "role" "TEXT NOT NULL" .null,
      col "created_at" "TEXT NOT NULL" .null] "PRIMARY KEY (vault_id, user_id)",
    table true "sessions" [
      col "id" "TEXT PRIMARY KEY" .null,
      col "user_id" "INTEGER NOT NULL REFERENCES users(id) ON DELETE CASCADE" .null,
      col "expires_at" "TEXT NOT NULL" .null,
      col "created_at" "TEXT NOT NULL" .null] "",
    table true "file_locks" [
      col "vault_id" "INTEGER NOT NULL REFERENCES vaults(id) ON DELETE CASCADE" .null,
      col "path" "TEXT NOT NULL" .null,
      col "owner" "TEXT NOT NULL" .null,
      col "source" "TEXT NOT NULL" .null,
      col "expires_at" "TEXT NOT NULL" .null,
      col "heartbeat_at" "TEXT NOT NULL" .null] "PRIMARY KEY (vault_id, path)"]

def userAdminFlags : List Stmt :=
  [addColumn "users" "is_admin" "INTEGER NOT NULL DEFAULT 0" (.integer 0),
    addColumn "users" "disabled" "INTEGER NOT NULL DEFAULT 0" (.integer 0)]

def vaultMetadata : List Stmt :=
  [addColumn "vaults" "name" "TEXT NOT NULL DEFAULT ''" (.text []),
    addColumn "vaults" "archived" "INTEGER NOT NULL DEFAULT 0" (.integer 0),
    addColumn "vaults" "remote_url" "TEXT NOT NULL DEFAULT ''" (.text []),
    addColumn "vaults" "last_push_at" "TEXT NOT NULL DEFAULT ''" (.text []),
    addColumn "vaults" "last_push_error" "TEXT NOT NULL DEFAULT ''" (.text []),
    .fillEmpty (utf8 "vaults") (utf8 "name") (utf8 "slug")]

def gitQueuePending : List Stmt :=
  [table true "git_queue_pending" [
      col "vault_id" "INTEGER NOT NULL REFERENCES vaults(id) ON DELETE CASCADE" .null,
      col "path" "TEXT NOT NULL" .null,
      col "source" "TEXT NOT NULL" .null,
      col "created_at" "TEXT NOT NULL" .null] "PRIMARY KEY (vault_id, path)"]

def pageIndex : List Stmt :=
  [table true "page_index" [
      col "vault_slug" "TEXT NOT NULL" .null,
      col "path" "TEXT NOT NULL" .null,
      col "title" "TEXT" .null,
      col "aliases" "TEXT" .null,
      col "tags" "TEXT" .null,
      col "headings" "TEXT" .null,
      col "blocks" "TEXT" .null,
      col "content_hash" "TEXT" .null,
      col "updated_at" "INTEGER NOT NULL" .null] "PRIMARY KEY (vault_slug, path)",
    index "idx_page_index_vault_slug" ["vault_slug"],
    index "idx_page_index_title" ["vault_slug", "title"],
    index "idx_page_index_aliases" ["vault_slug", "aliases"],
    index "idx_page_index_updated" ["vault_slug", "updated_at"],
    index "idx_page_index_content_hash" ["vault_slug", "content_hash"],
    createFts true (ftsColumns ++ ["content"])] ++ createTriggers true false true

def pageIndexFtsFix : List Stmt := dropTriggers ++ createTriggers false true true

def pageIndexFtsSimplify : List Stmt :=
  (dropTriggers ++ [.dropTable (utf8 "page_index_fts")]) ++
    createFts false ftsColumns :: createTriggers false true false

def migrations : List Migration :=
  [⟨1, utf8 "base_schema", false, baseSchema⟩,
    ⟨2, utf8 "user_admin_flags", true, userAdminFlags⟩,
    ⟨3, utf8 "vault_metadata", true, vaultMetadata⟩,
    ⟨4, utf8 "git_queue_pending", false, gitQueuePending⟩,
    ⟨5, utf8 "page_index", false, pageIndex⟩,
    ⟨6, utf8 "page_index_fts_fix", false, pageIndexFtsFix⟩,
    ⟨7, utf8 "page_index_fts_simplify", false, pageIndexFtsSimplify⟩,
    ⟨8, utf8 "page_index_disable_fts_triggers", false, dropTriggers⟩]

/-! ### The run -/

/-- `CREATE TABLE IF NOT EXISTS schema_migrations`. -/
def createSchemaMigrations (d : Database) : Except SqlErr Database :=
  .ok { d with applied := some (d.applied.getD .empty) }

/-- `SELECT COUNT(1) FROM schema_migrations WHERE id = ?` gives more than 0. -/
def Database.exists (d : Database) (id : Nat) : Bool :=
  d.applied.any fun t => (t.get? id).isSome

def countMigration (id : Nat) : Op SqlErr Conn Bool := fun c =>
  match execContext (fun d => if d.applied.isSome then .ok d else .error .noSuchTable) c with
  | (.ok (), c') => (.ok (c.db.exists id), c')
  | (.error e, c') => (.error e, c')

/-- `INSERT INTO schema_migrations`. -/
def record (m : Migration) (now : Bytes) (d : Database) : Except SqlErr Database :=
  match d.applied with
  | none => .error .noSuchTable
  | some t =>
    if (t.get? m.id).isSome then .error .constraint
    else .ok { d with applied := some (t.upsert ⟨m.id, m.name, now⟩) }

/-- The loop over the migrations. -/
def applyEach (now : Bytes) : List Migration → Op SqlErr Conn Unit
  | [] => pure ()
  | item :: items => do
    if ← countMigration item.id then applyEach now items
    else do
      item.up
      execContext (record item now)
      applyEach now items

/-- A run at the time `now`. -/
def migrate (now : Bytes) : Op SqlErr Conn Unit := do
  execContext (onSchema Stmt.pragma.exec)
  execContext (onSchema Stmt.pragma.exec)
  execContext (onSchema Stmt.pragma.exec)
  execContext createSchemaMigrations
  applyEach now migrations

/-! ### What a broken run leaves -/

def Migration.exec (m : Migration) : Stmt → Schema → Except SqlErr Schema :=
  if m.ignoreDuplicateColumns then Stmt.execIgnoreDuplicate else Stmt.exec

theorem Migration.up_eq (m : Migration) : m.up = execEach m.exec m.statements := by
  unfold up exec
  split <;> rfl

section Exec
variable {f : Database → Except SqlErr Database} {exec : Stmt → Schema → Except SqlErr Schema}
  {as : List Stmt} {c c' : Conn} {d : Database} {s : Schema} {e : SqlErr}

theorem execContext_ok {u : Unit} (h : execContext f c = (.ok u, c')) : f c.db = .ok c'.db := by
  unfold execContext at h
  split at h
  · cases h
  · split at h
    · cases h
      assumption
    · cases h

theorem execContext_error (h : execContext f c = (.error e, c')) : c'.db = c.db := by
  unfold execContext at h
  split at h
  · cases h
    rfl
  · split at h
    · cases h
    · cases h
      rfl

/-- A run that nothing breaks off. -/
theorem execContext_unbroken (h : f d = .ok c.db) (hc : c.left = none) :
    execContext f ⟨d, none⟩ = (.ok (), c) := by
  simp only [execContext, h]
  cases c
  cases hc
  rfl

theorem onSchema_ok {g : Schema → Except SqlErr Schema} (h : onSchema g d = .ok c.db) :
    g d.schema = .ok c.db.schema ∧ c.db.applied = d.applied := by
  unfold onSchema at h
  cases hg : g d.schema with
  | error e =>
    rw [hg] at h
    cases h
  | ok s =>
    rw [hg] at h
    rw [← Except.ok.inj h]
    exact ⟨rfl, rfl⟩

theorem execEach_ok {u : Unit} (h : execEach exec as c = (.ok u, c')) :
    execAll exec as c.db.schema = .ok c'.db.schema ∧ c'.db.applied = c.db.applied := by
  induction as generalizing c with
  | nil =>
    cases h
    exact ⟨rfl, rfl⟩
  | cons a as ih =>
    obtain ⟨⟨⟩, c₁, h₁, h₂⟩ := Op.bind_ok.mp h
    obtain ⟨ha, happ⟩ := onSchema_ok (execContext_ok h₁)
    obtain ⟨has, happ'⟩ := ih h₂
    rw [execAll, ha]
    exact ⟨has, happ'.trans happ⟩

theorem execEach_error (h : execEach exec as c = (.error e, c')) :
    ∃ p q, as = p ++ q ∧ execAll exec p c.db.schema = .ok c'.db.schema ∧
      c'.db.applied = c.db.applied := by
  induction as generalizing c with
  | nil => cases h
  | cons a as ih =>
    rcases Op.bind_error.mp h with h | ⟨⟨⟩, c₁, h₁, h₂⟩
    · rw [execContext_error h]
      exact ⟨[], a :: as, rfl, rfl, rfl⟩
    · obtain ⟨ha, happ⟩ := onSchema_ok (execContext_ok h₁)
      obtain ⟨p, q, rfl, hp, happ'⟩ := ih h₂
      refine ⟨a :: p, q, rfl, ?_, happ'.trans happ⟩
      rw [execAll, ha]
      exact hp

theorem execEach_unbroken (h : execAll exec as d.schema = .ok s) :
    execEach exec as ⟨d, none⟩ = (.ok (), ⟨{ d with schema := s }, none⟩) := by
  induction as generalizing d with
  | nil =>
    cases h
    rfl
  | cons a as ih =>
    obtain ⟨u, hu, h⟩ := execAll_cons_ok h
    have ha : execContext (onSchema (exec a)) ⟨d, none⟩ =
        (.ok (), ⟨{ d with schema := u }, none⟩) :=
      execContext_unbroken (by simp [onSchema, hu]; rfl) rfl
    exact (Op.bind_of_ok ha).trans (ih h)

end Exec

/-! ### Every migration can be broken off -/

theorem reset_drop {a : Stmt} (ha : a ∈ dropTriggers) {s t : Schema} (h : a.exec s = .ok t) :
    t.dropTriggers triggerNames = s.dropTriggers triggerNames := by
  obtain ⟨n, hn, rfl⟩ := List.mem_map.mp ha
  cases h
  exact Schema.dropTriggers_dropTrigger hn s

theorem reset_create {ifNotExists coalesce content : Bool} {a : Stmt}
    (ha : a ∈ createTriggers ifNotExists coalesce content) {s t : Schema}
    (h : a.exec s = .ok t) : t.dropTriggers triggerNames = s.dropTriggers triggerNames := by
  obtain ⟨g, hg, rfl⟩ := List.mem_map.mp ha
  refine Schema.dropTriggers_createTrigger ?_ h
  simp only [List.mem_cons, List.not_mem_nil, or_false] at hg
  rcases hg with rfl | rfl | rfl <;> simp [triggerNames]

theorem restartable_ftsFix : Restartable Stmt.exec pageIndexFtsFix :=
  restartable_of_reset (Schema.dropTriggers triggerNames) (Schema.execAll_dropTriggers _)
    fun _ ha _ _ h => (List.mem_append.mp ha).elim (fun ha => reset_drop ha h)
      fun ha => reset_create ha h

theorem restartable_dropTriggers : Restartable Stmt.exec dropTriggers := by
  have h : Restartable Stmt.exec (dropTriggers ++ []) :=
    restartable_of_reset (Schema.dropTriggers triggerNames) (Schema.execAll_dropTriggers _)
      fun a ha s t h => reset_drop (by rwa [List.append_nil] at ha) h
  rwa [List.append_nil] at h

/-- The full-text table and the triggers are gone. -/
def clearFts (s : Schema) : Schema :=
  (s.dropTriggers triggerNames).dropTable (utf8 "page_index_fts")

theorem clearFts_of_dropTriggers {s t : Schema}
    (h : t.dropTriggers triggerNames = s.dropTriggers triggerNames) : clearFts t = clearFts s :=
  congrArg (Schema.dropTable · (utf8 "page_index_fts")) h

theorem clearFts_of_dropTable {s t : Schema}
    (h : t.dropTable (utf8 "page_index_fts") = s.dropTable (utf8 "page_index_fts")) :
    clearFts t = clearFts s := by
  rw [clearFts, clearFts, Schema.dropTable_dropTriggers, Schema.dropTable_dropTriggers, h]

theorem restartable_ftsSimplify : Restartable Stmt.exec pageIndexFtsSimplify := by
  refine restartable_of_reset clearFts (fun s => ?_) fun a ha s t h => ?_
  · rw [execAll_append, dropTriggers, Schema.execAll_dropTriggers]
    rfl
  · rcases List.mem_append.mp ha with ha | ha
    · rcases List.mem_append.mp ha with ha | ha
      · exact clearFts_of_dropTriggers (reset_drop ha h)
      · rw [List.mem_singleton.mp ha] at h
        cases h
        exact clearFts_of_dropTable (Schema.dropTable_dropTable s _)
    · rcases List.mem_cons.mp ha with rfl | ha
      · exact clearFts_of_dropTable (Schema.dropTable_createFts5 h)
      · exact clearFts_of_dropTriggers (reset_create ha h)

theorem restartable_migrations : ∀ m ∈ migrations, Restartable m.exec m.statements := by
  have hfill : Restartable Stmt.execIgnoreDuplicate (vaultMetadata.dropLast ++
      [.fillEmpty (utf8 "vaults") (utf8 "name") (utf8 "slug")]) :=
    restartable_fillEmpty (by decide) _ _ _
  have hall : migrations.Forall fun m => Restartable m.exec m.statements := by
    refine ⟨restartable_exec (by decide) (by decide), restartable_execIgnoreDuplicate (by decide),
      hfill,
      restartable_exec (by decide) (by decide), restartable_exec (by decide) (by decide),
      restartable_ftsFix, restartable_ftsSimplify, restartable_dropTriggers⟩
  exact List.forall_iff_forall_mem.mp hall

/-! ### The run that nothing breaks off -/

/-- What applying the migrations comes to. -/
def complete (now : Bytes) : List Migration → Database → Except SqlErr Database
  | [], d => .ok d
  | m :: ms, d =>
    if d.applied.isNone then .error .noSuchTable
    else if d.exists m.id then complete now ms d
    else
      (execAll m.exec m.statements d.schema).bind fun s =>
        (record m now { d with schema := s }).bind (complete now ms)

/-- The records without their times. -/
def Database.recorded (d : Database) : Option (List (Nat × Bytes)) :=
  d.applied.map fun t => t.rows.map fun r => (r.id, r.name)

/-- The same up to the times of the records. -/
structure Same (d e : Database) : Prop where
  schema : d.schema = e.schema
  recorded : d.recorded = e.recorded

theorem Same.refl (d : Database) : Same d d := ⟨rfl, rfl⟩

theorem Same.trans {d e f : Database} (h : Same d e) (h' : Same e f) : Same d f :=
  ⟨h.schema.trans h'.schema, h.recorded.trans h'.recorded⟩

theorem isNone_iff {d : Database} : d.applied.isNone ↔ d.recorded = none := by
  cases h : d.applied <;> simp [Database.recorded, h]

theorem exists_iff {d : Database} {id : Nat} :
    d.exists id ↔ ∃ l, d.recorded = some l ∧ id ∈ l.map Prod.fst := by
  cases h : d.applied with
  | none => simp [Database.exists, Database.recorded, h]
  | some t =>
    simp only [Database.exists, Database.recorded, h, Option.any_some, Option.map_some,
      Option.some.injEq, exists_eq_left', List.map_map, Option.isSome_iff_exists,
      Keyed.get?_eq_some_iff]
    exact List.mem_map.symm

theorem applied_of_recorded {d : Database} {l : List (Nat × Bytes)} (h : d.recorded = some l) :
    d.applied.isNone = false := by
  rw [← Bool.not_eq_true, isNone_iff, h]
  exact Option.some_ne_none l

theorem applied_of_exists {d : Database} {id : Nat} (h : d.exists id) :
    d.applied.isNone = false := by
  obtain ⟨l, hl, -⟩ := exists_iff.mp h
  exact applied_of_recorded hl

theorem Same.exists_eq {d e : Database} (h : Same d e) (id : Nat) :
    d.exists id = e.exists id := by
  rw [Bool.eq_iff_iff, exists_iff, exists_iff, h.recorded]

theorem Same.applied_eq {d e : Database} (h : Same d e) :
    d.applied.isNone = e.applied.isNone := by
  rw [Bool.eq_iff_iff, isNone_iff, isNone_iff, h.recorded]

theorem with_schema {d e : Database} (h : e.applied = d.applied) :
    e = { d with schema := e.schema } := by
  cases e
  cases h
  rfl

theorem record_ok {m : Migration} {now : Bytes} {d d' : Database}
    (h : record m now d = .ok d') : d'.schema = d.schema ∧
      ∃ l, d.recorded = some l ∧ d'.recorded = some (l ++ [(m.id, m.name)]) := by
  unfold record at h
  cases ht : d.applied with
  | none =>
    rw [ht] at h
    cases h
  | some t =>
    rw [ht] at h
    simp only at h
    split at h
    · cases h
    · rename_i hno
      cases h
      refine ⟨rfl, _, by rw [Database.recorded, ht]; rfl, ?_⟩
      have hnew : m.id ∉ t.rows.map Record.id := by
        intro hm
        obtain ⟨r, hr, he⟩ := List.mem_map.mp hm
        exact hno (Option.isSome_iff_exists.mpr ⟨r, Keyed.get?_eq_some_iff.mpr ⟨hr, he⟩⟩)
      simp [Database.recorded, Keyed.upsert, hnew]

theorem exists_of_record {m : Migration} {now : Bytes} {d d' : Database}
    (h : record m now d = .ok d') :
    d'.exists m.id = true ∧ ∀ id, d.exists id = true → d'.exists id = true := by
  obtain ⟨-, l, hl, hl'⟩ := record_ok h
  refine ⟨exists_iff.mpr ⟨_, hl', by simp⟩, fun id hid => ?_⟩
  obtain ⟨k, hk, hid⟩ := exists_iff.mp hid
  have hkl : some k = some l := hk.symm.trans hl
  cases hkl
  refine exists_iff.mpr ⟨_, hl', ?_⟩
  rw [List.map_append]
  exact List.mem_append_left _ hid

/-- A migration that is not recorded yet can be. -/
theorem record_of_not_exists {m : Migration} (now : Bytes) {d : Database}
    (hd : d.applied.isNone = false) (h : d.exists m.id = false) : ∃ d', record m now d = .ok d' := by
  unfold record
  cases ht : d.applied with
  | none => simp [ht] at hd
  | some t =>
    have hno : ¬ (t.get? m.id).isSome := by simpa [Database.exists, ht] using h
    exact ⟨_, if_neg hno⟩

theorem record_same (n₂ : Bytes) {m : Migration} {n₁ : Bytes} {d e d' : Database} (hs : Same d e)
    (hno : d.exists m.id = false) (h : record m n₁ d = .ok d') :
    ∃ e', record m n₂ e = .ok e' ∧ Same d' e' := by
  obtain ⟨hschema, l, hl, hl'⟩ := record_ok h
  have he : e.applied.isNone = false := applied_of_recorded (hs.recorded ▸ hl)
  obtain ⟨e', he'⟩ := record_of_not_exists n₂ he (hs.exists_eq m.id ▸ hno)
  obtain ⟨hschema', k, hk, hk'⟩ := record_ok he'
  rw [← hs.recorded, hl] at hk
  cases hk
  exact ⟨e', he', hschema.trans (hs.schema.trans hschema'.symm), hl'.trans hk'.symm⟩

theorem complete_cons {now : Bytes} {m : Migration} {ms : List Migration} {d r : Database}
    (h : complete now (m :: ms) d = .ok r) : d.applied.isNone = false ∧
      (d.exists m.id = true ∧ complete now ms d = .ok r ∨
        d.exists m.id = false ∧ ∃ s d', execAll m.exec m.statements d.schema = .ok s ∧
          record m now { d with schema := s } = .ok d' ∧ complete now ms d' = .ok r) := by
  rw [complete] at h
  split at h
  · cases h
  · rename_i hn
    refine ⟨Bool.eq_false_of_not_eq_true hn, ?_⟩
    split at h
    · rename_i he
      exact .inl ⟨he, h⟩
    · rename_i he
      refine .inr ⟨by simpa using he, ?_⟩
      cases hs : execAll m.exec m.statements d.schema with
      | error e =>
        rw [hs] at h
        cases h
      | ok s =>
        rw [hs] at h
        change (record m now { d with schema := s }).bind _ = _ at h
        cases hd : record m now { d with schema := s } with
        | error e =>
          rw [hd] at h
          cases h
        | ok d' =>
          rw [hd] at h
          exact ⟨s, d', rfl, hd, h⟩

theorem complete_of_exists {now : Bytes} {m : Migration} {ms : List Migration} {d : Database}
    (he : d.exists m.id = true) : complete now (m :: ms) d = complete now ms d := by
  simp [complete, applied_of_exists he, he]

theorem complete_of_not_exists {now : Bytes} {m : Migration} {ms : List Migration}
    {d d' : Database} {s : Schema} (hn : d.applied.isNone = false) (he : d.exists m.id = false)
    (hs : execAll m.exec m.statements d.schema = .ok s)
    (hd : record m now { d with schema := s } = .ok d') :
    complete now (m :: ms) d = complete now ms d' := by
  simp only [complete, hn, he, hs, Bool.false_eq_true, if_false]
  change (record m now { d with schema := s }).bind _ = _
  rw [hd]
  rfl

/-- Only the times depend on when the run takes place. -/
theorem complete_same (n₂ : Bytes) {n₁ : Bytes} {ms : List Migration} {d e r : Database} (hs : Same d e)
    (h : complete n₁ ms d = .ok r) : ∃ r', complete n₂ ms e = .ok r' ∧ Same r' r := by
  induction ms generalizing d e with
  | nil =>
    cases h
    exact ⟨e, rfl, hs.schema.symm, hs.recorded.symm⟩
  | cons m ms ih =>
    obtain ⟨hn, ⟨he, h⟩ | ⟨he, s, d', hx, hd, h⟩⟩ := complete_cons h
    · obtain ⟨r', hr, hsame⟩ := ih hs h
      exact ⟨r', (complete_of_exists (hs.exists_eq m.id ▸ he)).trans hr, hsame⟩
    · have hs' : Same { d with schema := s } { e with schema := s } := ⟨rfl, hs.recorded⟩
      obtain ⟨e', he', hsame⟩ := record_same n₂ hs' he hd
      obtain ⟨r', hr, hsame'⟩ := ih hsame h
      refine ⟨r', ?_, hsame'⟩
      rw [← hr]
      exact complete_of_not_exists (hs.applied_eq ▸ hn) (hs.exists_eq m.id ▸ he) (hs.schema ▸ hx) he'

/-- After a complete run the migrations are recorded, and the earlier ones still are. -/
theorem complete_exists {now : Bytes} {ms : List Migration} {d r : Database}
    (h : complete now ms d = .ok r) :
    (∀ id, d.exists id = true → r.exists id = true) ∧ ∀ m ∈ ms, r.exists m.id = true := by
  induction ms generalizing d with
  | nil =>
    cases h
    exact ⟨fun _ => id, fun m hm => nomatch hm⟩
  | cons m ms ih =>
    obtain ⟨hn, ⟨he, h⟩ | ⟨he, s, d', hx, hd, h⟩⟩ := complete_cons h
    · obtain ⟨hmono, hall⟩ := ih h
      refine ⟨hmono, fun m' hm' => ?_⟩
      rcases List.mem_cons.mp hm' with rfl | hm'
      · exact hmono _ he
      · exact hall m' hm'
    · obtain ⟨hmono, hall⟩ := ih h
      obtain ⟨hm, hold⟩ := exists_of_record hd
      refine ⟨fun id hid => hmono id (hold id hid), fun m' hm' => ?_⟩
      rcases List.mem_cons.mp hm' with rfl | hm'
      · exact hmono _ hm
      · exact hall m' hm'

theorem complete_of_recorded {now : Bytes} {ms : List Migration} {d : Database}
    (h : ∀ m ∈ ms, d.exists m.id = true) : complete now ms d = .ok d := by
  induction ms with
  | nil => rfl
  | cons m ms ih =>
    rw [complete_of_exists (h m List.mem_cons_self)]
    exact ih fun m' hm' => h m' (List.mem_cons_of_mem m hm')

/-! ### A run and what it comes to -/

theorem countMigration_ok {id : Nat} {b : Bool} {c c' : Conn}
    (h : countMigration id c = (.ok b, c')) :
    b = c.db.exists id ∧ c'.db = c.db ∧ c.db.applied.isNone = false := by
  unfold countMigration at h
  split at h
  · rename_i hx
    cases h
    have hok := execContext_ok hx
    split at hok
    · rename_i hs
      cases ha : c.db.applied with
      | none => simp [ha] at hs
      | some t => exact ⟨rfl, (Except.ok.inj hok).symm, rfl⟩
    · cases hok
  · cases h

theorem countMigration_error {id : Nat} {e : SqlErr} {c c' : Conn}
    (h : countMigration id c = (.error e, c')) : c'.db = c.db := by
  unfold countMigration at h
  split at h
  · cases h
  · rename_i hx
    cases h
    exact execContext_error hx

theorem countMigration_unbroken {id : Nat} {d : Database} (h : d.applied.isNone = false) :
    countMigration id ⟨d, none⟩ = (.ok (d.exists id), ⟨d, none⟩) := by
  cases ha : d.applied with
  | none => simp [ha] at h
  | some t => simp [countMigration, execContext, ha]

theorem applyEach_ok {now : Bytes} {ms : List Migration} {c c' : Conn} {u : Unit}
    (h : applyEach now ms c = (.ok u, c')) : complete now ms c.db = .ok c'.db := by
  induction ms generalizing c with
  | nil =>
    cases h
    rfl
  | cons m ms ih =>
    obtain ⟨b, c₁, h₁, h₂⟩ := Op.bind_ok.mp h
    obtain ⟨rfl, hc₁, hn⟩ := countMigration_ok h₁
    by_cases he : c.db.exists m.id = true
    · rw [if_pos he] at h₂
      rw [complete_of_exists he, ← hc₁]
      exact ih h₂
    · rw [if_neg he] at h₂
      obtain ⟨⟨⟩, c₂, hup, h₃⟩ := Op.bind_ok.mp h₂
      obtain ⟨⟨⟩, c₃, hrec, h₄⟩ := Op.bind_ok.mp h₃
      rw [Migration.up_eq] at hup
      obtain ⟨hx, happ⟩ := execEach_ok hup
      rw [hc₁] at hx happ
      have hrec := execContext_ok hrec
      rw [with_schema happ] at hrec
      rw [complete_of_not_exists hn (Bool.eq_false_of_not_eq_true he) hx hrec]
      exact ih h₄

theorem applyEach_unbroken {now : Bytes} {ms : List Migration} {d r : Database}
    (h : complete now ms d = .ok r) : applyEach now ms ⟨d, none⟩ = (.ok (), ⟨r, none⟩) := by
  induction ms generalizing d with
  | nil =>
    cases h
    rfl
  | cons m ms ih =>
    obtain ⟨hn, ⟨he, h⟩ | ⟨he, s, d', hx, hd, h⟩⟩ := complete_cons h
    · refine (Op.bind_of_ok (countMigration_unbroken hn)).trans ?_
      rw [if_pos he]
      exact ih h
    · refine (Op.bind_of_ok (countMigration_unbroken hn)).trans ?_
      rw [if_neg (by simp [he]), Migration.up_eq]
      refine (Op.bind_of_ok (execEach_unbroken hx)).trans ?_
      refine (Op.bind_of_ok (execContext_unbroken (c := ⟨d', none⟩) hd rfl)).trans ?_
      exact ih h

/-- A run that stopped within a migration is completed by the next one. -/
theorem complete_resume {n₁ n₂ : Bytes} {m : Migration} {ms : List Migration}
    {d r : Database} {t : Schema} (h : complete n₁ (m :: ms) d = .ok r)
    (he : d.exists m.id = false)
    (ht : execAll m.exec m.statements t = execAll m.exec m.statements d.schema) :
    ∃ r', complete n₂ (m :: ms) { d with schema := t } = .ok r' ∧ Same r' r := by
  obtain ⟨hn, ⟨he', -⟩ | ⟨-, s, d', hx, hd, h⟩⟩ := complete_cons h
  · rw [he] at he'
    cases he'
  · obtain ⟨e', hrec, hsame⟩ := record_same n₂ (Same.refl { d with schema := s }) he hd
    obtain ⟨r', hr, hsame'⟩ := complete_same n₂ hsame h
    have hx' : complete n₂ (m :: ms) { d with schema := t } = complete n₂ ms e' :=
      complete_of_not_exists hn he (ht.trans hx) hrec
    exact ⟨r', hx'.trans hr, hsame'⟩

/-- Where a run breaks off, the next one can still complete it, to the same end. -/
theorem applyEach_error {now n₁ n₂ : Bytes} {ms : List Migration} {c c' : Conn} {e : SqlErr}
    {r : Database} (hms : ∀ m ∈ ms, Restartable m.exec m.statements)
    (h : applyEach now ms c = (.error e, c')) (hc : complete n₁ ms c.db = .ok r) :
    (∀ id, c.db.exists id = true → c'.db.exists id = true) ∧
      (c.db.applied.isNone = false → c'.db.applied.isNone = false) ∧
      ∃ r', complete n₂ ms c'.db = .ok r' ∧ Same r' r := by
  induction ms generalizing c r with
  | nil => cases h
  | cons m ms ih =>
    rcases Op.bind_error.mp h with h | ⟨b, c₁, h₁, h₂⟩
    · rw [countMigration_error h]
      exact ⟨fun _ => id, id, complete_same n₂ (Same.refl c.db) hc⟩
    obtain ⟨rfl, hc₁, hn⟩ := countMigration_ok h₁
    by_cases he : c.db.exists m.id = true
    · rw [if_pos he] at h₂
      rw [complete_of_exists he, ← hc₁] at hc
      obtain ⟨hmono, hsome, r', hr, hsame⟩ := ih (fun m' hm' => hms m' (List.mem_cons_of_mem m hm')) h₂ hc
      rw [hc₁] at hmono hsome
      exact ⟨hmono, hsome, r', (complete_of_exists (hmono m.id he)).trans hr, hsame⟩
    rw [if_neg he] at h₂
    have hno : c.db.exists m.id = false := Bool.eq_false_of_not_eq_true he
    rcases Op.bind_error.mp h₂ with h₃ | ⟨⟨⟩, c₂, hup, h₃⟩
    · rw [Migration.up_eq] at h₃
      obtain ⟨p, q, hpq, hx, happ⟩ := execEach_error h₃
      rw [hc₁] at hx happ
      have ht := hms m List.mem_cons_self p q _ _ hpq hx
      rw [with_schema happ]
      exact ⟨fun _ => id, id, complete_resume hc hno ht⟩
    rw [Migration.up_eq] at hup
    obtain ⟨hx, happ⟩ := execEach_ok hup
    rw [hc₁] at hx happ
    rcases Op.bind_error.mp h₃ with h₄ | ⟨⟨⟩, c₃, hrec, h₄⟩
    · have ht := hms m List.mem_cons_self m.statements [] _ _ (List.append_nil _).symm hx
      rw [execContext_error h₄, with_schema happ]
      exact ⟨fun _ => id, id, complete_resume hc hno ht⟩
    · have hrec := execContext_ok hrec
      rw [with_schema happ] at hrec
      obtain ⟨-, ⟨he', -⟩ | ⟨-, s, d', hx', hd, hrest⟩⟩ := complete_cons hc
      · exact absurd he' he
      rw [hx] at hx'
      cases hx'
      obtain ⟨e', he', hsame⟩ := record_same now
        (Same.refl { c.db with schema := c₂.db.schema }) hno hd
      rw [hrec] at he'
      cases he'
      obtain ⟨r₃, hr₃, hsame₃⟩ := complete_same n₁ hsame hrest
      obtain ⟨hmono, hsome, r', hr, hsame'⟩ :=
        ih (fun m' hm' => hms m' (List.mem_cons_of_mem m hm')) h₄ hr₃
      obtain ⟨hm, hold⟩ := exists_of_record hrec
      exact ⟨fun id hid => hmono id (hold id hid), fun _ => hsome (applied_of_exists hm), r',
        (complete_of_exists (hmono m.id hm)).trans hr, hsame'.trans hsame₃⟩

/-! ### Any number of runs -/

def start (d : Database) : Database := { d with applied := some (d.applied.getD .empty) }

theorem start_eq {d : Database} (h : d.applied.isNone = false) : start d = d := by
  cases d with
  | mk schema applied =>
    cases applied with
    | none => cases h
    | some t => rfl

theorem pragma_ok {c c' : Conn} {u : Unit}
    (h : execContext (onSchema Stmt.pragma.exec) c = (.ok u, c')) : c'.db = c.db :=
  (Except.ok.inj (execContext_ok h)).symm

theorem create_ok {c c' : Conn} {u : Unit}
    (h : execContext createSchemaMigrations c = (.ok u, c')) : start c.db = c'.db :=
  Except.ok.inj (show createSchemaMigrations c.db = .ok c'.db from execContext_ok h)

theorem migrate_ok {now : Bytes} {c c' : Conn} {u : Unit} (h : migrate now c = (.ok u, c')) :
    complete now migrations (start c.db) = .ok c'.db := by
  obtain ⟨⟨⟩, c₁, h₁, h⟩ := Op.bind_ok.mp h
  obtain ⟨⟨⟩, c₂, h₂, h⟩ := Op.bind_ok.mp h
  obtain ⟨⟨⟩, c₃, h₃, h⟩ := Op.bind_ok.mp h
  obtain ⟨⟨⟩, c₄, h₄, h⟩ := Op.bind_ok.mp h
  rw [← pragma_ok h₁, ← pragma_ok h₂, ← pragma_ok h₃, create_ok h₄]
  exact applyEach_ok h

theorem migrate_error {now : Bytes} {c c' : Conn} {e : SqlErr}
    (h : migrate now c = (.error e, c')) : c'.db = c.db ∨
      ∃ c₁, c₁.db = start c.db ∧ applyEach now migrations c₁ = (.error e, c') := by
  rcases Op.bind_error.mp h with h | ⟨⟨⟩, c₁, h₁, h⟩
  · exact .inl (execContext_error h)
  rcases Op.bind_error.mp h with h | ⟨⟨⟩, c₂, h₂, h⟩
  · exact .inl ((execContext_error h).trans (pragma_ok h₁))
  rcases Op.bind_error.mp h with h | ⟨⟨⟩, c₃, h₃, h⟩
  · exact .inl ((execContext_error h).trans ((pragma_ok h₂).trans (pragma_ok h₁)))
  have hdb : c₃.db = c.db := (pragma_ok h₃).trans ((pragma_ok h₂).trans (pragma_ok h₁))
  rcases Op.bind_error.mp h with h | ⟨⟨⟩, c₄, h₄, h⟩
  · exact .inl ((execContext_error h).trans hdb)
  · exact .inr ⟨c₄, (create_ok h₄).symm.trans (congrArg start hdb), h⟩

theorem migrate_unbroken {now : Bytes} {d r : Database}
    (h : complete now migrations (start d) = .ok r) :
    migrate now ⟨d, none⟩ = (.ok (), ⟨r, none⟩) := by
  have hpragma : execContext (onSchema Stmt.pragma.exec) (⟨d, none⟩ : Conn) =
      (.ok (), ⟨d, none⟩) := rfl
  refine (Op.bind_of_ok hpragma).trans ?_
  refine (Op.bind_of_ok hpragma).trans ?_
  refine (Op.bind_of_ok hpragma).trans ?_
  have hcreate : execContext createSchemaMigrations (⟨d, none⟩ : Conn) =
      (.ok (), ⟨start d, none⟩) := rfl
  refine (Op.bind_of_ok hcreate).trans ?_
  exact applyEach_unbroken h

/-- A run, broken off after any number of statements or not, that leaves `e`. -/
def Attempt (d e : Database) : Prop :=
  ∃ now left res c, migrate now ⟨d, left⟩ = (res, c) ∧ c.db = e

/-- A run that comes to its end and leaves `e`. -/
def Completes (d e : Database) : Prop :=
  ∃ now left c, migrate now ⟨d, left⟩ = (.ok (), c) ∧ c.db = e

theorem attempt_completes (n₂ : Bytes) {n₁ : Bytes} {d e r : Database} (h : Attempt d e)
    (hd : complete n₁ migrations (start d) = .ok r) :
    ∃ r', complete n₂ migrations (start e) = .ok r' ∧ Same r' r := by
  obtain ⟨now, left, res, c, h, rfl⟩ := h
  cases res with
  | ok u =>
    have hc := migrate_ok h
    obtain ⟨r₀, hr₀, hsame⟩ := complete_same now (Same.refl _) hd
    rw [hc] at hr₀
    cases hr₀
    have hall := (complete_exists hc).2
    rw [start_eq (applied_of_exists (hall _ List.mem_cons_self))]
    exact ⟨c.db, complete_of_recorded hall, hsame⟩
  | error e =>
    rcases migrate_error h with hc | ⟨c₁, hc₁, h⟩
    · rw [hc]
      exact complete_same n₂ (Same.refl _) hd
    · rw [← hc₁] at hd
      obtain ⟨-, hsome, hr⟩ := applyEach_error restartable_migrations h hd
      rw [start_eq (hsome (by rw [hc₁]; rfl))]
      exact hr

theorem attempts_complete (n₂ : Bytes) {n₁ : Bytes} {d e r : Database}
    (h : Relation.ReflTransGen Attempt d e) (hd : complete n₁ migrations (start d) = .ok r) :
    ∃ r', complete n₂ migrations (start e) = .ok r' ∧ Same r' r := by
  induction h with
  | refl => exact complete_same n₂ (Same.refl _) hd
  | tail _ hstep ih =>
    obtain ⟨r', hr, hsame⟩ := ih
    obtain ⟨r'', hr', hsame'⟩ := attempt_completes n₂ hstep hr
    exact ⟨r'', hr', hsame'.trans hsame⟩

/-- Every migration is recorded, and once. -/
def RecordedOnce (d : Database) : Prop :=
  ∃ l, d.recorded = some l ∧ ∀ m ∈ migrations, (l.map Prod.fst).count m.id = 1

theorem recordedOnce_of_complete {now : Bytes} {d r : Database}
    (h : complete now migrations d = .ok r) : RecordedOnce r := by
  have hall := (complete_exists h).2
  obtain ⟨l, hl, -⟩ := exists_iff.mp (hall _ List.mem_cons_self)
  refine ⟨l, hl, fun m hm => ?_⟩
  obtain ⟨k, hk, hid⟩ := exists_iff.mp (hall m hm)
  rw [hl] at hk
  cases hk
  refine List.count_eq_one_of_mem ?_ hid
  obtain ⟨t, -, rfl⟩ := Option.map_eq_some_iff.mp hl
  simpa [Function.comp_def] using t.nodup

/-- After any number of runs of `migrate` that broke off anywhere, a run can be brought to its
end, and every run that comes to its end leaves the schema, the rows and the records that one
run from the original database leaves. -/
theorem migrate_restartable {d e d' : Database} (h : Relation.ReflTransGen Attempt d e)
    (hd : Completes d d') : (∃ e', Completes e e') ∧
      ∀ e', Completes e e' → Same e' d' ∧ RecordedOnce e' := by
  obtain ⟨n₁, left, c, hc, rfl⟩ := hd
  have hr := migrate_ok hc
  refine ⟨?_, ?_⟩
  · obtain ⟨r', hr', -⟩ := attempts_complete n₁ h hr
    exact ⟨r', n₁, none, _, migrate_unbroken hr', rfl⟩
  · rintro e' ⟨n₂, left', c', hc', rfl⟩
    obtain ⟨r', hr', hsame⟩ := attempts_complete n₂ h hr
    have he := migrate_ok hc'
    rw [hr'] at he
    cases he
    exact ⟨hsame, recordedOnce_of_complete hr'⟩

theorem attempt_run (now : Bytes) (d : Database) (left : Option Nat) :
    Attempt d (migrate now ⟨d, left⟩).2.db := ⟨now, left, _, _, rfl, rfl⟩

theorem complete_run (now : Bytes) (d : Database) (h : (migrate now ⟨d, none⟩).1 = .ok ()) :
    complete now migrations (start d) = .ok (migrate now ⟨d, none⟩).2.db :=
  migrate_ok (Prod.ext h rfl)

theorem completes_run (now : Bytes) (d : Database) (h : (migrate now ⟨d, none⟩).1 = .ok ()) :
    Completes d (migrate now ⟨d, none⟩).2.db := ⟨now, none, _, Prod.ext h rfl, rfl⟩

def newDatabase : Database := ⟨.empty, none⟩

theorem newDatabase_migrates : (migrate [] ⟨newDatabase, none⟩).1 = .ok () := by decide +kernel

/-- The first run on a new database breaks off after `users` and `vaults`. -/
theorem migrate_restartable_new : ∃ e e', Attempt newDatabase e ∧ e.schema.rows.length = 2 ∧
    Completes e e' ∧ RecordedOnce e' := by
  have hbroken := attempt_run [] newDatabase (some 10)
  have hd := completes_run [] newDatabase newDatabase_migrates
  obtain ⟨⟨e', he'⟩, h⟩ := migrate_restartable (.single hbroken) hd
  exact ⟨_, e', hbroken, by decide +kernel, he', (h e' he').2⟩

end Mdock.Store.Migrations
