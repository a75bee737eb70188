import Mdock.Lib.Run
import Mdock.Store.Backup

/-! A backup beside a running server. The dump asks for the tables and then selects from one
after the other, each statement for itself, while the server commits transactions between
them. -/
namespace Mdock.Store.Snapshot
open Mdock.Go Mdock.Lib Mdock.Store.Sql Mdock.Store.Backup

def value (t : Table) (r : Row) (column : Bytes) : Option Value :=
  (t.position column).bind fun i => r.values[i]?

structure ForeignKey where
  table : Bytes
  column : Bytes
  parent : Bytes

/-- The `REFERENCES` of the schema; all are to a column `id`. -/
def foreignKeys : List ForeignKey :=
  [⟨utf8 "vault_members", utf8 "vault_id", utf8 "vaults"⟩,
    ⟨utf8 "vault_members", utf8 "user_id", utf8 "users"⟩,
    ⟨utf8 "sessions", utf8 "user_id", utf8 "users"⟩,
    ⟨utf8 "file_locks", utf8 "vault_id", utf8 "vaults"⟩,
    ⟨utf8 "git_queue_pending", utf8 "vault_id", utf8 "vaults"⟩]

/-- Every row refers to a row that is there. -/
def Refers (ts : List Table) : Prop :=
  ∀ k ∈ foreignKeys, ∀ t ∈ ts, t.name = k.table → ∀ r ∈ t.rows,
    ∃ p ∈ ts, p.name = k.parent ∧ ∃ q ∈ p.rows, value p q (utf8 "id") = value t r k.column

instance (ts : List Table) : Decidable (Refers ts) := by
  unfold Refers
  infer_instance

/-- The committed tables, the tables still to be read once the dump has asked for them, what
it has read, and, for the record, all that has been committed since it began. -/
structure State where
  db : List Table
  todo : Option (List Bytes)
  dump : List Table
  past : List (List Table)

/-- The tables with the rows that a transaction gives them. -/
def withRows (ts : List Table) (rows : Bytes → List Row) : List Table :=
  ts.map fun t => { t with rows := rows t.name }

inductive Act
  | commit (rows : Bytes → List Row)
  | list
  | select

/-- A commit leaves the schema as it is and the references intact. -/
def step (s : State) : Act → Option State
  | .commit rows =>
    let ts := withRows s.db rows
    if Refers ts then some { s with db := ts, past := s.past ++ [ts] } else none
  | .list =>
    match s.todo with
    | none => some { s with todo := some ((dumpOrder s.db).map Table.name) }
    | some _ => none
  | .select =>
    match s.todo with
    | some (n :: ns) =>
      (s.db.find? fun t => t.name = n).map fun t =>
        { s with todo := some ns, dump := s.dump ++ [t] }
    | _ => none

def machine : Machine State Act where
  init s := (s.db.map Table.name).Nodup ∧ Refers s.db ∧ s.todo = none ∧ s.dump = [] ∧
    s.past = [s.db]
  step := step

/-- The dump has read every table. -/
def State.finished (s : State) : Prop := s.todo = some []

/-- What was dumped are the contents of the database at one instant. -/
def Consistent (s : State) : Prop := ∃ ts ∈ s.past, s.dump = dumpOrder ts

/-- The dump has not read the table yet. -/
def State.unread (s : State) (n : Bytes) : Prop := ∀ ns, s.todo = some ns → n ∈ ns

/-- A commit changes no table that is still to be read, or leaves those that have been read as
they were read. -/
def unsplit (s : State) : Act → Prop
  | .commit rows => (∀ t ∈ s.db, s.unread t.name → t ∈ withRows s.db rows) ∨
      ∀ t ∈ s.dump, t ∈ withRows s.db rows
  | _ => True

/-! ### The instant of a dump -/

theorem eq_of_names {ts l k : List Table} (hn : (ts.map Table.name).Nodup)
    (hl : ∀ t ∈ l, t ∈ ts) (hk : ∀ t ∈ k, t ∈ ts) (h : l.map Table.name = k.map Table.name) :
    l = k := by
  induction l generalizing k with
  | nil => exact (List.map_eq_nil_iff.mp h.symm).symm
  | cons a l ih =>
    cases k with
    | nil => cases h
    | cons b k =>
      rw [List.map_cons, List.map_cons, List.cons.injEq] at h
      have hab : a = b := List.inj_on_of_nodup_map hn (hl a List.mem_cons_self)
        (hk b List.mem_cons_self) h.1
      rw [hab, ih (fun t ht => hl t (List.mem_cons_of_mem a ht))
        (fun t ht => hk t (List.mem_cons_of_mem b ht)) h.2]

theorem names_of_objects {ts us : List Table} (h : ts.map object = us.map object) :
    ts.map Table.name = us.map Table.name := by
  have hm := congrArg (List.map Table.name) h
  simpa only [List.map_map, Function.comp_def, object] using hm

theorem object_withRows (ts : List Table) (rows : Bytes → List Row) :
    (withRows ts rows).map object = ts.map object := by
  simp only [withRows, List.map_map]
  rfl

theorem order_of_objects {ts us : List Table} (h : ts.map object = us.map object) :
    (dumpOrder ts).map Table.name = (dumpOrder us).map Table.name :=
  names_of_objects (by rw [map_object_dumpOrder, map_object_dumpOrder, h])

theorem mem_dumpOrder {ts : List Table} {t : Table} :
    t ∈ dumpOrder ts ↔ t ∈ ts ∧ likeSqlite t.name = false := by
  simp [dumpOrder]

theorem Refers.dumpOrder {ts : List Table} (h : Refers ts) : Refers (dumpOrder ts) := by
  intro k hk t ht hn r hr
  obtain ⟨p, hp, hpn, q, hq, he⟩ := h k hk t (mem_dumpOrder.mp ht).1 hn r hr
  refine ⟨p, mem_dumpOrder.mpr ⟨hp, ?_⟩, hpn, q, hq, he⟩
  have hall : ∀ k ∈ foreignKeys, likeSqlite k.parent = false := by decide
  rw [hpn]
  exact hall k hk

/-- Some past instant agrees with what has been read, and with what is still to be read as it
is now. -/
structure Tracked (s : State) : Prop where
  nodup : (s.db.map Table.name).Nodup
  plan : ∀ ns, s.todo = some ns →
    s.dump.map Table.name ++ ns = (dumpOrder s.db).map Table.name
  begun : s.todo = none → s.dump = []
  instant : ∃ ts ∈ s.past, ts.map object = s.db.map object ∧ (∀ t ∈ s.dump, t ∈ ts) ∧
    ∀ t ∈ s.db, s.unread t.name → t ∈ ts

theorem tracked_init {s : State} (h : machine.init s) : Tracked s := by
  obtain ⟨hn, -, htodo, hdump, hpast⟩ := h
  refine ⟨hn, fun ns hns => ?_, fun _ => hdump, s.db, ?_, rfl, fun t ht => ?_, fun _ ht _ => ht⟩
  · rw [htodo] at hns
    cases hns
  · rw [hpast]
    exact List.mem_singleton.mpr rfl
  · rw [hdump] at ht
    cases ht

theorem Tracked.commit {s : State} {ts : List Table} (h : Tracked s)
    (hobj : ts.map object = s.db.map object)
    (hg : (∀ t ∈ s.db, s.unread t.name → t ∈ ts) ∨ ∀ t ∈ s.dump, t ∈ ts) :
    Tracked { s with db := ts, past := s.past ++ [ts] } := by
  have hnames := names_of_objects hobj
  refine ⟨hnames ▸ h.nodup, fun ns hns => ?_, h.begun, ?_⟩
  · exact (h.plan ns hns).trans (order_of_objects hobj).symm
  · obtain ⟨us, hus, hobj', hread, hunread⟩ := h.instant
    rcases hg with hg | hg
    · refine ⟨us, List.mem_append_left _ hus, hobj'.trans hobj.symm, hread, fun t ht hu => ?_⟩
      obtain ⟨a, ha, hat⟩ := List.mem_map.mp (hnames ▸ List.mem_map_of_mem ht)
      have hua : s.unread a.name := by rwa [hat]
      have hta : a = t := List.inj_on_of_nodup_map (hnames ▸ h.nodup) (hg a ha hua) ht hat
      exact hta ▸ hunread a ha hua
    · exact ⟨ts, List.mem_append_right _ (List.mem_singleton.mpr rfl), rfl, hg, fun _ ht _ => ht⟩

theorem Tracked.step {s t : State} {a : Act} (h : Tracked s) (hg : unsplit s a)
    (hs : step s a = some t) : Tracked t := by
  cases a with
  | commit rows =>
    simp only [Snapshot.step, Option.ite_none_right_eq_some, Option.some.injEq] at hs
    obtain ⟨-, rfl⟩ := hs
    exact h.commit (object_withRows s.db rows) hg
  | list =>
    simp only [Snapshot.step] at hs
    split at hs
    · rename_i htodo
      cases hs
      refine ⟨h.nodup, fun ns hns => ?_, fun hno => absurd hno (Option.some_ne_none _), ?_⟩
      · rw [← Option.some.inj hns, h.begun htodo]
        rfl
      · obtain ⟨us, hus, hobj, hread, hunread⟩ := h.instant
        refine ⟨us, hus, hobj, hread, fun t ht _ => hunread t ht fun ns hns => ?_⟩
        rw [htodo] at hns
        cases hns
    · cases hs
  | select =>
    simp only [Snapshot.step] at hs
    split at hs
    · rename_i n ns htodo
      obtain ⟨u, hu, rfl⟩ := Option.map_eq_some_iff.mp hs
      have hmem : u ∈ s.db := List.mem_of_find?_eq_some hu
      have hname : u.name = n := by simpa using List.find?_some hu
      refine ⟨h.nodup, fun ms hms => ?_, fun hno => absurd hno (Option.some_ne_none _), ?_⟩
      · rw [← Option.some.inj hms, List.map_append, List.append_assoc, ← h.plan _ htodo, ← hname]
        rfl
      · obtain ⟨us, hus, hobj, hread, hunread⟩ := h.instant
        refine ⟨us, hus, hobj, fun t ht => ?_, fun t ht hut => hunread t ht fun ms hms => ?_⟩
        · rcases List.mem_append.mp ht with ht | ht
          · exact hread t ht
          · rw [List.mem_singleton.mp ht]
            refine hunread u hmem fun ms hms => ?_
            rw [htodo] at hms
            cases hms
            exact hname ▸ List.mem_cons_self
        · rw [htodo] at hms
          cases hms
          exact List.mem_cons_of_mem n (hut ns rfl)
    · cases hs

theorem Tracked.consistent {s : State} (h : Tracked s) (hf : s.finished) : Consistent s := by
  obtain ⟨ts, hts, hobj, hread, -⟩ := h.instant
  refine ⟨ts, hts, eq_of_names (names_of_objects hobj ▸ h.nodup) hread
    (fun t ht => (mem_dumpOrder.mp ht).1) ?_⟩
  rw [order_of_objects hobj, ← h.plan [] hf, List.append_nil]

theorem past_refers {s : State} (h : machine.Reach s) : ∀ ts ∈ s.past, Refers ts := by
  refine h.invariant (fun s (hs : machine.init s) => ?_)
    fun s a t (hs : ∀ ts ∈ s.past, Refers ts) ht => ?_
  · rw [hs.2.2.2.2]
    exact fun ts hts => List.mem_singleton.mp hts ▸ hs.2.1
  · cases a with
    | commit rows =>
      simp only [machine, Snapshot.step, Option.ite_none_right_eq_some, Option.some.injEq] at ht
      obtain ⟨hr, rfl⟩ := ht
      intro ts hts
      rcases List.mem_append.mp hts with hts | hts
      · exact hs ts hts
      · exact List.mem_singleton.mp hts ▸ hr
    | list =>
      simp only [machine, Snapshot.step] at ht
      split at ht
      · cases ht
        exact hs
      · cases ht
    | select =>
      simp only [machine, Snapshot.step] at ht
      split at ht
      · obtain ⟨u, -, rfl⟩ := Option.map_eq_some_iff.mp ht
        exact hs
      · cases ht

/-- The contents of one instant hold what their rows refer to. -/
theorem Consistent.refers {s : State} (h : Consistent s) (hs : machine.Reach s) :
    Refers s.dump := by
  obtain ⟨ts, hts, he⟩ := h
  rw [he]
  exact (past_refers hs ts hts).dumpOrder

/-- A dump beside which no commit is split by it holds the contents of the database at one
instant, and all its rows refer to rows that it holds. -/
theorem backup_consistent (s : State) (h : machine.ReachVia unsplit s) (hf : s.finished) :
    Consistent s ∧ Refers s.dump := by
  have ht : Tracked s :=
    h.invariant (fun _ => tracked_init) fun _ _ _ hi hg hs => hi.step hg hs
  exact ⟨ht.consistent hf, (ht.consistent hf).refers h.reach⟩

/-! ### A user created during the dump -/

def flag (b : Bool) : Value := .integer (if b then 1 else 0)

def numbered (rows : List (List Value)) : List Row :=
  rows.zipIdx.map fun r => ⟨r.2 + 1, r.1⟩

/-- The rows of the accounts and vaults; all accounts were created at `t`. -/
def rowsOf (t : Instant) (d : Db) (table : Bytes) : List Row :=
  if table = utf8 "users" then
    d.users.table.rows.map fun u => ⟨u.id, [.integer u.id, .text u.login, .text u.password,
      flag u.isAdmin, flag u.disabled, .text (format t)]⟩
  else if table = utf8 "vaults" then
    d.vaults.table.rows.map fun v => ⟨v.id, [.integer v.id, .text v.name, .text v.slug,
      .text v.kind, .text v.path, flag v.archived, .text v.remoteURL, .text v.lastPushAt,
      .text v.lastPushError, .text (format v.createdAt)]⟩
  else if table = utf8 "vault_members" then
    numbered (d.members.rows.map fun m => [.integer m.vaultID, .integer m.userID, .text m.role,
      .text (format m.createdAt)])
  else if table = utf8 "sessions" then
    numbered (d.sessions.rows.map fun s => [.text s.id, .integer s.userID,
      .text (format s.expiresAt), .text (format s.createdAt)])
  else []

def noUsers : Db := ⟨Users.empty, Vaults.empty, Keyed.empty, Keyed.empty⟩

/-- `createUser` for `ann` commits between the reading of `users` and of the other tables. -/
def annCreated : Db :=
  (createUser (fun _ => false) (utf8 "ann") (utf8 "secret") (some []) false 0 noUsers).2

def newState (db : List Table) : State := ⟨db, none, [], [db]⟩

theorem newState_init {db : List Table} (hn : (db.map Table.name).Nodup) (hr : Refers db) :
    machine.init (newState db) := ⟨hn, hr, rfl, rfl, rfl⟩

def newServer : State := newState (withRows newTables (rowsOf 0 noUsers))

theorem newServer_init : machine.init newServer :=
  newState_init (by decide +kernel) (by decide +kernel)

def splitDump : List Act :=
  [.list, .select, .commit (rowsOf 0 annCreated)] ++ List.replicate 13 .select

theorem backup_splits : (¬ ∀ s, machine.Reach s → s.finished → Consistent s) ∧
    ¬ ∀ s, machine.Reach s → s.finished → Refers s.dump := by
  have hinit : machine.Reach newServer := .init newServer_init
  obtain ⟨s, hs, hp⟩ := hinit.run_any splitDump
    (p := fun s => decide (s.todo = some []) && !decide (Refers s.dump)) (by decide +kernel)
  simp only [Bool.and_eq_true, decide_eq_true_eq, Bool.not_eq_true',
    decide_eq_false_iff_not] at hp
  obtain ⟨hf, hno⟩ := hp
  exact ⟨fun h => hno ((h s hs hf).refers hs), fun h => hno (h s hs hf)⟩

/-- The step commits nothing once a table has been read. -/
def early (s : State) (a : Act) : Prop := s.dump = [] ∨ ∀ rows, a ≠ .commit rows

theorem unsplit_of_early (s : State) (a : Act) (h : early s a) : unsplit s a := by
  cases a with
  | commit rows =>
    refine .inr fun t ht => ?_
    rw [h.resolve_right fun hno => hno rows rfl] at ht
    cases ht
  | list | select => trivial

instance (s : State) (a : Act) : Decidable (early s a) :=
  match a with
  | .commit _ => decidable_of_iff (s.dump = []) (by simp [early])
  | .list | .select => .isTrue (.inr fun _ => Act.noConfusion)

def earlyDump : List Act :=
  [.list, .commit (rowsOf 0 annCreated)] ++ List.replicate 14 .select

/-- The user is created before the first table is read. -/
theorem backup_consistent_created : ∃ s : State,
    (s.dump.any fun t => t.name = utf8 "users" ∧ t.rows.length = 1) ∧ Consistent s ∧
      Refers s.dump := by
  have hrun : (machine.runVia early newServer earlyDump).any (fun s => decide (s.todo = some []) &&
      s.dump.any fun t => t.name = utf8 "users" ∧ t.rows.length = 1) = true := by decide +kernel
  obtain ⟨s, hs, hp⟩ := (Option.any_eq_true _ _).mp hrun
  rw [Bool.and_eq_true, decide_eq_true_eq] at hp
  have hvia : machine.ReachVia unsplit s :=
    (Machine.ReachVia.init newServer_init).run unsplit_of_early earlyDump hs
  exact ⟨s, hp.2, backup_consistent s hvia hp.1⟩

end Mdock.Store.Snapshot
