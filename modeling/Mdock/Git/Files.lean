import Mdock.Go.Text
import Mdock.Go.Time
import Mdock.Lib.Pieces

/-! `commitFiles`: the changed files of a commit, put together from the two listings git
prints of them. -/
namespace Mdock.Git.Files
open Mdock.Go

structure ChangedFile where
  path : Bytes := []
  oldPath : Bytes := []
  status : Bytes := []
  binary : Bool := false
  adds : Nat := 0
  deletes : Nat := 0
  deriving DecidableEq

def isInt (value : Bytes) : Bool := value ≠ [] ∧ value.all fun c => 0x30 ≤ c ∧ c ≤ 0x39

def atoi (value : Bytes) : Nat := value.foldl (fun result c => result * 10 + (c.toNat - 0x30)) 0

def hyphen : Bytes := utf8 "-"

def isCount (field : Bytes) : Bool := isInt field || field = hyphen

/-- `stats`; a path without an entry has the empty one. -/
abbrev Stats := Bytes → ChangedFile

def readNumstat (stats : Stats) (added deleted path : Bytes) : Stats :=
  let entry := { stats path with path := path }
  let entry :=
    if added = hyphen ∨ deleted = hyphen then { entry with binary := true }
    else { entry with adds := atoi added, deletes := atoi deleted }
  fun p => if p = path then entry else stats p

/-- One round of the first loop: `stats` and `statusLines`. -/
def sortLine (st : Stats × List Bytes) (line : Bytes) : Stats × List Bytes :=
  if trimSpace line = [] then st
  else
    match line.splitOn tab with
    | added :: deleted :: field :: fields =>
      if isCount added ∧ isCount deleted then
        (readNumstat st.1 added deleted ((field :: fields).getLast (by simp)), st.2)
      else (st.1, st.2 ++ [line])
    | _ => (st.1, st.2 ++ [line])

/-- One round of the second loop. -/
def changedFile (stats : Stats) (line : Bytes) : Option ChangedFile :=
  match line.splitOn tab with
  | status :: field :: fields =>
    let path := (field :: fields).getLast (by simp)
    let oldPath := if utf8 "R" <+: status ∧ fields ≠ [] then field else []
    some { stats path with path := path, oldPath := oldPath, status := status }
  | _ => none

/-- `commitFiles`, of what `git show` has printed. -/
def commitFiles (out : Bytes) : List ChangedFile :=
  let st := ((trimSpace out).splitOn newline).foldl sortLine (fun _ => {}, [])
  st.2.filterMap (changedFile st.1)

/-! ### What git prints -/

/-- A byte of a path that is printed as it is. -/
def IsUsual (c : UInt8) : Prop := 0x20 ≤ c ∧ c < 0x7F ∧ c ≠ 0x22 ∧ c ≠ 0x5C

instance (c : UInt8) : Decidable (IsUsual c) := inferInstanceAs (Decidable (_ ∧ _ ∧ _ ∧ _))

instance (path : Bytes) : Decidable (∀ c ∈ path, IsUsual c) := List.decidableBAll _ path

/-- The escapes of C. -/
def escape (c : UInt8) : Bytes :=
  if IsUsual c then [c]
  else if c = 0x07 then utf8 "\\a"
  else if c = 0x08 then utf8 "\\b"
  else if c = 0x09 then utf8 "\\t"
  else if c = 0x0A then utf8 "\\n"
  else if c = 0x0B then utf8 "\\v"
  else if c = 0x0C then utf8 "\\f"
  else if c = 0x0D then utf8 "\\r"
  else if c = 0x22 then utf8 "\\\""
  else if c = 0x5C then utf8 "\\\\"
  else 0x5C :: [64, 8, 1].map fun n => UInt8.ofNat (0x30 + c.toNat / n % 8)

/-- `core.quotePath`. -/
def quotePath (path : Bytes) : Bytes :=
  if ∀ c ∈ path, IsUsual c then path else 0x22 :: (path.flatMap escape ++ [0x22])

/-- `old => new`, or with what both have in common in front of and behind braces. -/
def IsRenameText (old new text : Bytes) : Prop :=
  text = quotePath old ++ utf8 " => " ++ quotePath new ∨
    (∀ c ∈ old ++ new, IsUsual c) ∧ ∃ pre a b post, pre <+: old ∧ pre <+: new ∧ post <:+ old ∧
      post <:+ new ∧ a <:+: old ∧ b <:+: new ∧
      text = pre ++ utf8 "\x7b" ++ a ++ utf8 " => " ++ b ++ utf8 "\x7d" ++ post

/-- How `--numstat` prints a rename. -/
structure RenameText where
  text : Bytes → Bytes → Bytes
  spec : ∀ old new, IsRenameText old new (text old new)

inductive Status
  | added
  | modified
  | deleted
  | typeChanged
  | renamed (score : Nat) (oldPath : Bytes)
  deriving DecidableEq

def Status.letters : Status → Bytes
  | added => utf8 "A"
  | modified => utf8 "M"
  | deleted => utf8 "D"
  | typeChanged => utf8 "T"
  | renamed score _ => utf8 "R" ++ pad 3 score

def Status.oldPath : Status → Bytes
  | renamed _ oldPath => oldPath
  | _ => []

/-- A file that a commit changes; a binary one has no counts. -/
structure Change where
  path : Bytes
  status : Status
  counts : Option (Nat × Nat)
  ne_nil : path ≠ []
  deriving DecidableEq

/-- `%d`. -/
def sprint (n : Nat) : Bytes := if n = 0 then utf8 "0" else decimal n n

/-- A number of `--numstat`; a binary file has none. -/
def countField : Option Nat → Bytes
  | none => hyphen
  | some n => sprint n

namespace Change

def statusLine (c : Change) : Bytes :=
  c.status.letters ++ tab :: match c.status with
    | .renamed _ oldPath => quotePath oldPath ++ tab :: quotePath c.path
    | _ => quotePath c.path

def numstatText (R : RenameText) (c : Change) : Bytes :=
  match c.status with
  | .renamed _ oldPath => R.text oldPath c.path
  | _ => quotePath c.path

def numstatLine (R : RenameText) (c : Change) : Bytes :=
  countField (c.counts.map Prod.fst) ++ tab ::
    (countField (c.counts.map Prod.snd) ++ tab :: c.numstatText R)

/-- The entry of a change. -/
def file (c : Change) : ChangedFile :=
  ⟨c.path, c.status.oldPath, c.status.letters, c.counts.isNone, (c.counts.getD (0, 0)).1,
    (c.counts.getD (0, 0)).2⟩

end Change

/-- What `--numstat --name-status` lists: `--name-status` shows only names and status, or else
they follow the counts. -/
inductive Listings
  | nameStatus
  | both
  deriving DecidableEq

/-- The changes that have a numstat line. -/
def Listings.counted : Listings → List Change → List Change
  | nameStatus, _ => []
  | both, changes => changes

/-- The output for a commit. -/
def showOutput (R : RenameText) (counted changes : List Change) : Bytes :=
  unlines (counted.map (Change.numstatLine R) ++ changes.map Change.statusLine)

/-! ### The texts of a line -/

/-- Bytes of a text between two tabs. -/
def Printable (s : Bytes) : Prop := ∀ c ∈ s, 0x20 ≤ c ∧ c < 0x7F

instance (s : Bytes) : Decidable (Printable s) :=
  List.decidableBAll (fun c => 0x20 ≤ c ∧ c < 0x7F) s

theorem Printable.append {s t : Bytes} (hs : Printable s) (ht : Printable t) :
    Printable (s ++ t) := fun c hc => (List.mem_append.mp hc).elim (hs c) (ht c)

theorem Printable.of_usual {s : Bytes} (h : ∀ c ∈ s, IsUsual c) : Printable s := fun c hc =>
  ⟨(h c hc).1, (h c hc).2.1⟩

theorem Printable.not_mem {s : Bytes} (h : Printable s) : tab ∉ s ∧ newline ∉ s :=
  ⟨fun hm => absurd (h _ hm).1 (by decide), fun hm => absurd (h _ hm).1 (by decide)⟩

/-- What is printed is ink, but for the spaces. -/
theorem ink_or_space {c : UInt8} (h : 0x20 ≤ c ∧ c < 0x7F) : IsInk c ∨ c = space := by
  have all : ∀ n < 256, 0x20 ≤ UInt8.ofNat n ∧ UInt8.ofNat n < 0x7F →
      IsInk (UInt8.ofNat n) ∨ UInt8.ofNat n = space := by decide +kernel
  have hc := all c.toNat c.toNat_lt
  rw [UInt8.ofNat_toNat] at hc
  exact hc h

theorem escape_spec (c : UInt8) : escape c ≠ [] ∧ Printable (escape c) := by
  have all : ∀ n < 256, escape (UInt8.ofNat n) ≠ [] ∧ Printable (escape (UInt8.ofNat n)) := by
    decide +kernel
  have hc := all c.toNat c.toNat_lt
  rwa [UInt8.ofNat_toNat] at hc

theorem printable_quotePath (path : Bytes) : Printable (quotePath path) := by
  unfold quotePath
  split
  · rename_i h
    exact .of_usual h
  · intro c hc
    rw [List.mem_cons, List.mem_append, List.mem_singleton, List.mem_flatMap] at hc
    rcases hc with rfl | ⟨b, -, hb⟩ | rfl
    · decide
    · exact (escape_spec b).2 c hb
    · decide

/-- A path that is quoted is not printed as it is. -/
theorem quotePath_eq_iff (path : Bytes) : quotePath path = path ↔ ∀ c ∈ path, IsUsual c := by
  have hlen : ∀ p : Bytes, p.length ≤ (p.flatMap escape).length := by
    intro p
    induction p with
    | nil => simp
    | cons c p ih =>
      have hc := List.length_pos_iff.mpr (escape_spec c).1
      rw [List.flatMap_cons, List.length_append, List.length_cons]
      omega
  constructor
  · intro h
    by_contra hno
    rw [quotePath, if_neg hno] at h
    have hl := congrArg List.length h
    have hle := hlen path
    simp only [List.length_cons, List.length_append] at hl
    omega
  · exact fun h => if_pos h

theorem printable_rename (R : RenameText) (old new : Bytes) : Printable (R.text old new) := by
  rcases R.spec old new with h | ⟨husual, pre, a, b, post, hpre, -, -, hpost, ha, hb, h⟩
  · rw [h]
    exact ((printable_quotePath old).append (by decide)).append (printable_quotePath new)
  · have hold : ∀ {t : Bytes}, t <:+: old → Printable t := fun ht =>
      .of_usual fun c hc => husual c (List.mem_append_left new (ht.subset hc))
    have hnew : ∀ {t : Bytes}, t <:+: new → Printable t := fun ht =>
      .of_usual fun c hc => husual c (List.mem_append_right old (ht.subset hc))
    rw [h]
    exact ((((((hold hpre.isInfix).append (by decide)).append (hold ha)).append
      (by decide)).append (hnew hb)).append (by decide)).append (hnew hpost.isInfix)

theorem printable_numstatText (R : RenameText) (c : Change) : Printable (c.numstatText R) := by
  unfold Change.numstatText
  cases c.status with
  | renamed score old => exact printable_rename R old c.path
  | _ => exact printable_quotePath c.path

/-! ### Numbers -/

theorem sprint_digits (n : Nat) : sprint n ≠ [] ∧ ∀ c ∈ sprint n, 0x30 ≤ c ∧ c ≤ 0x39 := by
  unfold sprint
  split
  · decide +kernel
  · rename_i hn
    exact ⟨decimal_ne_nil hn, decimal_digits n n⟩

theorem isCount_sprint (n : Nat) : isCount (sprint n) = true := by
  obtain ⟨hne, hd⟩ := sprint_digits n
  simp only [isCount, isInt, hne, ne_eq, not_false_eq_true, true_and, Bool.or_eq_true,
    decide_eq_true_eq]
  exact .inl (by simpa using hd)

theorem sprint_ne_hyphen (n : Nat) : sprint n ≠ hyphen := fun h =>
  absurd ((sprint_digits n).2 0x2D (by rw [h]; decide)).1 (by decide)

theorem atoi_sprint (n : Nat) : atoi (sprint n) = n := by
  have hvalue : ∀ s, atoi s = value s := by
    intro s
    unfold atoi value
    congr 1
    funext v c
    rw [Nat.mul_comm]
  rw [hvalue, sprint]
  split
  · rename_i hn
    rw [hn]
    decide
  · exact value_decimal le_rfl

theorem countField_spec (n : Option Nat) : isCount (countField n) = true ∧
    (tab ∉ countField n ∧ newline ∉ countField n) ∧ ∃ a s, countField n = a :: s ∧ IsInk a := by
  cases n with
  | none => exact ⟨by decide, by decide, 0x2D, [], rfl, by decide⟩
  | some n =>
    obtain ⟨hne, hd⟩ := sprint_digits n
    have hp : Printable (sprint n) := fun c hc =>
      ⟨le_trans (by decide) (hd c hc).1, lt_of_le_of_lt (hd c hc).2 (by decide)⟩
    refine ⟨isCount_sprint n, hp.not_mem, ?_⟩
    obtain ⟨a, s, hs⟩ := List.exists_cons_of_ne_nil hne
    refine ⟨a, s, hs, ?_⟩
    have ha : a ∈ sprint n := by rw [hs]; simp
    rcases ink_or_space (hp a ha) with hi | rfl
    · exact hi
    · exact absurd (hd _ ha).1 (by decide)

/-! ### Lines -/

/-- Whether a line begins as a status does. -/
def BeginsUpper (line : Bytes) : Prop := ∃ b s, line = b :: s ∧ 0x41 ≤ b ∧ b ≤ 0x5A

theorem ink_of_upper {b : UInt8} (h : 0x41 ≤ b ∧ b ≤ 0x5A) : IsInk b := by
  have hp : 0x20 ≤ b ∧ b < 0x7F :=
    ⟨le_trans (by decide) h.1, lt_of_le_of_lt h.2 (by decide)⟩
  rcases ink_or_space hp with hi | rfl
  · exact hi
  · exact absurd h.1 (by decide)

theorem ink_of_beginsUpper {line : Bytes} (h : BeginsUpper line) :
    ∃ a s, line = a :: s ∧ IsInk a := by
  obtain ⟨a, s, hs, ha⟩ := h
  exact ⟨a, s, hs, ink_of_upper ha⟩

theorem trimSpace_ne_nil {b : UInt8} (h : IsInk b) (s : Bytes) : trimSpace (b :: s) ≠ [] := by
  intro he
  rw [trimSpace_eq (h.not_space_rune s)] at he
  have hb : ∀ r ∈ spaceRunes.map List.reverse, b ∉ r := by
    intro r' hm
    obtain ⟨r, hmem, rfl⟩ := List.mem_map.mp hm
    simpa using h r hmem
  obtain ⟨x, -, hx⟩ := dropRunes_append (x := s.reverse) (y := []) hb (b :: s).length
  rw [List.reverse_cons, hx] at he
  simp at he

theorem splitOn_tab_cons {b : UInt8} (hb : b ≠ tab) (s : Bytes) : ∃ t fields,
    (b :: s).splitOn tab = (b :: t) :: fields := by
  rw [List.splitOn_cons_eq_if_modifyHead, if_neg (by simpa using hb)]
  cases hs : s.splitOn tab with
  | nil => exact absurd hs (List.splitOn_ne_nil _ _)
  | cons t fields => exact ⟨t, fields, rfl⟩

theorem isCount_upper {b : UInt8} (h : 0x41 ≤ b ∧ b ≤ 0x5A) (t : Bytes) :
    isCount (b :: t) = false := by
  have hdigit : ¬ b ≤ 0x39 := fun hle => absurd (le_trans h.1 hle) (by decide)
  have hne : b :: t ≠ hyphen := by
    intro he
    have hb : b = 0x2D := (List.cons.inj he).1
    rw [hb] at h
    exact absurd h.1 (by decide)
  simp [isCount, isInt, hdigit, hne]

/-- A line that begins with a letter is a status line. -/
theorem sortLine_upper {line : Bytes} (h : BeginsUpper line) (st : Stats × List Bytes) :
    sortLine st line = (st.1, st.2 ++ [line]) := by
  obtain ⟨b, s, rfl, hb⟩ := h
  have htab : b ≠ tab := by
    rintro rfl
    exact absurd hb.1 (by decide)
  obtain ⟨t, fields, hsplit⟩ := splitOn_tab_cons htab s
  rw [sortLine, if_neg (trimSpace_ne_nil (ink_of_upper hb) s), hsplit]
  match fields with
  | [] => rfl
  | [_] => rfl
  | _ :: _ :: _ =>
    simp only [isCount_upper hb, Bool.false_eq_true, false_and, if_false]

namespace Change

theorem beginsUpper_letters (st : Status) (s : Bytes) : BeginsUpper (st.letters ++ s) := by
  cases st with
  | added => exact ⟨0x41, s, rfl, by decide⟩
  | modified => exact ⟨0x4D, s, rfl, by decide⟩
  | deleted => exact ⟨0x44, s, rfl, by decide⟩
  | typeChanged => exact ⟨0x54, s, rfl, by decide⟩
  | renamed score old => exact ⟨0x52, pad 3 score ++ s, rfl, by decide⟩

theorem beginsUpper (c : Change) : BeginsUpper c.statusLine := beginsUpper_letters _ _

theorem printable_letters (st : Status) : Printable st.letters := by
  cases st with
  | renamed score old =>
    refine .append (by decide) fun c hc => ?_
    obtain ⟨h1, h2⟩ := pad_digits _ _ c hc
    exact ⟨le_trans (by decide) h1, lt_of_le_of_lt h2 (by decide)⟩
  | _ => decide

/-- What a status line says, were its path the given text. -/
def fileOf (stats : Stats) (c : Change) : ChangedFile :=
  { stats (quotePath c.path) with
    path := quotePath c.path
    oldPath := match c.status with
      | .renamed _ oldPath => quotePath oldPath
      | _ => []
    status := c.status.letters }

theorem changedFile_statusLine (stats : Stats) (c : Change) :
    changedFile stats c.statusLine = some (fileOf stats c) := by
  have hl := (printable_letters c.status).not_mem.1
  have hp := (printable_quotePath c.path).not_mem.1
  have hplain : ∀ t, c.statusLine = c.status.letters ++ tab :: t →
      c.statusLine.splitOn tab = c.status.letters :: t.splitOn tab := by
    intro t ht
    rw [ht, List.splitOn_append_cons_self, List.splitOn_eq_singleton hl]
    rfl
  obtain ⟨path, status, counts, hne⟩ := c
  cases status with
  | renamed score old =>
    have ho := (printable_quotePath old).not_mem.1
    have hsplit := hplain (quotePath old ++ tab :: quotePath path) rfl
    rw [List.splitOn_append_cons_self, List.splitOn_eq_singleton ho, List.splitOn_eq_singleton hp]
      at hsplit
    rw [changedFile, hsplit]
    rfl
  | _ =>
    have hsplit := hplain (quotePath path) rfl
    rw [List.splitOn_eq_singleton hp] at hsplit
    rw [changedFile, hsplit]
    rfl

/-- The counts of a line, entered under its text. -/
def enter (stats : Stats) (text : Bytes) : Option (Nat × Nat) → Stats
  | none => fun p => if p = text then { stats text with path := text, binary := true } else stats p
  | some (adds, deletes) => fun p =>
    if p = text then { stats text with path := text, adds := adds, deletes := deletes } else stats p

theorem sortLine_numstatLine (R : RenameText) (st : Stats × List Bytes) (c : Change) :
    sortLine st (c.numstatLine R) = (enter st.1 (c.numstatText R) c.counts, st.2) := by
  have ht := (printable_numstatText R c).not_mem.1
  have hspec := countField_spec
  obtain ⟨a, s, ha, hink⟩ := (hspec (c.counts.map Prod.fst)).2.2
  have hblank : trimSpace (c.numstatLine R) ≠ [] := by
    rw [numstatLine, ha]
    exact trimSpace_ne_nil hink _
  have hsplit : (c.numstatLine R).splitOn tab = [countField (c.counts.map Prod.fst),
      countField (c.counts.map Prod.snd), c.numstatText R] := by
    rw [numstatLine, List.splitOn_append_cons_self, List.splitOn_append_cons_self,
      List.splitOn_eq_singleton (hspec _).2.1.1, List.splitOn_eq_singleton (hspec _).2.1.1,
      List.splitOn_eq_singleton ht]
    rfl
  rw [sortLine, if_neg hblank, hsplit]
  simp only [(hspec _).1, and_self, if_true, List.getLast_singleton]
  cases c.counts with
  | none => rfl
  | some n =>
    simp only [Option.map_some, countField, readNumstat, sprint_ne_hyphen, or_self, if_false,
      atoi_sprint, enter]

end Change

/-! ### Counts under a path -/

/-- What the numstat lines with a text come to: the last counts, and whether one is binary. -/
def tally (counts : List (Option (Nat × Nat))) : (Nat × Nat) × Bool :=
  ((counts.filterMap id).getLast?.getD (0, 0), counts.any Option.isNone)

/-- The numstat lines with a text. -/
def listed (R : RenameText) (counted : List Change) (text : Bytes) : List (Option (Nat × Nat)) :=
  (counted.filter fun c => c.numstatText R = text).map Change.counts

def ChangedFile.tally (f : ChangedFile) : (Nat × Nat) × Bool := ((f.adds, f.deletes), f.binary)

theorem tally_concat_none (counts : List (Option (Nat × Nat))) :
    tally (counts ++ [none]) = ((tally counts).1, true) := by
  simp [tally]

theorem tally_concat_some (counts : List (Option (Nat × Nat))) (n : Nat × Nat) :
    tally (counts ++ [some n]) = (n, (tally counts).2) := by
  simp [tally]

theorem tally_enter (stats : Stats) (text : Bytes) (n : Option (Nat × Nat)) (p : Bytes)
    {counts : List (Option (Nat × Nat))} (h : (stats p).tally = tally counts) :
    (Change.enter stats text n p).tally = tally (if text = p then counts ++ [n] else counts) := by
  by_cases hp : text = p
  · subst hp
    rw [if_pos rfl]
    cases n with
    | none =>
      rw [tally_concat_none, ← h]
      simp [Change.enter, ChangedFile.tally]
    | some n =>
      rw [tally_concat_some, ← h]
      simp [Change.enter, ChangedFile.tally]
  · rw [if_neg hp, ← h]
    cases n <;> simp [Change.enter, Ne.symm hp]

/-- After the numstat lines, the entry of a path has what they come to. -/
theorem tally_stats (R : RenameText) (changes : List Change) (p : Bytes) :
    ((changes.foldl (fun st c => Change.enter st (c.numstatText R) c.counts)
      (fun _ => {})) p).tally = tally (listed R changes p) := by
  induction changes using List.reverseRecOn with
  | nil => rfl
  | append_singleton changes c ih =>
    have hlisted : listed R (changes ++ [c]) p =
        if c.numstatText R = p then listed R changes p ++ [c.counts] else listed R changes p := by
      unfold listed
      by_cases hc : c.numstatText R = p <;> simp [hc]
    rw [List.foldl_append, List.foldl_cons, List.foldl_nil, tally_enter _ _ _ _ ih, hlisted]

/-! ### The two loops -/

theorem foldl_numstat (R : RenameText) (changes : List Change) (stats : Stats) (lines : List Bytes) :
    (changes.map (Change.numstatLine R)).foldl sortLine (stats, lines) =
      (changes.foldl (fun st c => Change.enter st (c.numstatText R) c.counts) stats, lines) := by
  induction changes generalizing stats with
  | nil => rfl
  | cons c changes ih =>
    rw [List.map_cons, List.foldl_cons, Change.sortLine_numstatLine, ih]
    rfl

theorem foldl_upper {lines : List Bytes} (h : ∀ l ∈ lines, BeginsUpper l)
    (st : Stats × List Bytes) : lines.foldl sortLine st = (st.1, st.2 ++ lines) := by
  induction lines generalizing st with
  | nil => simp
  | cons l lines ih =>
    rw [List.foldl_cons, sortLine_upper (h l (by simp)),
      ih fun m hm => h m (List.mem_cons_of_mem l hm)]
    simp

/-- The entries that `stats` has in the second loop. -/
def statsOf (R : RenameText) (changes : List Change) : Stats :=
  changes.foldl (fun st c => Change.enter st (c.numstatText R) c.counts) fun _ => {}

theorem filterMap_statusLine (stats : Stats) (changes : List Change) :
    (changes.map Change.statusLine).filterMap (changedFile stats) =
      changes.map (Change.fileOf stats) := by
  induction changes with
  | nil => rfl
  | cons c changes ih =>
    rw [List.map_cons, List.filterMap_cons, Change.changedFile_statusLine, List.map_cons, ih]

/-! ### The end of the output -/

theorem not_isInk_of_blank {c : UInt8} (h : IsBlank c) : ¬ IsInk c := by
  rcases h with rfl | rfl | rfl <;> decide

/-- The last ink of a line of ink and blanks. -/
theorem exists_last_ink {s : Bytes} (h : ∀ c ∈ s, IsInk c ∨ IsBlank c) (hi : ∃ c ∈ s, IsInk c) :
    ∃ u b ws, s = u ++ b :: ws ∧ IsInk b ∧ ∀ c ∈ ws, IsBlank c := by
  induction s using List.reverseRecOn with
  | nil => simp at hi
  | append_singleton s c ih =>
    rcases h c (by simp) with hc | hc
    · exact ⟨s, c, [], rfl, hc, by simp⟩
    · have hs : ∃ d ∈ s, IsInk d := by
        obtain ⟨d, hd, hink⟩ := hi
        rcases List.mem_append.mp hd with hd | hd
        · exact ⟨d, hd, hink⟩
        · rw [List.mem_singleton.mp hd] at hink
          exact absurd hink (not_isInk_of_blank hc)
      obtain ⟨u, b, ws, rfl, hb, hws⟩ := ih (fun d hd => h d (List.mem_append_left _ hd)) hs
      refine ⟨u, b, ws ++ [c], by simp, hb, fun d hd => ?_⟩
      rcases List.mem_append.mp hd with hd | hd
      · exact hws d hd
      · rwa [List.mem_singleton.mp hd]

theorem statusLine_bytes (c : Change) : newline ∉ c.statusLine ∧
    ∀ b ∈ c.statusLine, IsInk b ∨ IsBlank b := by
  have hbyte : ∀ b ∈ c.statusLine, b = tab ∨ 0x20 ≤ b ∧ b < 0x7F := by
    intro b hb
    rcases List.mem_append.mp hb with hb | hb
    · exact .inr (Change.printable_letters _ b hb)
    · rcases List.mem_cons.mp hb with hb | hb
      · exact .inl hb
      · split at hb
        · rcases List.mem_append.mp hb with hb | hb
          · exact .inr (printable_quotePath _ b hb)
          · rcases List.mem_cons.mp hb with hb | hb
            · exact .inl hb
            · exact .inr (printable_quotePath _ b hb)
        · exact .inr (printable_quotePath _ b hb)
  refine ⟨fun hm => ?_, fun b hb => ?_⟩
  · rcases hbyte _ hm with h | h
    · exact absurd h (by decide)
    · exact absurd h.1 (by decide)
  · rcases hbyte b hb with h | h
    · exact .inr (.inr (.inl h))
    · exact (ink_or_space h).imp_right .inl

theorem numstatLine_bytes (R : RenameText) (c : Change) : newline ∉ c.numstatLine R ∧
    ∃ a s, c.numstatLine R = a :: s ∧ IsInk a := by
  have hspec := countField_spec
  constructor
  · intro hm
    rcases List.mem_append.mp hm with hm | hm
    · exact (hspec _).2.1.2 hm
    · rcases List.mem_cons.mp hm with hm | hm
      · exact absurd hm (by decide)
      · rcases List.mem_append.mp hm with hm | hm
        · exact (hspec _).2.1.2 hm
        · rcases List.mem_cons.mp hm with hm | hm
          · exact absurd hm (by decide)
          · exact (printable_numstatText R c).not_mem.2 hm
  · obtain ⟨a, s, ha, hink⟩ := (hspec (c.counts.map Prod.fst)).2.2
    exact ⟨a, _, by rw [Change.numstatLine, ha]; rfl, hink⟩

theorem beginsUpper_of_append {s u ws : Bytes} {b : UInt8} (h : BeginsUpper s)
    (hs : s = u ++ b :: ws) : BeginsUpper (u ++ [b]) := by
  obtain ⟨x, t, rfl, hx⟩ := h
  cases u with
  | nil => exact ⟨b, [], rfl, (List.cons.inj hs).1 ▸ hx⟩
  | cons y u => exact ⟨y, u ++ [b], rfl, (List.cons.inj hs).1 ▸ hx⟩

theorem unlines_ink {lines : List Bytes} (h : ∀ l ∈ lines, ∃ a s, l = a :: s ∧ IsInk a) {t : Bytes}
    (ht : ∃ a s, t = a :: s ∧ IsInk a) : ∃ a s, unlines lines ++ t = a :: s ∧ IsInk a := by
  cases lines with
  | nil => exact ht
  | cons l lines =>
    obtain ⟨a, s, rfl, ha⟩ := h l (by simp)
    exact ⟨a, s ++ newline :: (unlines lines ++ t), by simp [unlines_cons], ha⟩

/-- The files of a commit: one for every status line, the last of which is trimmed. -/
theorem commitFiles_showOutput (R : RenameText) (counted changes : List Change) (last : Change)
    {u ws : Bytes} {b : UInt8} (hline : last.statusLine = u ++ b :: ws) (hb : IsInk b)
    (hws : ∀ c ∈ ws, IsBlank c) :
    commitFiles (showOutput R counted (changes ++ [last])) =
      changes.map (Change.fileOf (statsOf R counted)) ++
        (changedFile (statsOf R counted) (u ++ [b])).toList := by
  let lines := counted.map (Change.numstatLine R) ++ changes.map Change.statusLine
  have hout : showOutput R counted (changes ++ [last]) =
      unlines lines ++ (u ++ b :: (ws ++ [newline])) := by
    simp [showOutput, lines, unlines, hline]
  have hlines : ∀ l ∈ lines, newline ∉ l := by
    intro l hl
    rcases List.mem_append.mp hl with hl | hl
    · obtain ⟨c, -, rfl⟩ := List.mem_map.mp hl
      exact (numstatLine_bytes R c).1
    · obtain ⟨c, -, rfl⟩ := List.mem_map.mp hl
      exact (statusLine_bytes c).1
  have hend : newline ∉ u ++ [b] := by
    have hno := (statusLine_bytes last).1
    rw [hline] at hno
    intro hm
    rw [List.mem_append, List.mem_singleton] at hm
    exact hno (by simp only [List.mem_append, List.mem_cons]; tauto)
  have hhead : ∃ a m, unlines lines ++ (u ++ b :: (ws ++ [newline])) = a :: m ∧ IsInk a := by
    have hinks : ∀ l ∈ lines, ∃ a s, l = a :: s ∧ IsInk a := by
      intro l hl
      rcases List.mem_append.mp hl with hl | hl
      · obtain ⟨c, -, rfl⟩ := List.mem_map.mp hl
        exact (numstatLine_bytes R c).2
      · obtain ⟨c, -, rfl⟩ := List.mem_map.mp hl
        exact ink_of_beginsUpper c.beginsUpper
    obtain ⟨a, s, hs, ha⟩ := ink_of_beginsUpper last.beginsUpper
    have hlast : u ++ b :: (ws ++ [newline]) = a :: (s ++ [newline]) := by
      rw [← List.cons_append (a := a), ← hs, hline]
      simp
    exact unlines_ink hinks ⟨a, s ++ [newline], hlast, ha⟩
  have hblank : ∀ c ∈ ws ++ [newline], IsBlank c := by
    intro c hc
    rcases List.mem_append.mp hc with hc | hc
    · exact hws c hc
    · exact .inr (.inr (List.mem_singleton.mp hc))
  have htrim : trimSpace (showOutput R counted (changes ++ [last])) = unlines lines ++ (u ++ [b]) := by
    obtain ⟨a, m, hs, ha⟩ := hhead
    rw [← List.append_assoc] at hs
    rw [hout, ← List.append_assoc, trimSpace_blank hs ha hb hblank, List.append_assoc]
  have hstatus : ∀ l ∈ changes.map Change.statusLine ++ [u ++ [b]], BeginsUpper l := by
    intro l hl
    rcases List.mem_append.mp hl with hl | hl
    · obtain ⟨c, -, rfl⟩ := List.mem_map.mp hl
      exact c.beginsUpper
    · rw [List.mem_singleton.mp hl]
      exact beginsUpper_of_append last.beginsUpper hline
  have hfold : (lines ++ [u ++ [b]]).foldl sortLine (fun _ => {}, []) =
      (statsOf R counted, changes.map Change.statusLine ++ [u ++ [b]]) := by
    rw [List.append_assoc, List.foldl_append, foldl_numstat, foldl_upper hstatus, List.nil_append]
    rfl
  rw [commitFiles, htrim, splitOn_unlines hlines hend, hfold]
  simp only
  rw [List.filterMap_append, filterMap_statusLine, List.append_cancel_left_eq]
  cases hf : changedFile (statsOf R counted) (u ++ [b]) with
  | none => rw [List.filterMap_cons_none hf]; rfl
  | some f => rw [List.filterMap_cons_some hf]; rfl

/-! ### Which file gets which counts -/

theorem tally_singleton (n : Option (Nat × Nat)) : tally [n] = (n.getD (0, 0), n.isNone) := by
  cases n <;> rfl

theorem fileOf_eq_iff (R : RenameText) (counted : List Change) (c : Change) :
    Change.fileOf (statsOf R counted) c = c.file ↔
      (∀ b ∈ c.path ++ c.status.oldPath, IsUsual b) ∧
        tally (listed R counted c.path) = tally [c.counts] := by
  have husual : (∀ b ∈ c.path ++ c.status.oldPath, IsUsual b) ↔
      (∀ b ∈ c.path, IsUsual b) ∧ ∀ b ∈ c.status.oldPath, IsUsual b := by
    simp only [List.mem_append]
    exact ⟨fun h => ⟨fun b hb => h b (.inl hb), fun b hb => h b (.inr hb)⟩,
      fun h b hb => hb.elim (h.1 b) (h.2 b)⟩
  have hold : (match c.status with | .renamed _ oldPath => quotePath oldPath | _ => []) =
      c.status.oldPath ↔ ∀ b ∈ c.status.oldPath, IsUsual b := by
    cases c.status with
    | renamed score old => exact quotePath_eq_iff old
    | _ => simp [Status.oldPath]
  rw [husual, ← quotePath_eq_iff, ← hold, tally_singleton]
  constructor
  · intro h
    have hpath := congrArg ChangedFile.path h
    have htally := congrArg ChangedFile.tally h
    refine ⟨⟨hpath, congrArg ChangedFile.oldPath h⟩, ?_⟩
    rw [← tally_stats, ← show quotePath c.path = c.path from hpath]
    exact htally
  · rintro ⟨⟨hpath, hold⟩, htally⟩
    rw [← tally_stats] at htally
    have hadds := congrArg (fun t => t.1.1) htally
    have hdeletes := congrArg (fun t => t.1.2) htally
    have hbinary := congrArg Prod.snd htally
    rw [Change.fileOf, Change.file, hpath, hold]
    exact ChangedFile.mk.injEq .. ▸ ⟨rfl, rfl, rfl, hbinary, hadds, hdeletes⟩

theorem last_ink (c : Change) (h : c.path.getLast? ≠ some space) :
    ∃ u b, c.statusLine = u ++ [b] ∧ IsInk b := by
  have hquoted : ∃ v b, quotePath c.path = v ++ [b] ∧ IsInk b := by
    unfold quotePath
    split
    · rename_i husual
      refine ⟨c.path.dropLast, c.path.getLast c.ne_nil, (List.dropLast_concat_getLast c.ne_nil).symm,
        ?_⟩
      rcases ink_or_space (Printable.of_usual husual _ (List.getLast_mem c.ne_nil)) with hi | hs
      · exact hi
      · exact absurd (by rw [List.getLast?_eq_some_getLast c.ne_nil, hs]) h
    · exact ⟨0x22 :: c.path.flatMap escape, 0x22, rfl, by decide⟩
  obtain ⟨v, b, hv, hb⟩ := hquoted
  have hline : ∃ u, c.statusLine = u ++ quotePath c.path := by
    unfold Change.statusLine
    cases c.status with
    | renamed score old =>
      exact ⟨(Status.renamed score old).letters ++ tab :: (quotePath old ++ [tab]), by simp⟩
    | added => exact ⟨Status.added.letters ++ [tab], by simp⟩
    | modified => exact ⟨Status.modified.letters ++ [tab], by simp⟩
    | deleted => exact ⟨Status.deleted.letters ++ [tab], by simp⟩
    | typeChanged => exact ⟨Status.typeChanged.letters ++ [tab], by simp⟩
  obtain ⟨u, hu⟩ := hline
  exact ⟨u ++ v, b, by rw [hu, hv, List.append_assoc], hb⟩

theorem intercalate_getLast {fields : List Bytes} (hne : fields ≠ []) :
    ∃ p, [tab].intercalate fields = p ++ fields.getLast hne := by
  have hlast := List.dropLast_append_getLast hne
  by_cases h : fields.dropLast = []
  · refine ⟨[], ?_⟩
    rw [h, List.nil_append] at hlast
    conv_lhs => rw [← hlast]
    rw [List.intercalate_singleton, List.nil_append]
  · refine ⟨[tab].intercalate fields.dropLast ++ [tab], ?_⟩
    conv_lhs => rw [← hlast]
    rw [Lib.intercalate_append tab h (List.cons_ne_nil _ []), List.intercalate_singleton,
      List.append_assoc, List.singleton_append]

/-- A trimmed line names no path with a space at its end. -/
theorem changedFile_path {stats : Stats} {u : Bytes} {b : UInt8} (hb : IsInk b) {f : ChangedFile}
    (h : changedFile stats (u ++ [b]) = some f) : f.path.getLast? ≠ some space := by
  unfold changedFile at h
  split at h
  · rename_i status field fields hsplit
    obtain rfl := Option.some.inj h
    obtain ⟨p, hp⟩ := intercalate_getLast (List.cons_ne_nil status (field :: fields))
    have hjoin : [tab].intercalate (status :: field :: fields) = u ++ [b] := by
      rw [← hsplit, List.intercalate_splitOn]
    rw [hjoin, List.getLast_cons (List.cons_ne_nil field fields)] at hp
    intro hlast
    simp only at hlast
    have hend := congrArg List.getLast? hp
    rw [List.getLast?_concat, List.getLast?_append, hlast] at hend
    have hspace : b = space := by simpa using hend
    exact absurd hb (by rw [hspace]; decide)
  · cases h

/-- Every changed file gets its own entry exactly where no path is quoted, the last path does
not end in a space, and the numstat lines under each path come to its own counts. -/
theorem commitFiles_iff (R : RenameText) (l : Listings) (changes : List Change) :
    commitFiles (showOutput R (l.counted changes) changes) = changes.map Change.file ↔
      (∀ c ∈ changes, ∀ b ∈ c.path ++ c.status.oldPath, IsUsual b) ∧
        (∀ c, changes.getLast? = some c → c.path.getLast? ≠ some space) ∧
          ∀ c ∈ changes, tally (listed R (l.counted changes) c.path) = tally [c.counts] := by
  rcases List.eq_nil_or_concat' changes with rfl | ⟨init, last, rfl⟩
  · have hempty : commitFiles (showOutput R (l.counted []) []) = [] := by
      rw [show showOutput R (l.counted []) [] = [] by cases l <;> rfl]
      decide
    simp [hempty]
  · generalize l.counted (init ++ [last]) = counted
    obtain ⟨u, b, ws, hline, hb, hws⟩ := exists_last_ink (statusLine_bytes last).2 (by
      obtain ⟨x, t, hx, hink⟩ := ink_of_beginsUpper last.beginsUpper
      exact ⟨x, by rw [hx]; simp, hink⟩)
    rw [commitFiles_showOutput R counted init last hline hb hws]
    have hwhole : last.path.getLast? ≠ some space →
        changedFile (statsOf R counted) (u ++ [b]) =
          some (Change.fileOf (statsOf R counted) last) := by
      intro hspace
      obtain ⟨v, d, hv, hd⟩ := last_ink last hspace
      have hnil : ws = [] := by
        rcases List.eq_nil_or_concat' ws with h | ⟨ws', c, rfl⟩
        · exact h
        · have hend := congrArg List.getLast? (hline.symm.trans hv)
          rw [← List.cons_append, ← List.append_assoc, List.getLast?_concat,
            List.getLast?_concat] at hend
          obtain rfl := Option.some.inj hend
          exact absurd hd (not_isInk_of_blank (hws c (by simp)))
      rw [← Change.changedFile_statusLine, hline, hnil]
    have hall : (∀ c ∈ init ++ [last], Change.fileOf (statsOf R counted) c = c.file) ↔
        (∀ c ∈ init ++ [last], ∀ b ∈ c.path ++ c.status.oldPath, IsUsual b) ∧
          ∀ c ∈ init ++ [last], tally (listed R counted c.path) = tally [c.counts] := by
      simp only [fileOf_eq_iff]
      exact ⟨fun h => ⟨fun c hc => (h c hc).1, fun c hc => (h c hc).2⟩,
        fun h c hc => ⟨h.1 c hc, h.2 c hc⟩⟩
    constructor
    · intro h
      cases hf : changedFile (statsOf R counted) (u ++ [b]) with
      | none =>
        rw [hf] at h
        have hlen := congrArg List.length h
        simp at hlen
      | some f =>
        rw [hf, List.map_append] at h
        obtain ⟨hinit, hlast⟩ := List.append_inj' h rfl
        have hfile : f = last.file := (List.cons.inj hlast).1
        have hspace : last.path.getLast? ≠ some space := by
          have hp := changedFile_path hb hf
          rwa [hfile] at hp
        rw [hwhole hspace] at hf
        have heq : ∀ c ∈ init ++ [last], Change.fileOf (statsOf R counted) c = c.file := by
          intro c hc
          rcases List.mem_append.mp hc with hc | hc
          · exact List.map_inj_left.mp hinit c hc
          · rw [List.mem_singleton.mp hc, Option.some.inj hf, hfile]
        obtain ⟨husual, htally⟩ := hall.mp heq
        refine ⟨husual, fun c hc => ?_, htally⟩
        rw [List.getLast?_concat] at hc
        rwa [← Option.some.inj hc]
    · rintro ⟨husual, hspace, htally⟩
      have heq := hall.mpr ⟨husual, htally⟩
      rw [hwhole (hspace last (List.getLast?_concat ..)), ← List.map_inj_left.mpr heq,
        List.map_append]
      rfl

/-- The names of renamed files, as `--numstat` prints them with nothing in common. -/
def arrow : RenameText := ⟨fun old new => quotePath old ++ utf8 " => " ++ quotePath new,
  fun _ _ => .inl rfl⟩

/-- A renamed file loses its counts, a name outside ASCII stays quoted, and with names and status
alone an edited file has no counts either. -/
theorem rename_loses_counts :
    commitFiles (showOutput arrow
        [⟨utf8 "b.md", .renamed 90 (utf8 "a.md"), some (3, 1), by decide⟩,
          ⟨utf8 "é.md", .added, some (2, 0), by decide⟩]
        [⟨utf8 "b.md", .renamed 90 (utf8 "a.md"), some (3, 1), by decide⟩,
          ⟨utf8 "é.md", .added, some (2, 0), by decide⟩]) =
      [⟨utf8 "b.md", utf8 "a.md", utf8 "R090", false, 0, 0⟩,
        ⟨utf8 "\"\\303\\251.md\"", [], utf8 "A", false, 2, 0⟩] ∧
    commitFiles (showOutput arrow [] [⟨utf8 "a.md", .modified, some (3, 1), by decide⟩]) =
      [⟨utf8 "a.md", [], utf8 "M", false, 0, 0⟩] ∧
    ∀ l : Listings, ¬ ∀ (R : RenameText) (changes : List Change),
      commitFiles (showOutput R (l.counted changes) changes) = changes.map Change.file := by
  refine ⟨by decide +kernel, by decide +kernel, fun l h => ?_⟩
  have hfile := h arrow [⟨utf8 "b.md", .renamed 90 (utf8 "a.md"), some (3, 1), by decide⟩]
  cases l with
  | nameStatus => exact absurd hfile (by decide +kernel)
  | both => exact absurd hfile (by decide +kernel)

/-! ### Ordinary names -/

theorem arrow_infix (R : RenameText) (old new : Bytes) : utf8 " => " <:+: R.text old new := by
  rcases R.spec old new with h | ⟨-, pre, a, b, post, -, -, -, -, -, -, h⟩
  · rw [h]
    exact List.infix_append _ _ _
  · rw [h]
    exact ⟨pre ++ utf8 "\x7b" ++ a, b ++ utf8 "\x7d" ++ post, by simp⟩

/-- With names and status alone, only what has no changed lines gets its counts. -/
theorem tally_nameStatus_iff (R : RenameText) (changes : List Change) (c : Change) :
    tally (listed R (Listings.nameStatus.counted changes) c.path) = tally [c.counts] ↔
      c.counts = some (0, 0) := by
  rw [tally_singleton, show listed R (Listings.nameStatus.counted changes) c.path = [] from rfl]
  cases c.counts with
  | none => simp [tally]
  | some n => simp [tally, eq_comm]

/-- With both listings, among files of different names without an arrow inside, the counts of all
but the renamed ones are found. -/
theorem tally_listed_iff (R : RenameText) {changes : List Change} {c : Change} (hc : c ∈ changes)
    (hpaths : (changes.map Change.path).Nodup)
    (hnames : ∀ d ∈ changes, (∀ b ∈ d.path, IsUsual b) ∧ ¬ utf8 " => " <:+: d.path) :
    tally (listed R (Listings.both.counted changes) c.path) = tally [c.counts] ↔
      (∀ score old, c.status = .renamed score old → c.counts = some (0, 0)) := by
  rw [Listings.counted]
  have htext : ∀ d ∈ changes, d.numstatText R = c.path ↔
      d = c ∧ ∀ score old, c.status ≠ .renamed score old := by
    intro d hd
    have hplain : d.numstatText R = quotePath d.path → (d.numstatText R = c.path ↔ d = c) := by
      intro ht
      rw [ht, (quotePath_eq_iff d.path).mpr (hnames d hd).1]
      exact ⟨fun he => List.inj_on_of_nodup_map hpaths hd hc he, fun he => congrArg _ he⟩
    cases hs : d.status with
    | renamed score old =>
      have ht : d.numstatText R = R.text old d.path := by rw [Change.numstatText, hs]
      refine iff_of_false (fun he => (hnames c hc).2 ?_) ?_
      · rw [← he, ht]
        exact arrow_infix R old d.path
      · rintro ⟨rfl, hno⟩
        exact hno score old hs
    | _ =>
      rw [hplain (by rw [Change.numstatText, hs])]
      refine (and_iff_left_of_imp ?_).symm
      rintro rfl score old
      rw [hs]
      exact Status.noConfusion
  by_cases hr : ∃ score old, c.status = .renamed score old
  · obtain ⟨score, old, hs⟩ := hr
    have hnone : listed R changes c.path = [] := by
      rw [listed, List.filter_eq_nil_iff.mpr, List.map_nil]
      intro d hd ht
      exact ((htext d hd).mp (by simpa using ht)).2 score old hs
    have hall : (∀ score old, c.status = .renamed score old → c.counts = some (0, 0)) ↔
        c.counts = some (0, 0) := ⟨fun h => h score old hs, fun h _ _ _ => h⟩
    rw [hnone, hall]
    exact tally_nameStatus_iff R changes c
  · have hno : ∀ score old, c.status ≠ .renamed score old := fun score old hs => hr ⟨score, old, hs⟩
    have hone : listed R changes c.path = [c.counts] := by
      have hfilter : changes.filter (fun d => d.numstatText R = c.path) =
          changes.filter (fun d => d = c) := by
        refine List.filter_congr fun d hd => ?_
        simp [htext d hd, hno]
      rw [listed, hfilter, List.filter_eq, List.count_eq_one_of_mem (.of_map _ hpaths) hc]
      rfl
    exact iff_of_true (by rw [hone]) fun score old hs => absurd hs (hno score old)

end Mdock.Git.Files
