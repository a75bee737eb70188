import Mdock.Git.Files

/-! `Log` and the head of `CommitDetails`: commits as git prints them, four fields to a line, and
as they are read back. -/
namespace Mdock.Git.History
open Mdock.Go

/-- `\x1f`, between the fields of a line. -/
def unitSeparator : UInt8 := 0x1F

structure CommitInfo where
  hash : Bytes
  subject : Bytes
  author : Bytes
  createdAt : Bytes
  deriving DecidableEq

/-- `strings.SplitN(s, c, n + 1)`. -/
def splitN (c : UInt8) : Nat → Bytes → List Bytes
  | 0, s => [s]
  | n + 1, s =>
    match cut c s with
    | (a, none) => [a]
    | (a, some rest) => a :: splitN c n rest

def readCommit (line : Bytes) : Option CommitInfo :=
  match splitN unitSeparator 3 line with
  | [hash, author, createdAt, subject] => some ⟨hash, subject, author, createdAt⟩
  | _ => none

inductive LogErr
  | git (text : Bytes)
  | parse (line : Bytes)
  deriving DecidableEq

/-- The loop over the lines. -/
def readLines : List Bytes → Except LogErr (List CommitInfo)
  | [] => .ok []
  | line :: lines =>
    if trimSpace line = [] then readLines lines
    else
      match readCommit line with
      | none => .error (.parse line)
      | some commit => (readLines lines).map (commit :: ·)

/-- What git says of a repository without commits. -/
def noCommits (text : Bytes) : Bool :=
  [utf8 "does not have any commits yet", utf8 "your current branch",
    utf8 "не содержит ни одного коммита"].any fun sub => (from? sub text).isSome

def clamp (limit : Int) : Nat := if limit ≤ 0 then 10 else if limit > 100 then 100 else limit.toNat

/-- `git` runs `git log` with the limit it is given. -/
def log (git : Nat → Except Bytes Bytes) (limit : Int) : Except LogErr (List CommitInfo) :=
  match git (clamp limit) with
  | .error text => if noCommits text then .ok [] else .error (.git text)
  | .ok out => readLines ((trimSpace out).splitOn newline)

/-- The head of `CommitDetails`, of what `git show` prints. -/
def readShow (out : Bytes) : Option CommitInfo := readCommit (trimSpace out)

/-! ### What git prints -/

/-- A commit as git keeps it: the hash is hexadecimal, the date has no blanks, and neither the
author nor the subject has a line end. -/
structure Commit where
  info : CommitInfo
  hash : info.hash ≠ [] ∧ ∀ b ∈ info.hash, 0x30 ≤ b ∧ b ≤ 0x66
  createdAt : ∀ b ∈ info.createdAt, 0x21 ≤ b ∧ b ≤ 0x7E
  author : newline ∉ info.author
  subject : newline ∉ info.subject

namespace Commit

/-- A line, up to the subject. -/
def head (c : Commit) : Bytes :=
  c.info.hash ++ unitSeparator :: (c.info.author ++ unitSeparator :: c.info.createdAt)

/-- `%H%x1f%an%x1f%aI%x1f%s`. -/
def line (c : Commit) : Bytes := c.head ++ unitSeparator :: c.info.subject

end Commit

/-- `--pretty=format:`, which puts line ends between the commits. -/
def logOutput (commits : List Commit) : Bytes := [newline].intercalate (commits.map Commit.line)

def showOutput (c : Commit) : Bytes := c.line ++ [newline]

/-- `syncCommitMessage`, of the sources without repetitions. -/
def syncCommitMessage (sources : List Bytes) (files : Nat) : Bytes :=
  let source := match sources with
    | [source] => source
    | _ => utf8 "mixed"
  let source := if trimSpace source = [] then utf8 "unknown" else source
  utf8 "sync(" ++ source ++ utf8 "): update " ++ Files.sprint files ++ utf8 " " ++
    if files = 1 then utf8 "file" else utf8 "files"

def recoveryMessage : Bytes := utf8 "recovery: uncommitted changes on startup"

/-- A commit that the server has made. -/
def Commit.IsOwn (c : Commit) : Prop :=
  c.info.author = utf8 "mdock" ∧ (c.info.subject = recoveryMessage ∨
    ∃ sources files, c.info.subject = syncCommitMessage sources files)

/-! ### A line is read -/

theorem splitN_cut {c : UInt8} {a : Bytes} (h : c ∉ a) (n : Nat) (s : Bytes) :
    splitN c (n + 1) (a ++ c :: s) = a :: splitN c n s := by
  rw [splitN, cut_append h]

/-- The parts but for the last have no separator. -/
theorem mem_splitN {c : UInt8} {n : Nat} {s a : Bytes} {parts : List Bytes}
    (h : splitN c (n + 1) s = a :: parts) : c ∉ a := by
  have hcut := (cut_spec c s).1
  rw [splitN] at h
  split at h <;>
  · rename_i he
    rw [he] at hcut
    rwa [← (List.cons.inj h).1]

section Line
variable (c : Commit)

theorem separator_not_mem_hash : unitSeparator ∉ c.info.hash := fun h =>
  absurd (c.hash.2 _ h).1 (by decide)

theorem separator_not_mem_createdAt : unitSeparator ∉ c.info.createdAt := fun h =>
  absurd (c.createdAt _ h).1 (by decide)

/-- Without separators in the author, the rest of the line is the subject. -/
theorem readCommit_head (h : unitSeparator ∉ c.info.author) (s : Bytes) :
    readCommit (c.head ++ unitSeparator :: s) = some { c.info with subject := s } := by
  have hsplit : splitN unitSeparator 3 (c.head ++ unitSeparator :: s) =
      [c.info.hash, c.info.author, c.info.createdAt, s] := by
    rw [Commit.head, List.append_assoc, List.cons_append, List.append_assoc, List.cons_append,
      splitN_cut (separator_not_mem_hash c), splitN_cut h,
      splitN_cut (separator_not_mem_createdAt c), splitN]
  rw [readCommit, hsplit]

/-- What is read of an author has no separator. -/
theorem readCommit_author {line : Bytes} {i : CommitInfo} (h : readCommit line = some i) :
    unitSeparator ∉ i.author := by
  rw [readCommit] at h
  split at h
  · rename_i hash author createdAt subject hs
    cases h
    rw [splitN] at hs
    split at hs
    · simp at hs
    · exact mem_splitN (List.cons.inj hs).2
  · cases h

theorem readCommit_iff (s : Bytes) {subject : Bytes} :
    readCommit (c.head ++ unitSeparator :: s) = some { c.info with subject := subject } ↔
      unitSeparator ∉ c.info.author ∧ s = subject := by
  constructor
  · intro h
    have ha := readCommit_author h
    rw [readCommit_head c ha, Option.some.injEq, CommitInfo.mk.injEq] at h
    exact ⟨ha, h.2.1⟩
  · rintro ⟨h, rfl⟩
    exact readCommit_head c h s

end Line

/-! ### The output is trimmed -/

theorem dropRunes_length_le (rs : List Bytes) (fuel : Nat) (s : Bytes) :
    (dropRunes rs fuel s).length ≤ s.length := by
  induction fuel generalizing s with
  | zero => exact le_rfl
  | succ fuel ih =>
    rw [dropRunes]
    split
    · exact le_rfl
    · exact (ih _).trans (by simp)

theorem dropRunes_eq_iff {rs : List Bytes} (hne : ∀ r ∈ rs, r ≠ []) (s : Bytes) :
    dropRunes rs s.length s = s ↔ ∀ r ∈ rs, ¬ r <+: s := by
  refine ⟨fun h r hr hp => ?_, fun h => dropRunes_of_not h _⟩
  have hlen : 1 ≤ r.length := List.length_pos_iff.mpr (hne r hr)
  obtain ⟨n, hn⟩ := Nat.exists_eq_add_one_of_ne_zero (show s.length ≠ 0 by
    have := hp.length_le
    omega)
  rw [hn, dropRunes] at h
  split at h
  · rename_i hnone
    exact absurd (List.isPrefixOf_iff_prefix.mpr hp) (List.find?_eq_none.mp hnone r hr)
  · rename_i u hu
    have hle := dropRunes_length_le rs n (s.drop u.length)
    have hpos : 1 ≤ u.length := List.length_pos_iff.mpr (hne u (List.mem_of_find?_eq_some hu))
    rw [h, List.length_drop] at hle
    omega

theorem trimSpace_eq_iff {s : Bytes} (hl : ∀ r ∈ spaceRunes, ¬ r <+: s) :
    trimSpace s = s ↔ ∀ r ∈ spaceRunes, ¬ r <:+ s := by
  have hne : ∀ r ∈ spaceRunes.map List.reverse, r ≠ [] := by
    intro r hr
    obtain ⟨u, hu, rfl⟩ := List.mem_map.mp hr
    exact fun h => (spaceRunes_spec u hu).1 (List.reverse_eq_nil_iff.mp h)
  have hlen : s.length = s.reverse.length := List.length_reverse.symm
  rw [trimSpace_eq hl, ← List.reverse_inj, List.reverse_reverse, hlen, dropRunes_eq_iff hne,
    List.forall_mem_map]
  exact forall₂_congr fun r _ => not_congr List.reverse_prefix

/-- A run of blanks at the end lies behind the last ink. -/
theorem suffix_of_ink {b : UInt8} (hb : IsInk b) {x s r : Bytes} (hr : r ∈ spaceRunes) :
    r <:+ x ++ b :: s ↔ r <:+ s := by
  constructor
  · intro h
    have hs : s <:+ x ++ b :: s := ⟨x ++ [b], by simp⟩
    rcases List.suffix_or_suffix_of_suffix h hs with h' | h'
    · exact h'
    · obtain ⟨y, rfl⟩ := h'
      rcases List.eq_nil_or_concat y with rfl | ⟨y, e, rfl⟩
      · exact List.suffix_rfl
      · obtain ⟨z, hz⟩ := h
        have he : (z ++ y) ++ [e] ++ s = x ++ [b] ++ s := by
          simpa using hz
        have hlast := List.append_cancel_right he
        obtain rfl : e = b := by
          have := congrArg List.getLast? hlast
          simpa using this
        exact absurd (by simp) (hb _ hr)
  · exact fun h => h.trans ⟨x ++ [b], by simp⟩

theorem ink_separator : IsInk unitSeparator := by unfold IsInk; decide

theorem ink_hash {b : UInt8} (h : 0x30 ≤ b ∧ b ≤ 0x66) : IsInk b := by
  have hall : (spaceRunes.all fun r => r.all fun b => decide (b < 0x30 ∨ 0x66 < b)) = true := by
    decide
  intro r hr hm
  have hout := List.all_eq_true.mp (List.all_eq_true.mp hall r hr) b hm
  rcases of_decide_eq_true hout with hlt | hlt
  · exact absurd h.1 (not_le.mpr hlt)
  · exact absurd h.2 (not_le.mpr hlt)

theorem head_cons (c : Commit) : ∃ a m, c.head = a :: m ∧ IsInk a := by
  obtain ⟨a, m, hm⟩ := List.exists_cons_of_ne_nil c.hash.1
  refine ⟨a, m ++ unitSeparator :: (c.info.author ++ unitSeparator :: c.info.createdAt), ?_,
    ink_hash (c.hash.2 a (by rw [hm]; simp))⟩
  rw [Commit.head, hm, List.cons_append]

theorem line_ink (c : Commit) : ∃ a s, c.line = a :: s ∧ IsInk a := by
  obtain ⟨a, m, hm, ha⟩ := head_cons c
  exact ⟨a, m ++ unitSeparator :: c.info.subject, by rw [Commit.line, hm, List.cons_append], ha⟩

theorem newline_not_mem_head (c : Commit) : newline ∉ c.head := by
  intro h
  rcases List.mem_append.mp h with h | h
  · exact absurd (c.hash.2 _ h).1 (by decide)
  · rcases List.mem_cons.mp h with h | h
    · exact absurd h (by decide)
    · rcases List.mem_append.mp h with h | h
      · exact c.author h
      · rcases List.mem_cons.mp h with h | h
        · exact absurd h (by decide)
        · exact absurd (c.createdAt _ h).1 (by decide)

/-- Lines and a last one: what is trimmed is blank, and stands behind the last subject. -/
theorem trimSpace_last (lines : List Bytes) (h : ∀ l ∈ lines, ∃ a s, l = a :: s ∧ IsInk a)
    (c : Commit) : ∃ subject, subject <+: c.info.subject ∧
      trimSpace (unlines lines ++ c.line) = unlines lines ++ (c.head ++ unitSeparator :: subject) ∧
      (subject = c.info.subject ↔ ∀ r ∈ spaceRunes, ¬ r <:+ c.info.subject) := by
  obtain ⟨a, m, hm, ha⟩ := Files.unlines_ink h (t := c.head) (head_cons c)
  have hall : ∀ s, unlines lines ++ (c.head ++ unitSeparator :: s) =
      a :: (m ++ unitSeparator :: s) := by
    intro s
    rw [← List.append_assoc, hm, List.cons_append]
  obtain ⟨subject, hsub, htrim⟩ := trimSpace_ink (m := m) (t := c.info.subject) ha ink_separator
  refine ⟨subject, hsub, by rw [Commit.line, hall, hall, htrim], ?_⟩
  have hiff := trimSpace_eq_iff (s := a :: (m ++ unitSeparator :: c.info.subject))
    (ha.not_space_rune _)
  rw [htrim] at hiff
  constructor
  · intro he r hr hs
    refine hiff.mp (by rw [he]) r hr ?_
    rw [← List.cons_append]
    exact (suffix_of_ink ink_separator hr).mpr hs
  · intro hs
    have he := hiff.mpr fun r hr hsuf => hs r hr
      ((suffix_of_ink ink_separator hr).mp (by rwa [← List.cons_append] at hsuf))
    exact (List.cons.inj (List.append_cancel_left (List.cons.inj he).2)).2

/-- The line end that git puts behind a commit. -/
theorem trimSpace_newline {s : Bytes} (hs : ∃ a m, s = a :: m ∧ IsInk a) :
    trimSpace (s ++ [newline]) = trimSpace s := by
  obtain ⟨a, m, rfl, ha⟩ := hs
  have hfind : (spaceRunes.map List.reverse).find? (fun r => r.isPrefixOf
      (newline :: (a :: m).reverse)) = some [newline] := by
    cases hf : (spaceRunes.map List.reverse).find? fun r => r.isPrefixOf
        (newline :: (a :: m).reverse) with
    | none =>
      have hmem := (rune_of_blank (.inr (.inr rfl)) (r := [0x09]) (by decide)).2.1
      exact absurd (List.find?_eq_none.mp hf _ hmem) (by simp [List.isPrefixOf])
    | some r =>
      have hp := List.isPrefixOf_iff_prefix.mp (by simpa only using List.find?_some hf)
      have hr := rune_of_blank (.inr (.inr rfl)) (List.mem_of_find?_eq_some hf)
      cases r with
      | nil => exact absurd rfl hr.1
      | cons d r =>
        obtain rfl := (List.cons_prefix_cons.mp hp).1
        rw [hr.2.2 (by simp)]
  rw [List.cons_append, trimSpace_eq (ha.not_space_rune _), trimSpace_eq (ha.not_space_rune _),
    ← List.cons_append, List.reverse_append, List.reverse_singleton, List.singleton_append,
    List.length_append, List.length_singleton, dropRunes, hfind]
  rfl

/-! ### The history is read -/

/-- The lines are read one by one. -/
theorem readLines_eq_ok {lines : List Bytes} {commits : List CommitInfo}
    (h : ∀ l ∈ lines, ∃ a s, l = a :: s ∧ IsInk a) : readLines lines = .ok commits ↔
      List.Forall₂ (fun l i => readCommit l = some i) lines commits := by
  induction lines generalizing commits with
  | nil =>
    rw [readLines, List.forall₂_nil_left_iff]
    exact ⟨fun he => (Except.ok.inj he).symm, fun he => by rw [he]⟩
  | cons l lines ih =>
    have ih' : ∀ {commits}, readLines lines = .ok commits ↔
        List.Forall₂ (fun l i => readCommit l = some i) lines commits :=
      ih fun l hl => h l (List.mem_cons_of_mem _ hl)
    obtain ⟨a, s, rfl, ha⟩ := h l List.mem_cons_self
    rw [readLines, if_neg (Files.trimSpace_ne_nil ha s), List.forall₂_cons_left_iff]
    cases hread : readCommit (a :: s) with
    | none => simp
    | some i =>
      constructor
      · intro he
        cases hrest : readLines lines with
        | error e =>
          rw [hrest] at he
          cases he
        | ok rest =>
          rw [hrest] at he
          cases he
          exact ⟨i, rest, rfl, ih'.mp hrest, rfl⟩
      · rintro ⟨i', rest, hi, hrest, rfl⟩
        cases hi
        rw [ih'.mpr hrest]
        rfl

theorem forall₂_concat {α β γ : Type} {R : α → β → Prop} {f : γ → α} {g : γ → β} {l : List γ}
    {x : α} {y : β} : List.Forall₂ R (l.map f ++ [x]) (l.map g ++ [y]) ↔
      (∀ c ∈ l, R (f c) (g c)) ∧ R x y := by
  induction l with
  | nil => simp
  | cons c l ih => simp [ih, and_assoc]

/-- What is read is what git has printed exactly when no author has a separator, and the subject
of the oldest commit does not end in white space. -/
theorem readLines_logOutput (commits : List Commit) :
    readLines ((trimSpace (logOutput commits)).splitOn newline) =
        .ok (commits.map Commit.info) ↔
      (∀ c ∈ commits, unitSeparator ∉ c.info.author) ∧
        ∀ c, commits.getLast? = some c → ∀ r ∈ spaceRunes, ¬ r <:+ c.info.subject := by
  rcases List.eq_nil_or_concat commits with rfl | ⟨init, last, rfl⟩
  · exact iff_of_true (by decide) ⟨fun c hc => (by cases hc), fun c hc => (by cases hc)⟩
  have hinks : ∀ l ∈ init.map Commit.line, ∃ a s, l = a :: s ∧ IsInk a := by
    intro l hl
    obtain ⟨c, -, rfl⟩ := List.mem_map.mp hl
    exact line_ink c
  have hout : ∀ (ls : List Bytes) (t : Bytes), [newline].intercalate (ls ++ [t]) =
      unlines ls ++ t := by
    intro ls t
    induction ls with
    | nil => simp [unlines, List.intercalate]
    | cons l ls ih =>
      rw [List.cons_append, List.intercalate_cons_of_ne_nil (by simp), ih, unlines_cons]
      simp
  obtain ⟨subject, hprefix, htrim, hsubject⟩ :=
    trimSpace_last (init.map Commit.line) hinks last
  have hno : ∀ (c : Commit) {s : Bytes}, s <+: c.info.subject →
      newline ∉ c.head ++ unitSeparator :: s := by
    intro c s hs h
    rcases List.mem_append.mp h with h | h
    · exact newline_not_mem_head c h
    · rcases List.mem_cons.mp h with h | h
      · exact absurd h (by decide)
      · exact c.subject (hs.subset h)
  have hlines : ∀ l ∈ init.map Commit.line, newline ∉ l := by
    intro l hl
    obtain ⟨c, -, rfl⟩ := List.mem_map.mp hl
    exact hno c List.prefix_rfl
  have hall : ∀ l ∈ init.map Commit.line ++ [last.head ++ unitSeparator :: subject],
      ∃ a s, l = a :: s ∧ IsInk a := by
    intro l hl
    rcases List.mem_append.mp hl with hl | hl
    · exact hinks l hl
    · obtain ⟨a, m, hm, ha⟩ := head_cons last
      exact ⟨a, m ++ unitSeparator :: subject, by rw [List.mem_singleton.mp hl, hm]; rfl, ha⟩
  rw [logOutput, List.concat_eq_append, List.map_append, List.map_singleton, hout, htrim,
    splitOn_unlines hlines (hno last hprefix), readLines_eq_ok hall, List.map_append,
    List.map_singleton, forall₂_concat, readCommit_iff last subject, hsubject]
  have hread : ∀ c : Commit, readCommit c.line = some c.info ↔ unitSeparator ∉ c.info.author :=
    fun c => (readCommit_iff c c.info.subject).trans (and_iff_left rfl)
  simp only [hread, List.forall_mem_append, List.forall_mem_singleton, List.getLast?_concat,
    Option.some.injEq, forall_eq', and_assoc]

/-- The history is what git keeps of the newest commits, as many as are asked for but no more
than a hundred, exactly when no author has a separator and the oldest subject shown does not
end in white space. -/
theorem log_exact_iff (history : List Commit) (limit : Int) :
    log (fun n => .ok (logOutput (history.take n))) limit =
        .ok ((history.take (clamp limit)).map Commit.info) ↔
      (∀ c ∈ history.take (clamp limit), unitSeparator ∉ c.info.author) ∧
        ∀ c, (history.take (clamp limit)).getLast? = some c →
          ∀ r ∈ spaceRunes, ¬ r <:+ c.info.subject :=
  readLines_logOutput (history.take (clamp limit))

theorem Commit.IsOwn.exact {c : Commit} (h : c.IsOwn) :
    unitSeparator ∉ c.info.author ∧ ∀ r ∈ spaceRunes, ¬ r <:+ c.info.subject := by
  obtain ⟨ha, hs⟩ := h
  refine ⟨by rw [ha]; decide, ?_⟩
  have hend : ∀ (text : Bytes) (b : UInt8), IsInk b → ∀ r ∈ spaceRunes, ¬ r <:+ text ++ [b] :=
    fun text b hb => hb.not_suffix text
  rcases hs with hs | ⟨sources, files, hs⟩
  · rw [hs]
    exact hend (utf8 "recovery: uncommitted changes on startu") 0x70 (by unfold IsInk; decide)
  · rw [hs]
    unfold syncCommitMessage
    simp only
    by_cases hone : files = 1
    · rw [if_pos hone, show utf8 "file" = utf8 "fil" ++ [0x65] by decide, ← List.append_assoc]
      exact hend _ 0x65 (by unfold IsInk; decide)
    · rw [if_neg hone, show utf8 "files" = utf8 "file" ++ [0x73] by decide, ← List.append_assoc]
      exact hend _ 0x73 (by unfold IsInk; decide)

/-- The server's own commits are always shown as they are. -/
theorem log_own {history : List Commit} (h : ∀ c ∈ history, c.IsOwn) (limit : Int) :
    log (fun n => .ok (logOutput (history.take n))) limit =
      .ok ((history.take (clamp limit)).map Commit.info) := by
  refine (readLines_logOutput _).mpr ⟨fun c hc => (h c (List.mem_of_mem_take hc)).exact.1, ?_⟩
  exact fun c hc => (h c (List.mem_of_mem_take (List.mem_of_mem_getLast? hc))).exact.2

/-- So it is for a single commit. -/
theorem readShow_exact_iff (c : Commit) : readShow (showOutput c) = some c.info ↔
    unitSeparator ∉ c.info.author ∧ ∀ r ∈ spaceRunes, ¬ r <:+ c.info.subject := by
  obtain ⟨subject, -, htrim, hsubject⟩ := trimSpace_last [] (fun l hl => by cases hl) c
  simp only [unlines, List.flatMap_nil, List.nil_append] at htrim
  rw [readShow, showOutput, trimSpace_newline (line_ink c), htrim, ← hsubject]
  exact readCommit_iff c subject

end Mdock.Git.History
