import Mdock.Editor.Headings

/-! Renamed headings: a heading is taken for the one that stands at its place after an edit. -/
namespace Mdock.Editor.Headings
open Mdock.Js Mdock.Lib Mdock.Editor.Commands Mdock.Editor.Blocks

structure HeadingChange where
  oldSlug : Text
  newSlug : Text
  oldText : Text
  newText : Text
  deriving DecidableEq

structure HeadingChangeResult where
  changes : List HeadingChange
  currentHeadings : List HeadingInfo

def generateHeadingSlug (heading : HeadingInfo) : Text := heading.slug

def rangesOverlap (aFrom aTo bFrom bTo : Nat) : Bool := aFrom < bTo && bFrom < aTo

/-- The body of the loop of `detectHeadingChanges`. -/
def changeOf (newHeadings : List HeadingInfo) (oldHeading : HeadingInfo) : Option HeadingChange :=
  match newHeadings.find? fun nh =>
      rangesOverlap oldHeading.start oldHeading.stop nh.start nh.stop with
  | some matchingNew =>
    let oldSlug := generateHeadingSlug oldHeading
    let newSlug := generateHeadingSlug matchingNew
    if oldSlug ≠ newSlug then some ⟨oldSlug, newSlug, oldHeading.text, matchingNew.text⟩ else none
  | none => none

/-- `oldRandom` and `newRandom` give what `Math.random` gives for the blocks of each document. -/
def detectHeadingChanges (u : Unicode) (oldRandom newRandom : Nat → Text)
    (oldContent newContent : Text) : HeadingChangeResult :=
  let oldHeadings := extractHeadings u oldRandom oldContent
  let newHeadings := extractHeadings u newRandom newContent
  ⟨oldHeadings.filterMap (changeOf newHeadings), newHeadings⟩

/-! ### Where headings stand -/

variable {u : Unicode} {random : Nat → Text} {content : Text} {slugCounts : Text → Nat}
  {blocks : List SplitBlock} {newHeadings : List HeadingInfo} {h h' : HeadingInfo}

/-- Headings come one after the other. -/
structure InOrder (headings : List HeadingInfo) : Prop where
  pairwise : headings.Pairwise fun a b => a.stop ≤ b.start
  start_lt : ∀ h ∈ headings, h.start < h.stop

theorem exists_block (hmem : h ∈ headingsFrom u slugCounts blocks) :
    ∃ b ∈ blocks, h.start = b.start ∧ h.stop = b.stop := by
  induction blocks generalizing slugCounts with
  | nil => simp [headingsFrom] at hmem
  | cons b blocks ih =>
    have hrest : ∀ counts, h ∈ headingsFrom u counts blocks →
        ∃ b' ∈ b :: blocks, h.start = b'.start ∧ h.stop = b'.stop := fun _ hh => by
      obtain ⟨b', hb', heq⟩ := ih hh
      exact ⟨b', List.mem_cons_of_mem b hb', heq⟩
    rw [headingsFrom] at hmem
    split at hmem
    · exact hrest _ hmem
    · rcases List.mem_cons.mp hmem with rfl | hmem
      · exact ⟨b, List.mem_cons_self, rfl, rfl⟩
      · exact hrest _ hmem

theorem pairwise_headingsFrom (hblocks : blocks.Pairwise fun a b => a.stop ≤ b.start) :
    (headingsFrom u slugCounts blocks).Pairwise fun a b => a.stop ≤ b.start := by
  induction blocks generalizing slugCounts with
  | nil => exact List.Pairwise.nil
  | cons b blocks ih =>
    obtain ⟨hb, hrest⟩ := List.pairwise_cons.mp hblocks
    rw [headingsFrom]
    split
    · exact ih hrest
    · refine List.pairwise_cons.mpr ⟨fun h hmem => ?_, ih hrest⟩
      obtain ⟨b', hb', hstart, -⟩ := exists_block hmem
      exact (hb b' hb').trans hstart.ge

theorem inOrder_extractHeadings (u : Unicode) (random : Nat → Text) (content : Text) :
    InOrder (extractHeadings u random content) where
  pairwise := pairwise_headingsFrom (tiles_splitBlocks random content).pairwise
  start_lt h hmem := by
    obtain ⟨b, hb, hstart, hstop⟩ := exists_block hmem
    obtain ⟨hlt, hle, -⟩ := (tiles_splitBlocks random content).of_mem hb
    omega

/-- The first heading that overlaps a stretch is the first one that ends behind its beginning, if
that begins in it. -/
theorem find_overlap (hin : InOrder newHeadings) (start stop : Nat) :
    (newHeadings.find? fun nh => rangesOverlap start stop nh.start nh.stop) =
      (newHeadings.find? fun nh => start < nh.stop).filter fun nh => nh.start < stop := by
  obtain ⟨hpairwise, hlt⟩ := hin
  induction newHeadings with
  | nil => rfl
  | cons n newHeadings ih =>
    obtain ⟨hn, hrest⟩ := List.pairwise_cons.mp hpairwise
    have hrec := ih hrest fun m hm => hlt m (List.mem_cons_of_mem n hm)
    have hoverlap : rangesOverlap start stop n.start n.stop =
        (decide (start < n.stop) && decide (n.start < stop)) := rfl
    rw [List.find?_cons, List.find?_cons, hoverlap]
    by_cases hend : start < n.stop
    · by_cases hbegin : n.start < stop
      · simp [hend, hbegin, Option.filter]
      · have hnone : newHeadings.find? (fun nh => rangesOverlap start stop nh.start nh.stop) =
            none := List.find?_eq_none.mpr fun m hm => by
          have hnm := hn m hm
          have hpos := hlt n List.mem_cons_self
          simp only [rangesOverlap, Bool.and_eq_true, decide_eq_true_iff, not_and]
          omega
        rw [hnone]
        simp [hend, hbegin, Option.filter]
    · simp only [hend, decide_false, Bool.false_and]
      exact hrec

/-! ### What is reported -/

/-- The first new heading that ends behind the beginning of an old one begins behind its end, or has
its slug. -/
def Stays (newHeadings : List HeadingInfo) (h : HeadingInfo) : Prop :=
  ∀ n, (newHeadings.find? fun nh => h.start < nh.stop) = some n → n.start < h.stop → n.slug = h.slug

theorem changeOf_eq_none_iff (hin : InOrder newHeadings) :
    changeOf newHeadings h = none ↔ Stays newHeadings h := by
  rw [changeOf, find_overlap hin, Stays]
  cases newHeadings.find? fun nh => h.start < nh.stop with
  | none => simp
  | some n =>
    have hcomm : n.slug = h.slug ↔ h.slug = n.slug := eq_comm
    by_cases hbegin : n.start < h.stop <;> by_cases hslug : h.slug = n.slug <;>
      simp [hbegin, hslug, hcomm, generateHeadingSlug, Option.filter]

theorem slug_ne_of_changeOf {c : HeadingChange} (hc : changeOf newHeadings h = some c) :
    c.oldSlug ≠ c.newSlug := by
  rw [changeOf] at hc
  split at hc
  · simp only at hc
    split_ifs at hc with hne
    obtain rfl := Option.some.inj hc
    exact hne
  · simp at hc

/-- A heading at the same place is the one that is taken. -/
theorem changeOf_at (hin : InOrder newHeadings) (hmem : h' ∈ newHeadings) (hlt : h.start < h.stop)
    (hstart : h'.start = h.start) : changeOf newHeadings h =
      if h.slug ≠ h'.slug then some ⟨h.slug, h'.slug, h.text, h'.text⟩ else none := by
  have hfind : (newHeadings.find? fun nh => h.start < nh.stop) = some h' := by
    obtain ⟨before, behind, rfl⟩ := List.append_of_mem hmem
    have hbefore : ∀ n ∈ before, ¬ h.start < n.stop := fun n hn => by
      have := (List.pairwise_append.mp hin.pairwise).2.2 n hn h' List.mem_cons_self
      omega
    have hpos := hin.start_lt h' hmem
    rw [List.find?_append, List.find?_eq_none.mpr (by simpa using hbefore),
      List.find?_cons_of_pos (by simp; omega)]
    rfl
  rw [changeOf, find_overlap hin, hfind]
  by_cases hslug : h.slug = h'.slug <;>
    simp [Option.filter, hstart, hlt, hslug, generateHeadingSlug]

/-- A document before and after the title of a heading line is edited. -/
structure TitleEdit where
  before : Text
  opening : Text
  oldTitle : Text
  newTitle : Text
  behind : Text
  begins : before = [] ∨ before.getLast? = some newline
  opens : (lead.seq (.seq (.run (· = unit '#') 1 (some 6) true) (.plus isSpace))).Matches opening
  line : newline ∉ opening ++ oldTitle ++ newTitle
  ends : ∀ c ∈ behind.head?, c = newline

def TitleEdit.oldContent (e : TitleEdit) : Text := e.before ++ e.opening ++ e.oldTitle ++ e.behind

def TitleEdit.newContent (e : TitleEdit) : Text := e.before ++ e.opening ++ e.newTitle ++ e.behind

theorem changes_eq_nil_iff (u : Unicode) (oldRandom newRandom : Nat → Text)
    (oldContent newContent : Text) :
    (detectHeadingChanges u oldRandom newRandom oldContent newContent).changes = [] ↔
      ∀ h ∈ extractHeadings u oldRandom oldContent,
        Stays (extractHeadings u newRandom newContent) h := by
  rw [detectHeadingChanges, List.filterMap_eq_nil_iff]
  exact forall₂_congr fun _ _ => changeOf_eq_none_iff (inOrder_extractHeadings _ _ _)

/-- One heading is reported if all others stay. -/
theorem filterMap_changeOf_iff {oldHeadings : List HeadingInfo} (hold : InOrder oldHeadings)
    (hnew : InOrder newHeadings) (hmem : h ∈ oldHeadings) (hmem' : h' ∈ newHeadings)
    (hstart : h'.start = h.start) :
    oldHeadings.filterMap (changeOf newHeadings) = [⟨h.slug, h'.slug, h.text, h'.text⟩] ↔
      h.slug ≠ h'.slug ∧ ∀ o ∈ oldHeadings, o.start ≠ h.start → Stays newHeadings o := by
  have hat := changeOf_at hnew hmem' (hold.start_lt h hmem) hstart
  by_cases hslug : h.slug = h'.slug
  · refine iff_of_false (fun heq => ?_) fun hand => hand.1 hslug
    obtain ⟨o, -, ho⟩ := List.mem_filterMap.mp (heq ▸ List.mem_cons_self)
    exact slug_ne_of_changeOf ho hslug
  · obtain ⟨before, behind, rfl⟩ := List.append_of_mem hmem
    rw [if_pos hslug] at hat
    obtain ⟨-, hbehind, hbefore⟩ := List.pairwise_append.mp hold.pairwise
    have hne : ∀ o, o ∈ before ∨ o ∈ behind → o.start ≠ h.start := by
      rintro o (ho | ho)
      · have hstop := hbefore o ho h List.mem_cons_self
        have hpos := hold.start_lt o (List.mem_append_left _ ho)
        omega
      · have hstop := (List.pairwise_cons.mp hbehind).1 o ho
        have hpos := hold.start_lt h hmem
        omega
    have hlist : ∀ (l r : List HeadingChange) x, l ++ x :: r = [x] ↔ l = [] ∧ r = [] := by
      intro l r x
      cases l <;> simp
    rw [List.filterMap_append, List.filterMap_cons_some hat, hlist, List.filterMap_eq_nil_iff,
      List.filterMap_eq_nil_iff]
    simp only [changeOf_eq_none_iff hnew]
    constructor
    · rintro ⟨hl, hr⟩
      refine ⟨hslug, fun o ho hother => ?_⟩
      rcases List.mem_append.mp ho with ho | ho
      · exact hl o ho
      · rcases List.mem_cons.mp ho with rfl | ho
        · exact absurd rfl hother
        · exact hr o ho
    · rintro ⟨-, hall⟩
      exact ⟨fun o ho => hall o (List.mem_append_left _ ho) (hne o (.inl ho)), fun o ho =>
        hall o (List.mem_append_right _ (List.mem_cons_of_mem h ho)) (hne o (.inr ho))⟩

/-- Nothing is reported if every heading stays, and an edited title alone if all the others stay. -/
theorem headingChanges_iff (u : Unicode) (oldRandom newRandom : Nat → Text) :
    (∀ oldContent newContent,
      (detectHeadingChanges u oldRandom newRandom oldContent newContent).changes = [] ↔
        ∀ h ∈ extractHeadings u oldRandom oldContent,
          Stays (extractHeadings u newRandom newContent) h) ∧
    ∀ e : TitleEdit, ∀ h ∈ extractHeadings u oldRandom e.oldContent,
      ∀ h' ∈ extractHeadings u newRandom e.newContent,
      h.start = e.before.length → h'.start = e.before.length →
        ((detectHeadingChanges u oldRandom newRandom e.oldContent e.newContent).changes =
          [⟨h.slug, h'.slug, h.text, h'.text⟩] ↔
            h.slug ≠ h'.slug ∧ ∀ o ∈ extractHeadings u oldRandom e.oldContent,
              o.start ≠ e.before.length → Stays (extractHeadings u newRandom e.newContent) o) := by
  refine ⟨changes_eq_nil_iff u oldRandom newRandom, fun e h hmem h' hmem' hstart hstart' => ?_⟩
  rw [← hstart, detectHeadingChanges]
  exact filterMap_changeOf_iff (inOrder_extractHeadings _ _ _) (inOrder_extractHeadings _ _ _)
    hmem hmem' (hstart'.trans hstart.symm)

/-- The title of the first of two headings is edited and the second one stays. -/
def exampleEdit : TitleEdit where
  before := []
  opening := units "# "
  oldTitle := units "a"
  newTitle := units "c"
  behind := units "\n# b"
  begins := .inl rfl
  opens := by decide
  line := by decide
  ends := by simp [units, newline, unit]

theorem headingChanges_edit :
    (detectHeadingChanges ascii (fun _ => []) (fun _ => []) exampleEdit.oldContent
      exampleEdit.newContent).changes = [⟨units "a", units "c", units "a", units "c"⟩] := by
  have hold : extractHeadings ascii (fun _ => []) exampleEdit.oldContent =
      [⟨units "a", units "a", 1, 0, 4⟩, ⟨units "b", units "b", 1, 4, 7⟩] := by decide +kernel
  have hnew : extractHeadings ascii (fun _ => []) exampleEdit.newContent =
      [⟨units "c", units "c", 1, 0, 4⟩, ⟨units "b", units "b", 1, 4, 7⟩] := by decide +kernel
  refine ((headingChanges_iff ascii (fun _ => []) (fun _ => [])).2 exampleEdit
    ⟨units "a", units "a", 1, 0, 4⟩ (hold ▸ List.mem_cons_self)
    ⟨units "c", units "c", 1, 0, 4⟩ (hnew ▸ List.mem_cons_self) rfl rfl).mpr ⟨by decide, ?_⟩
  rw [hold, hnew]
  unfold Stays
  simp [exampleEdit]

/-- A paragraph in front of two headings: the second one is taken for the first. -/
theorem shifted_heading :
    (extractHeadings ascii (fun _ => []) (units "# a\n# b")).map
        (fun h => (h.level, h.text)) =
      (extractHeadings ascii (fun _ => []) (units "x\n# a\n# b")).map
        (fun h => (h.level, h.text)) ∧
    (detectHeadingChanges ascii (fun _ => []) (fun _ => []) (units "# a\n# b")
      (units "x\n# a\n# b")).changes = [⟨units "b", units "a", units "b", units "a"⟩] := by
  decide +kernel

end Mdock.Editor.Headings
