import Mdock.Editor.Toggles

/-! Lines with a marker turned into lines of another kind: what is left of the marker. -/
namespace Mdock.Editor.Commands
open Mdock.Js Mdock.Lib

/-! ### Items -/

inductive LineMarker
  | bullet (sign : UInt16) | ordered (digits : Text) (delimiter : UInt16) | task (box : UInt16)
  | quote | heading (level : Nat)

def LineMarker.sign : LineMarker → Text
  | .bullet sign => [sign]
  | .ordered digits delimiter => digits ++ [delimiter]
  | .task box => units "- [" ++ [box] ++ units "]"
  | .quote => units ">"
  | .heading level => List.replicate level (unit '#')

def LineMarker.InList : LineMarker → Prop
  | .quote | .heading _ => False
  | _ => True

def LineMarker.IsTask : LineMarker → Prop
  | .task _ => True
  | _ => False

instance (m : LineMarker) : Decidable m.IsTask := by
  unfold LineMarker.IsTask
  split <;> infer_instance

/-- The markers that Markdown has. -/
def LineMarker.WellFormed : LineMarker → Prop
  | .bullet sign => sign ∈ units "-*+"
  | .ordered digits delimiter => digits ≠ [] ∧ (∀ c ∈ digits, isDigit c) ∧ delimiter ∈ units ".)"
  | .task box => box ∈ units " xX"
  | .quote => True
  | .heading level => 1 ≤ level ∧ level ≤ 6

/-- The box of a task without its bullet. -/
def boxMark : Pattern UInt16 :=
  .seq (lit "[") (.seq (.one (· ≠ unit ']')) (.seq (lit "]") (.plus isSpace)))

/-- A text that bears no marker. -/
def Unmarked (t : Text) : Prop :=
  listPrefix.find t = none ∧ boxMark.find t = none ∧ headingMark.find t = none ∧
    t.head? ≠ some (unit '>')

/-- What may stand between a marker and its text, and the texts: the space behind a quote's marker
belongs to it, other markers are followed by all the space there is. -/
def LineMarker.Bears (gap t : Text) : LineMarker → Prop
  | .quote => gap.length ≤ 1 ∧ (gap = [] → ∀ c ∈ t.head?, isSpace c = false)
  | .heading _ => (∀ c ∈ t.head?, isSpace c = false) ∧ (gap = [] → t = [])
  | .task _ => (∀ c ∈ t.head?, isSpace c = false) ∧ gap ≠ [] ∧ Unmarked t
  | _ => (∀ c ∈ t.head?, isSpace c = false) ∧ (gap = [] → t = []) ∧ Unmarked t

/-- A line with a marker. -/
structure Item where
  indent : Text
  marker : LineMarker
  gap : Text
  text : Text
  indented : (∀ c ∈ indent, isSpace c) ∧ (indent ≠ [] → marker.InList)
  wellFormed : marker.WellFormed
  spaced : ∀ c ∈ gap, isSpace c
  bears : marker.Bears gap text

def Item.line (item : Item) : Text := item.indent ++ (item.marker.sign ++ (item.gap ++ item.text))

/-! ### Conversions -/

inductive Target
  | paragraph | ordered | task

def Target.run (state : EditorState) : Target → Spec
  | .paragraph => setParagraph state
  | .ordered => toggleOrderedList state
  | .task => toggleTaskList state

/-- The items that a command converts. -/
def Target.Takes : Target → LineMarker → Prop
  | .paragraph, _ => True
  | .ordered, .bullet _ | .ordered, .task _ => True
  | .task, .bullet _ | .task, .ordered _ _ => True
  | _, _ => False

/-- The line with nothing of the old marker. -/
def Target.Leaves (item : Item) (line : Text) : Target → Prop
  | .paragraph => line = item.indent ++ item.text
  | .ordered => ∃ n, line = item.indent ++ (decimal n ++ units ". " ++ item.text)
  | .task => line = item.indent ++ (units "- [ ] " ++ item.text)

/-- What a conversion makes of the item on a line. -/
def Converts (state : EditorState) (target : Target) (k : Nat) (item : Item) : Prop :=
  ∃ text line, (target.run state).text = some text ∧ (lines text)[k]? = some line ∧
    target.Leaves item line

/-- The items whose marker is recognised as a whole, and no other one behind it. -/
def Item.Whole (item : Item) : Prop :=
  ¬ item.marker.IsTask ∧
    (item.marker = .quote → headingMark.find item.text = none) ∧
    (item.marker ≠ .quote → item.gap ≠ [])

/-! ### Marks -/

section
variable {gap t u : Text} {c : UInt16} {a : Pattern UInt16}

theorem takeWhile_gap (hg : ∀ c ∈ gap, isSpace c = true) (ht : ∀ c ∈ t.head?, isSpace c = false) :
    (gap ++ t).takeWhile isSpace = gap ∧ trimStart (gap ++ t) = t := by
  cases t with
  | nil =>
    rw [List.append_nil, List.takeWhile_eq_self_iff, trimStart_eq_nil_iff]
    exact ⟨hg, hg⟩
  | cons c t => exact takeWhile_indent hg (ht c rfl)

/-- The space behind a mark is taken whole. -/
theorem find_plus_gap (hg : ∀ c ∈ gap, isSpace c = true) (ht : ∀ c ∈ t.head?, isSpace c = false) :
    (Pattern.plus isSpace).find (gap ++ t) = if gap = [] then none else some gap.length := by
  rw [Pattern.find_plus, (takeWhile_gap hg ht).1]

theorem find_seq_gap (ha : a.ends (u ++ (gap ++ t)) = [u.length])
    (hg : ∀ c ∈ gap, isSpace c = true) (ht : ∀ c ∈ t.head?, isSpace c = false) :
    (Pattern.seq a (.plus isSpace)).find (u ++ (gap ++ t)) =
      if gap = [] then none else some (u.length + gap.length) := by
  rw [Pattern.find_of_ends (Pattern.ends_seq_of_ends ha), List.drop_left, find_plus_gap hg ht]
  split_ifs <;> rfl

theorem find_lit_neg {s : String} {d : UInt16} {w : Text} (hs : units s = d :: w) (hc : c ≠ d) :
    (Pattern.seq (lit s) a).find (c :: t) = none := by
  refine Pattern.find_eq_none_iff.mpr (Pattern.ends_seq_eq_nil ?_)
  rw [lit, hs]
  exact Pattern.ends_seq_eq_nil (Pattern.ends_run_cons_neg (decide_eq_false hc))

theorem find_bulletGap (hc : c ∈ units "-*+") (hg : ∀ c ∈ gap, isSpace c = true)
    (ht : ∀ c ∈ t.head?, isSpace c = false) (hempty : gap = [] → t = []) :
    listPrefix.find (c :: (gap ++ t)) = if gap = [] then none else some (1 + gap.length) := by
  have hfirst := find_seq_gap (u := [c]) (ends_oneOf "-*+" hc _) hg ht
  rw [List.singleton_append] at hfirst
  split_ifs at hfirst ⊢ with hgap
  · have halone : (units "-*+").all fun c => (listPrefix.find [c]).isNone := by decide
    rw [hempty hgap, hgap]
    exact Option.isNone_iff_eq_none.mp (List.all_eq_true.mp halone c hc)
  · rw [listPrefix, Pattern.find_alt, hfirst]
    rfl

/-- A digit is no sign. -/
theorem sign_of_isDigit (h : isDigit c = true) :
    decide (c ∈ units "-*+") = false ∧ decide (c = unit '-') = false ∧ c ≠ unit '>' ∧
      decide (c ∈ units ".)") = false ∧ isSpace c = false := by
  have hall : (units "-*+>.)").all fun c => !isDigit c := by decide
  have hno : ∀ s : String, units s ⊆ units "-*+>.)" → c ∉ units s := fun s hs hc => by
    have := List.all_eq_true.mp hall c (hs hc)
    simp [h] at this
  refine ⟨decide_eq_false (hno "-*+" (by decide)), decide_eq_false fun heq => ?_, fun heq => ?_,
    decide_eq_false (hno ".)" (by decide)), Bool.eq_false_of_not_eq_true fun hspace => ?_⟩
  · exact hno "-" (by decide) (heq ▸ by decide)
  · exact hno ">" (by decide) (heq ▸ by decide)
  · rw [(head_of_isSpace hspace).2.1] at h
    simp at h

theorem find_orderedGap {digits : Text} {d : UInt16} (hdigits : ∀ c ∈ digits, isDigit c = true)
    (hne : digits ≠ []) (hd : d ∈ units ".)") (hg : ∀ c ∈ gap, isSpace c = true)
    (ht : ∀ c ∈ t.head?, isSpace c = false) :
    listPrefix.find (digits ++ d :: (gap ++ t)) =
      if gap = [] then none else some (digits.length + 1 + gap.length) := by
  obtain ⟨c, w, rfl⟩ := List.exists_cons_of_ne_nil hne
  obtain ⟨hsign, hdash, -⟩ := sign_of_isDigit (hdigits c List.mem_cons_self)
  have hdelimiter : isDigit d = false := by
    have hall : (units ".)").all fun d => !isDigit d := by decide
    simpa using List.all_eq_true.mp hall d hd
  have hrest := find_seq_gap (u := [d]) (ends_oneOf ".)" hd _) hg ht
  rw [List.singleton_append] at hrest
  have hnumbered : numbered.find (c :: w ++ d :: (gap ++ t)) =
      if gap = [] then none else some ((c :: w).length + 1 + gap.length) := by
    have hstop : ∀ c t, isDigit c = true →
        (Pattern.seq (oneOf ".)") (.plus isSpace)).ends (c :: t) = [] := fun _ _ hc =>
      Pattern.ends_seq_eq_nil (Pattern.ends_run_cons_neg (sign_of_isDigit hc).2.2.2.1)
    rw [numbered, Pattern.plus, Pattern.find_run_seq hstop hdigits (by simpa using hdelimiter)
      (by simp) (by simp), hrest]
    split_ifs
    · rfl
    · simp
      omega
  have hbullet : (Pattern.seq (oneOf "-*+") (.plus isSpace)).find (c :: w ++ d :: (gap ++ t)) =
      none :=
    Pattern.find_eq_none_iff.mpr (Pattern.ends_seq_eq_nil (Pattern.ends_run_cons_neg hsign))
  have htask : (checkbox (· ≠ unit ']')).find (c :: w ++ d :: (gap ++ t)) = none :=
    find_lit_neg rfl (of_decide_eq_false hdash)
  rw [listPrefix, Pattern.find_alt, Pattern.find_alt, hbullet, hnumbered, htask, Option.none_or, Option.or_none]

theorem find_dash (w : Text) :
    (Pattern.seq (oneOf "-*+") (.plus isSpace)).find (units "- [" ++ w) = some 2 := by
  have hfirst : (Pattern.seq (oneOf "-*+") (.plus isSpace)).find
      (units "-" ++ (units " " ++ unit '[' :: w)) = _ :=
    find_seq_gap (ends_oneOf "-*+" (by decide) _) (List.all_eq_true.mp (by decide))
      (by simp; decide)
  rw [if_neg (by decide)] at hfirst
  exact hfirst

theorem find_taskBullet (w : Text) : listPrefix.find (units "- [" ++ w) = some 2 := by
  rw [listPrefix, Pattern.find_alt, find_dash]
  rfl

theorem find_headingGap {level : Nat} (hlevel : 1 ≤ level ∧ level ≤ 6)
    (hg : ∀ c ∈ gap, isSpace c = true) (ht : ∀ c ∈ t.head?, isSpace c = false)
    (hempty : gap = [] → t = []) :
    headingMark.find (List.replicate level (unit '#') ++ (gap ++ t)) =
      if gap = [] then none else some (level + gap.length) := by
  have hhead : ∀ c ∈ (gap ++ t).head?, decide (c = unit '#') = false := by
    intro c hc
    cases gap with
    | nil => simp [hempty rfl] at hc
    | cons d gap =>
      obtain rfl : d = c := by simpa using hc
      refine decide_eq_false fun heq => ?_
      have hspace := hg d List.mem_cons_self
      rw [heq] at hspace
      exact absurd hspace (by decide)
  have hlen : (List.replicate level (unit '#')).length = level := List.length_replicate
  have hstop : ∀ c t, decide (c = unit '#') = true → (Pattern.plus isSpace).ends (c :: t) = [] :=
    fun _ _ hc => Pattern.ends_run_cons_neg (by rw [of_decide_eq_true hc]; decide)
  rw [headingMark, Pattern.find_run_seq hstop
    (fun c hc => decide_eq_true (List.eq_of_mem_replicate hc)) hhead (by rw [hlen]; exact hlevel.1)
    (by simpa [hlen] using hlevel.2), find_plus_gap hg ht, hlen]
  split_ifs <;> rfl

end

/-! ### What is left of an item -/

namespace Item
variable {item : Item}

/-- What a list item's text becomes: the first of the patterns ends a task's mark at its bullet. -/
def left (item : Item) : Text :=
  if item.marker.IsTask then item.marker.sign.drop 2 ++ (item.gap ++ item.text)
  else if item.gap = [] then item.marker.sign
  else item.text

theorem sign_head (item : Item) : ∃ c s, item.marker.sign = c :: s ∧ isSpace c = false := by
  have hwell := item.wellFormed
  cases hm : item.marker with
  | bullet sign =>
    rw [hm] at hwell
    have hall : (units "-*+").all fun c => !isSpace c := by decide
    exact ⟨sign, [], rfl, by simpa using List.all_eq_true.mp hall sign hwell⟩
  | ordered digits delimiter =>
    rw [hm] at hwell
    obtain ⟨c, s, rfl⟩ := List.exists_cons_of_ne_nil hwell.1
    exact ⟨c, s ++ [delimiter], rfl,
      (sign_of_isDigit (hwell.2.1 c List.mem_cons_self)).2.2.2.2⟩
  | task box => exact ⟨unit '-', units " [" ++ [box] ++ units "]", rfl, by decide⟩
  | quote => exact ⟨unit '>', [], rfl, by decide⟩
  | heading level =>
    rw [hm] at hwell
    obtain ⟨n, rfl⟩ := Nat.exists_eq_add_of_le' hwell.1
    exact ⟨unit '#', List.replicate n (unit '#'), rfl, by decide⟩

theorem line_ne_nil (item : Item) : item.line ≠ [] := by
  obtain ⟨c, s, hsign, -⟩ := item.sign_head
  simp [line, hsign]

theorem blank_line (item : Item) : blank item.line = false := by
  obtain ⟨c, s, hsign, hc⟩ := item.sign_head
  refine Bool.eq_false_of_not_eq_true fun hblank => ?_
  rw [blank_iff.mp hblank c (by simp [line, hsign])] at hc
  simp at hc

theorem takeWhile_line (item : Item) : item.line.takeWhile isSpace = item.indent := by
  obtain ⟨c, s, hsign, hc⟩ := item.sign_head
  rw [line, hsign, List.cons_append]
  exact (takeWhile_indent item.indented.1 hc).1

theorem text_head (h : item.marker ≠ .quote) : ∀ c ∈ item.text.head?, isSpace c = false := by
  have hbears := item.bears
  cases hm : item.marker with
  | quote => exact absurd hm h
  | _ =>
    rw [hm] at hbears
    exact hbears.1

theorem unmarked (h : item.marker.InList) : Unmarked item.text := by
  have hbears := item.bears
  cases hm : item.marker with
  | quote | heading =>
    rw [hm] at h
    exact absurd h id
  | _ =>
    rw [hm] at hbears
    exact hbears.2.2

theorem text_of_gap (h : item.marker ≠ .quote) (hgap : item.gap = []) : item.text = [] := by
  have hbears := item.bears
  cases hm : item.marker with
  | quote => exact absurd hm h
  | task =>
    rw [hm] at hbears
    exact absurd hgap hbears.2.1
  | heading =>
    rw [hm] at hbears
    exact hbears.2 hgap
  | _ =>
    rw [hm] at hbears
    exact hbears.2.1 hgap

/-- The list mark that the patterns find. -/
theorem find_listPrefix (h : item.marker.InList) :
    listPrefix.find (item.marker.sign ++ (item.gap ++ item.text)) =
      if item.marker.IsTask then some 2
      else if item.gap = [] then none
      else some (item.marker.sign.length + item.gap.length) := by
  have hwell := item.wellFormed
  have hne : item.marker ≠ .quote := fun heq => by rw [heq] at h; exact h
  have hhead := text_head hne
  have hempty := text_of_gap hne
  have hgap := item.spaced
  cases hm : item.marker with
  | bullet sign =>
    rw [hm] at hwell
    exact find_bulletGap hwell hgap hhead hempty
  | ordered digits delimiter =>
    rw [hm] at hwell
    have hfind := find_orderedGap hwell.2.1 hwell.1 hwell.2.2 hgap hhead
    rw [LineMarker.sign, List.append_assoc, List.singleton_append, hfind]
    simp [LineMarker.IsTask]
  | task box =>
    rw [if_pos (show (LineMarker.task box).IsTask from trivial), LineMarker.sign, List.append_assoc,
      List.append_assoc]
    exact find_taskBullet _
  | quote | heading =>
    rw [hm] at h
    exact absurd h id

theorem stripListPrefix_line (h : item.marker.InList) :
    stripListPrefix item.line = item.indent ++ item.left := by
  obtain ⟨c, s, hsign, hc⟩ := item.sign_head
  have hfind := find_listPrefix h
  have hfind₂ : Pattern.find₂ (.star isSpace) listPrefix item.line =
      (listPrefix.find (item.marker.sign ++ (item.gap ++ item.text))).map
        fun m => (item.indent.length, m) := by
    rw [line, hsign, List.cons_append]
    exact find₂_indent (fun _ _ => listPrefix_of_isSpace) item.indented.1 hc
  have hdrop : ∀ n, item.line.drop (item.indent.length + n) =
      (item.marker.sign ++ (item.gap ++ item.text)).drop n := fun n => by
    rw [line, ← List.drop_drop, List.drop_left]
  rw [stripListPrefix, Pattern.keepFirst, hfind₂, hfind, left]
  split_ifs with htask hgap
  · have htwo : 2 ≤ item.marker.sign.length := by
      cases hm : item.marker with
      | task box => simp [LineMarker.sign, units]
      | _ => rw [hm] at htask; exact absurd htask id
    simp only [Option.map_some]
    rw [hdrop, List.drop_append_of_le_length htwo, line, List.take_left, List.append_nil]
  · have hnone : item.gap ++ item.text = [] := by
      rw [hgap, text_of_gap (fun heq => by rw [heq] at h; exact h) hgap]
      rfl
    rw [line, hnone, List.append_nil]
    rfl
  · simp only [Option.map_some]
    rw [hdrop, line, List.take_left, List.append_nil, ← List.append_assoc, ← List.length_append,
      List.drop_left]

theorem left_eq_text (h : item.marker.InList) : item.left = item.text ↔ item.Whole := by
  have hne : item.marker ≠ .quote := fun heq => by rw [heq] at h; exact h
  rw [left, Whole]
  split_ifs with htask hgap
  · refine iff_of_false (fun heq => ?_) fun hwhole => hwhole.1 htask
    have hlen := congrArg List.length heq
    cases hm : item.marker with
    | task box =>
      rw [hm] at hlen
      simp [LineMarker.sign, units] at hlen
      omega
    | _ =>
      rw [hm] at htask
      exact htask
  · rw [text_of_gap hne hgap]
    obtain ⟨c, s, hsign, -⟩ := item.sign_head
    exact iff_of_false (by simp [hsign]) fun hwhole => hwhole.2.2 hne hgap
  · exact iff_of_true rfl ⟨htask, fun heq => absurd heq hne, fun _ => hgap⟩

/-- What is left begins with no space, and bears no mark of a quote or a heading. -/
theorem left_bare (h : item.marker.InList) : (∀ c ∈ item.left.head?, isSpace c = false) ∧
    item.left.head? ≠ some (unit '>') ∧ headingMark.find item.left = none := by
  have hne : item.marker ≠ .quote := fun heq => by rw [heq] at h; exact h
  have hsome : ∀ c s, item.left = c :: s → isSpace c = false → c ≠ unit '>' → c ≠ unit '#' → 
      (∀ c ∈ item.left.head?, isSpace c = false) ∧ item.left.head? ≠ some (unit '>') ∧
        headingMark.find item.left = none := fun c s hleft hspace hquote hheading => by
    rw [hleft]
    exact ⟨by simpa using hspace, by simpa using hquote, Pattern.find_eq_none_iff.mpr
      (Pattern.ends_seq_eq_nil (Pattern.ends_run_cons_neg (decide_eq_false hheading)))⟩
  have hwell := item.wellFormed
  by_cases htask : item.marker.IsTask
  · have hleft : ∃ s, item.left = unit '[' :: s := by
      rw [left, if_pos htask]
      cases hm : item.marker with
      | task box => exact ⟨_, rfl⟩
      | _ =>
        rw [hm] at htask
        exact absurd htask id
    obtain ⟨s, hs⟩ := hleft
    exact hsome _ s hs (by decide) (by decide) (by decide)
  · by_cases hgap : item.gap = []
    · obtain ⟨c, s, hsign, hspace⟩ := item.sign_head
      have hleft : item.left = c :: s := by rw [left, if_neg htask, if_pos hgap, hsign]
      have hbare : c ≠ unit '>' ∧ c ≠ unit '#' := by
        cases hm : item.marker with
        | bullet sign =>
          rw [hm] at hwell hsign
          obtain rfl := (List.cons.inj hsign).1
          have hall : (units "-*+").all fun c => c ≠ unit '>' && c ≠ unit '#' := by decide
          simpa using List.all_eq_true.mp hall sign hwell
        | ordered digits delimiter =>
          rw [hm] at hwell hsign
          obtain ⟨d, w, rfl⟩ := List.exists_cons_of_ne_nil hwell.1
          obtain rfl := (List.cons.inj hsign).1
          have hdigit := hwell.2.1 d List.mem_cons_self
          refine ⟨(sign_of_isDigit hdigit).2.2.1, fun heq => ?_⟩
          rw [heq] at hdigit
          exact absurd hdigit (by decide)
        | task =>
          rw [hm] at htask
          exact absurd trivial htask
        | quote | heading =>
          rw [hm] at h
          exact absurd h id
      exact hsome c s hleft hspace hbare.1 hbare.2
    · have hleft : item.left = item.text := by rw [left, if_neg htask, if_neg hgap]
      rw [hleft]
      exact ⟨text_head hne, (unmarked h).2.2.2, (unmarked h).2.2.1⟩

end Item

theorem quoteMark_neg {c : UInt16} {t : Text} (hc : c ≠ unit '>') :
    quoteMark.find (c :: t) = none := find_lit_neg rfl hc

theorem headingMark_neg {c : UInt16} {t : Text} (hc : c ≠ unit '#') :
    headingMark.find (c :: t) = none :=
  Pattern.find_eq_none_iff.mpr
    (Pattern.ends_seq_eq_nil (Pattern.ends_run_cons_neg (decide_eq_false hc)))

theorem stripListPrefix_neg {c : UInt16} {t : Text} (hsign : decide (c ∈ units "-*+") = false)
    (hdigit : isDigit c = false) (hdash : decide (c = unit '-') = false)
    (hc : isSpace c = false) : stripListPrefix (c :: t) = c :: t := by
  have hfind : Pattern.find₂ (.star isSpace) listPrefix ([] ++ c :: t) = _ :=
    find₂_indent (fun _ _ => listPrefix_of_isSpace) (by simp) hc
  rw [find_listPrefix_none hsign hdigit hdash] at hfind
  rw [stripListPrefix, Pattern.keepFirst, ← List.nil_append (c :: t), hfind]
  rfl

theorem ne_of_isSpace {c : UInt16} (h : isSpace c = true) : c ≠ unit '>' ∧ c ≠ unit '#' := by
  refine ⟨fun heq => ?_, fun heq => ?_⟩ <;>
  · rw [heq] at h
    exact absurd h (by decide)

namespace Item
variable {item : Item}

theorem stripBlockPrefix_list (h : item.marker.InList) :
    stripBlockPrefix item.line = item.indent ++ item.left := by
  have hnone : quoteMark.find (item.indent ++ item.left) = none ∧
      headingMark.find (item.indent ++ item.left) = none := by
    obtain ⟨-, hquote, hheading⟩ := left_bare h
    cases hi : item.indent with
    | nil =>
      refine ⟨?_, hheading⟩
      cases hl : item.left with
      | nil => rfl
      | cons c t => exact quoteMark_neg (by simpa [hl] using hquote)
    | cons c t =>
      have hc := ne_of_isSpace (item.indented.1 c (hi ▸ List.mem_cons_self))
      exact ⟨quoteMark_neg hc.1, headingMark_neg hc.2⟩
  rw [stripBlockPrefix, stripListPrefix_line h, Pattern.cut_eq_self hnone.1,
    Pattern.cut_eq_self hnone.2]

theorem stripBlockPrefix_quote (h : item.marker = .quote) :
    stripBlockPrefix item.line = headingMark.cut item.text := by
  have hindent : item.indent = [] := by
    by_contra hne
    have hlist := item.indented.2 hne
    rw [h] at hlist
    exact hlist
  have hbears := item.bears
  rw [h] at hbears
  have hline : item.line = unit '>' :: (item.gap ++ item.text) := by
    rw [line, hindent, h]
    rfl
  have hopt : (Pattern.opt isSpace).find (item.gap ++ item.text) = some item.gap.length := by
    rw [Pattern.find_opt]
    cases hgap : item.gap with
    | nil =>
      have hnone : item.text.takeWhile isSpace = [] := by
        cases ht : item.text with
        | nil => rfl
        | cons c t =>
          have hc := hbears.2 hgap c (by rw [ht]; rfl)
          exact List.takeWhile_cons_of_neg (by simp [hc])
      simp [hnone]
    | cons c gap =>
      have hspace := item.spaced c (hgap ▸ List.mem_cons_self)
      have hone := hbears.1
      rw [hgap, List.length_cons] at hone
      rw [List.length_eq_zero_iff.mp (Nat.le_zero.mp (Nat.le_of_succ_le_succ hone)),
        List.singleton_append, List.takeWhile_cons_of_pos hspace]
      simp
  have hfind : quoteMark.find item.line = some (1 + item.gap.length) := by
    have hends : (lit ">").ends item.line = [1] := by
      rw [hline]
      exact Pattern.ends_literal (units ">") (item.gap ++ item.text)
    rw [quoteMark, Pattern.find_of_ends (Pattern.ends_seq_of_ends hends), hline,
      List.drop_succ_cons, List.drop_zero, hopt]
    rfl
  have hstrip : stripListPrefix item.line = item.line := by
    rw [hline]
    exact stripListPrefix_neg (by decide) (by decide) (by decide) (by decide)
  rw [stripBlockPrefix, hstrip, Pattern.cut_eq_drop hfind, hline, Nat.add_comm, List.drop_succ_cons,
    List.drop_left]

theorem stripBlockPrefix_heading {level : Nat} (h : item.marker = .heading level) :
    stripBlockPrefix item.line = if item.gap = [] then item.line else item.text := by
  have hindent : item.indent = [] := by
    by_contra hne
    have hlist := item.indented.2 hne
    rw [h] at hlist
    exact hlist
  have hwell := item.wellFormed
  have hne : item.marker ≠ .quote := by rw [h]; simp
  rw [h] at hwell
  obtain ⟨n, hn⟩ := Nat.exists_eq_add_of_le' hwell.1
  have hline : item.line = List.replicate level (unit '#') ++ (item.gap ++ item.text) := by
    rw [line, hindent, h]
    rfl
  have hcons : item.line =
      unit '#' :: (List.replicate n (unit '#') ++ (item.gap ++ item.text)) := by
    rw [hline, hn, List.replicate_succ, List.cons_append]
  have hstrip : stripListPrefix item.line = item.line := by
    rw [hcons]
    exact stripListPrefix_neg (by decide) (by decide) (by decide) (by decide)
  have hquote : quoteMark.find item.line = none := by
    rw [hcons]
    exact quoteMark_neg (by decide)
  have hfind := find_headingGap hwell item.spaced (text_head hne) (text_of_gap hne)
  rw [← hline] at hfind
  rw [stripBlockPrefix, hstrip, Pattern.cut_eq_self hquote]
  split_ifs at hfind ⊢ with hgap
  · exact Pattern.cut_eq_self hfind
  · have hlen : level + item.gap.length = (List.replicate level (unit '#') ++ item.gap).length := by
      simp
    rw [Pattern.cut_eq_drop hfind, hline, hlen, ← List.append_assoc, List.drop_left]

/-- What a paragraph keeps of an item. -/
theorem paragraph_leaves_iff (item : Item) :
    Target.paragraph.Leaves item (stripBlockPrefix item.line) ↔ item.Whole := by
  have hempty : item.marker.InList ∨ item.indent = [] :=
    Classical.or_iff_not_imp_right.mpr fun hne => item.indented.2 hne
  cases hm : item.marker with
  | quote =>
    have hindent : item.indent = [] := hempty.resolve_left (by rw [hm]; exact id)
    rw [Target.Leaves, stripBlockPrefix_quote hm, hindent, List.nil_append, Whole, hm]
    constructor
    · exact fun heq => ⟨id, fun _ => (Pattern.cut_eq_self_iff (by decide)).mp heq, fun hne => absurd rfl hne⟩
    · exact fun hwhole => Pattern.cut_eq_self (hwhole.2.1 rfl)
  | heading level =>
    have hindent : item.indent = [] := hempty.resolve_left (by rw [hm]; exact id)
    have hne : item.marker ≠ .quote := by rw [hm]; simp
    rw [Target.Leaves, stripBlockPrefix_heading hm, hindent, List.nil_append, Whole, hm]
    split_ifs with hgap
    · rw [text_of_gap hne hgap]
      exact iff_of_false item.line_ne_nil fun hwhole => hwhole.2.2 (by simp) hgap
    · exact iff_of_true rfl ⟨id, by simp, fun _ => hgap⟩
  | _ =>
    have hlist : item.marker.InList := by
      rw [hm]
      trivial
    rw [Target.Leaves, stripBlockPrefix_list hlist, List.append_cancel_left_eq, left_eq_text hlist]

theorem markedLine_line (h : item.marker.InList) (mark : Text) :
    markedLine mark item.line = item.indent ++ (mark ++ item.left) := by
  have htrim : trimStart (item.indent ++ item.left) = item.left :=
    (takeWhile_gap item.indented.1 (left_bare h).1).2
  rw [markedLine, takeWhile_line, stripListPrefix_line h, htrim, List.append_assoc]

theorem ordered_leaves_iff (h : item.marker.InList) (i : Nat) :
    Target.ordered.Leaves item (markedLine (PrefixToggle.ordered.mark i) item.line) ↔
      item.Whole := by
  rw [← left_eq_text h, markedLine_line h, PrefixToggle.mark]
  constructor
  · rintro ⟨n, heq⟩
    have hrest := List.append_cancel_left heq
    have hdigits := congrArg (List.takeWhile isDigit) hrest
    rw [takeWhile_number, takeWhile_number] at hdigits
    rw [hdigits] at hrest
    exact List.append_cancel_left hrest
  · intro heq
    exact ⟨i + 1, by rw [heq]⟩

theorem task_leaves_iff (h : item.marker.InList) (i : Nat) :
    Target.task.Leaves item (markedLine (PrefixToggle.task.mark i) item.line) ↔ item.Whole := by
  rw [← left_eq_text h, markedLine_line h, PrefixToggle.mark, Target.Leaves,
    List.append_cancel_left_eq, List.append_cancel_left_eq]

/-- A line that a toggle's pattern does not find is marked. -/
theorem test_line (p : PrefixToggle) (hp : p ≠ .quote) :
    p.test item.line = (p.pattern.find (item.marker.sign ++ (item.gap ++ item.text))).isSome := by
  obtain ⟨c, s, hsign, hc⟩ := item.sign_head
  rw [PrefixToggle.test, line, hsign, List.cons_append,
    find₂_toggle p item.indented.1 hc fun hq => absurd hq hp, Option.isSome_map]

/-- Items that a toggle converts do not bear its own mark. -/
theorem test_ordered (h : Target.ordered.Takes item.marker) :
    PrefixToggle.ordered.test item.line = false := by
  rw [test_line _ (by decide)]
  have hwell := item.wellFormed
  have hnone : numbered.find (item.marker.sign ++ (item.gap ++ item.text)) = none := by
    have hneg : ∀ c s, isDigit c = false → numbered.find (c :: s) = none := fun c s hc =>
      Pattern.find_eq_none_iff.mpr (Pattern.ends_seq_eq_nil (Pattern.ends_run_cons_neg hc))
    cases hm : item.marker with
    | bullet sign =>
      rw [hm] at hwell
      have hall : (units "-*+").all fun c => !isDigit c := by decide
      exact hneg sign _ (by simpa using List.all_eq_true.mp hall sign hwell)
    | task box => exact hneg (unit '-') _ (by decide)
    | ordered | quote | heading =>
      rw [hm] at h
      exact absurd h id
  rw [PrefixToggle.pattern, hnone]
  rfl

theorem test_task (h : Target.task.Takes item.marker) :
    PrefixToggle.task.test item.line = false := by
  rw [test_line _ (by decide)]
  have hwell := item.wellFormed
  refine Bool.eq_false_of_not_eq_true fun htest => ?_
  obtain ⟨u, v, hs, hu⟩ := Pattern.test_iff.mp htest
  obtain ⟨u₁, u₂, rfl, hu₁, hu₂⟩ := Pattern.matches_seq.mp hu
  rw [lit, Pattern.matches_literal] at hu₁
  rw [hu₁, List.append_assoc] at hs
  have hbullet : ∀ sign, item.marker = .bullet sign → False := fun sign hm => by
    have hlist : item.marker.InList := by
      rw [hm]
      trivial
    have hne : item.marker ≠ .quote := by
      rw [hm]
      simp
    rw [hm] at hs
    have hrest : item.gap ++ item.text = units " " ++ unit '[' :: (u₂ ++ v) := (List.cons.inj hs).2
    have hsplit := (takeWhile_gap item.spaced (text_head hne)).2
    rw [hrest, (takeWhile_gap (List.all_eq_true.mp (by decide)) (by simp; decide)).2] at hsplit
    have hbox : boxMark.test item.text = true := Pattern.test_iff.mpr ⟨units "[" ++ u₂, v,
      hsplit.symm, Pattern.matches_seq.mpr ⟨_, u₂, rfl, Pattern.matches_literal.mpr rfl, hu₂⟩⟩
    rw [Pattern.test, (unmarked hlist).2.1] at hbox
    simp at hbox
  cases hm : item.marker with
  | bullet sign => exact hbullet sign hm
  | ordered digits delimiter =>
    rw [hm] at hwell hs
    obtain ⟨c, w, rfl⟩ := List.exists_cons_of_ne_nil hwell.1
    have hdigit := hwell.2.1 c List.mem_cons_self
    rw [(List.cons.inj hs).1] at hdigit
    exact absurd hdigit (by decide)
  | task | quote | heading =>
    rw [hm] at h
    exact absurd h id

end Item

/-! ### The selection -/

section
variable {state : EditorState} {next : Text → Text} {k : Nat} {line : Text}

/-- A line that the selection touches, if it is not empty, is one of the block's lines, before and
after. -/
theorem touched_line (h : state.Valid) (hnext : KeepsLines next)
    (hk : lineOf state.text state.selectionStart ≤ k ∧ k ≤ lineOf state.text state.selectionEnd)
    (hline : (lines state.text)[k]? = some line) (hne : line ≠ []) :
    ∃ (text : Text) (i : Nat), (replaceBlock state next).text = some text ∧
      (lines (selectedLineBlock state).value)[i]? = some line ∧
      (lines text)[k]? = (lines (next (selectedLineBlock state).value))[i]? := by
  have hquirk : state.text[0]? = some newline → k ≠ 0 := by
    intro hnl hzero
    obtain ⟨rest, hrest⟩ := exists_cons_of_newline hnl
    rw [hzero, hrest, ← List.nil_append (newline :: rest), lines_append_newline] at hline
    exact hne (Option.some.inj hline).symm
  have hq : ¬ AtLeadingNewline state := fun hq => by
    rw [hq.2.1, lineOf_zero] at hk
    exact hquirk hq.2.2 (Nat.le_zero.mp hk.2)
  obtain ⟨hle, hlt⟩ := firstLine_le_lastLine h hq
  have hfirst : firstLine state ≤ k := by
    rw [firstLine]
    split_ifs with hnl
    · exact Nat.pos_of_ne_zero (hquirk hnl.2)
    · exact hk.1
  have hlast : k < lastLine state + 1 := Nat.lt_succ_of_le hk.2
  have hblock := lines_block h hq
  refine ⟨_, k - firstLine state, replaceBlock_text h next, ?_, ?_⟩
  · rw [hblock, List.getElem?_drop, Nat.add_sub_cancel' hfirst, List.getElem?_take_of_lt hlast,
      hline]
  · have hlen := hnext (selectedLineBlock state).value
    rw [hblock, List.length_drop, List.length_take, Nat.min_eq_left (by omega)] at hlen
    have htake : ((lines state.text).take (firstLine state)).length = firstLine state := by
      rw [List.length_take, Nat.min_eq_left (by omega)]
    rw [lines_replaceBlock h hq, List.append_assoc, List.getElem?_append_right (by omega), htake,
      List.getElem?_append_left (by omega)]

/-- The lines of a toggle where one of them does not bear the mark. -/
theorem flip_marks (p : PrefixToggle) {ls : List Text} {i : Nat} (hi : ls[i]? = some line)
    (hb : blank line = false) (ht : p.test line = false) :
    (p.flip ls)[i]? = some (markedLine (p.mark i) line) := by
  have hall : (ls.all fun line => blank line || p.test line) = false :=
    List.all_eq_false.mpr ⟨line, List.mem_of_getElem? hi, by simp [hb, ht]⟩
  simp [PrefixToggle.flip, flipped, hi, hb, hall]

/-- A conversion leaves nothing of the marker of a line unless it is a task's, or a quote's with a
heading in it, or one with no space behind it. -/
theorem converts_iff (state : EditorState) (h : state.Valid) (target : Target) (k : Nat)
    (item : Item) (ht : target.Takes item.marker)
    (hk : lineOf state.text state.selectionStart ≤ k ∧ k ≤ lineOf state.text state.selectionEnd)
    (hline : (lines state.text)[k]? = some item.line) :
    Converts state target k item ↔ item.Whole := by
  have hrun : ∀ next : Text → Text, KeepsLines next → target.run state = replaceBlock state next →
      (∀ (v : Text) (i : Nat), (lines v)[i]? = some item.line →
        ∃ line : Text, (lines (next v))[i]? = some line ∧
          (target.Leaves item line ↔ item.Whole)) →
      (Converts state target k item ↔ item.Whole) := by
    intro next hnext heq hleaves
    obtain ⟨text, i, htext, hblock, hnew⟩ := touched_line h hnext hk hline item.line_ne_nil
    obtain ⟨line, hget, hiff⟩ := hleaves _ i hblock
    rw [← hiff, Converts, heq, htext]
    constructor
    · rintro ⟨_, _, hsome, hget', hl⟩
      rw [← Option.some.inj hsome, hnew, hget, Option.some.injEq] at hget'
      exact hget' ▸ hl
    · exact fun hl => ⟨text, line, rfl, hnew.trans hget, hl⟩
  have htoggle : ∀ p : PrefixToggle, KeepsLines p.rewrite → target.run state = p.run state →
      p.test item.line = false → (∀ i, target.Leaves item (markedLine (p.mark i) item.line) ↔
        item.Whole) → (Converts state target k item ↔ item.Whole) := fun p hp heq htest hleaves =>
    hrun p.rewrite hp (heq.trans (run_eq state p)) fun v i hi =>
      ⟨_, by rw [lines_rewrite, flip_marks p hi item.blank_line htest], hleaves i⟩
  have hkeeps : ∀ p : PrefixToggle, KeepsLines p.rewrite := fun p v => by
    rw [lines_rewrite, length_flip]
  have hlist : target ≠ .paragraph → item.marker.InList := fun hne => by
    cases hm : item.marker with
    | quote | heading => cases target <;> rw [hm] at ht <;> first | exact absurd rfl hne | exact ht
    | _ => trivial
  cases target with
  | paragraph =>
    refine hrun _ (keepsLines_mapLines keepsNewlines_stripBlockPrefix) rfl fun v i hi =>
      ⟨_, ?_, item.paragraph_leaves_iff⟩
    rw [lines_mapLines keepsNewlines_stripBlockPrefix, List.getElem?_map, hi, Option.map_some]
  | ordered =>
    exact htoggle .ordered (hkeeps _) rfl (Item.test_ordered ht) fun i =>
      Item.ordered_leaves_iff (hlist (by simp)) i
  | task =>
    exact htoggle .task (hkeeps _) rfl (Item.test_task ht) fun i =>
      Item.task_leaves_iff (hlist (by simp)) i

/-- `  * a`. -/
def starItem : Item where
  indent := units "  "
  marker := .bullet (unit '*')
  gap := units " "
  text := units "a"
  indented := ⟨List.all_eq_true.mp (by decide), fun _ => trivial⟩
  wellFormed := by unfold LineMarker.WellFormed; decide
  spaced := List.all_eq_true.mp (by decide)
  bears := ⟨by simp [units]; decide, by simp [units], by decide, by decide, by decide, by decide⟩

theorem converts_star : Converts ⟨units "  * a", 0, 0⟩ .ordered 0 starItem :=
  (converts_iff ⟨units "  * a", 0, 0⟩ ⟨by decide, by decide⟩ .ordered 0 starItem trivial (by decide)
    (by decide)).mpr ⟨id, fun heq => absurd heq (by simp [starItem]), fun _ => by decide⟩

/-- `- [x] a`. -/
def doneItem : Item where
  indent := []
  marker := .task (unit 'x')
  gap := units " "
  text := units "a"
  indented := ⟨List.all_eq_true.mp (by decide), fun _ => trivial⟩
  wellFormed := by unfold LineMarker.WellFormed; decide
  spaced := List.all_eq_true.mp (by decide)
  bears := ⟨by simp [units]; decide, by simp [units], by decide, by decide, by decide, by decide⟩

/-- A done task keeps its box. -/
theorem task_keeps_box : ∃ (state : EditorState) (item : Item), state.Valid ∧
    (lines state.text)[lineOf state.text state.selectionStart]? = some item.line ∧
      ¬ Converts state .paragraph (lineOf state.text state.selectionStart) item := by
  refine ⟨⟨units "- [x] a", 0, 0⟩, doneItem, ⟨by decide, by decide⟩, by decide, ?_⟩
  rintro ⟨text, line, htext, hline, hleaves⟩
  have hnew : (Target.paragraph.run ⟨units "- [x] a", 0, 0⟩).text = some (units "[x] a") := by
    decide
  rw [hnew, Option.some.injEq] at htext
  rw [← htext] at hline
  have hfirst : (lines (units "[x] a"))[lineOf (units "- [x] a") 0]? = some (units "[x] a") := by
    decide
  rw [hfirst, Option.some.injEq] at hline
  rw [← hline] at hleaves
  exact absurd hleaves (by unfold Target.Leaves; decide)

end

end Mdock.Editor.Commands
