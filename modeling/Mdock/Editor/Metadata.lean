import Mdock.Editor.Selections
import Mdock.Editor.Widgets

/-! Front matter set on a note: what it keeps of the note. -/
namespace Mdock.Editor.Metadata
open Mdock.Js Mdock.Lib Mdock.Editor.Commands Mdock.Editor.Blocks

variable {content : Text} {state : EditorState} {entries : Values} {ls : List Text} {j q : Nat}

/-- The lines of the front matter that the splitter sets apart, and the text behind it. -/
def front (content : Text) : List Text :=
  match frontmatterEnd (lines content) with
  | some last => ((lines content).take last).drop 1
  | none => []

def body (content : Text) : Text :=
  match frontmatterEnd (lines content) with
  | some last => content.drop (lineEnd (lines content) last + 1)
  | none => content

/-- The key of a line that sets one. -/
def keyOf (line : Text) : Option Text :=
  if unit ':' ∈ line ∧ line.head?.all (!isSpace ·) = true then
    some (trim (line.takeWhile (decide <| · ≠ unit ':')))
  else none

/-- The note after the command has a front matter, with the entries and the lines that set other
keys, and the body it had. -/
def Keeps (state : EditorState) (entries : Values) : Prop :=
  ∃ r text, ensureFrontmatter state entries = some r ∧ r.text = some text ∧
    frontmatterEnd (lines text) ≠ none ∧
    (∀ e ∈ entries, ∃ v, formatYamlValue e.2 = some v ∧ e.1 ++ units ": " ++ v ∈ front text) ∧
    (∀ l ∈ front state.text, ∀ k ∈ keyOf l, (∀ e ∈ entries, e.1 ≠ k) → l ∈ front text) ∧
    body text = body state.text

/-- Where the command looks for the end of a front matter it ends: the second line is not dashes,
and the next line that begins with dashes is nothing but dashes. -/
def EndsThere (content : Text) : Prop :=
  lineAt (lines content) 0 ≠ dashes ∨ (lineAt (lines content) 1 ≠ dashes ∧
    ∀ j ∈ nextLine (lines content) 1 fun l => startsWith l dashes,
      lineAt (lines content) j = dashes)

instance (content : Text) : Decidable (EndsThere content) :=
  inferInstanceAs (Decidable (_ ∨ _))

/-! ### Where the command looks -/

theorem findSome?_ite {α β : Type*} (p : α → Bool) (f : α → β) (xs : List α) :
    xs.findSome? (fun x => if p x then some (f x) else none) = (xs.find? p).map f := by
  induction xs with
  | nil => rfl
  | cons x xs ih =>
    rw [List.findSome?_cons, List.find?_cons]
    cases p x with
    | true => rfl
    | false => exact ih

theorem find_lit (s : String) (t : Text) :
    (lit s).ends t = if startsWith t (units s) then [(units s).length] else [] := by
  split_ifs with h
  · obtain ⟨u, rfl⟩ := List.isPrefixOf_iff_prefix.mp h
    exact Pattern.ends_literal (units s) u
  · refine List.eq_nil_iff_forall_not_mem.mpr fun n hn => h ?_
    have htest : (lit s).test t = true := by
      simpa [Pattern.test, Pattern.find] using List.ne_nil_of_mem hn
    obtain ⟨u, v, rfl, hu⟩ := Pattern.test_iff.mp htest
    rw [lit, Pattern.matches_literal] at hu
    exact List.isPrefixOf_iff_prefix.mpr ⟨v, by rw [hu]⟩

theorem find_closing (t : Text) : (Pattern.seq (lit "\n---") (.opt (· = newline))).find t =
    if startsWith t (units "\n---") then some (4 + if t[4]? = some newline then 1 else 0)
    else none := by
  have hends := find_lit "\n---" t
  split_ifs at hends ⊢ with hstart hnl
  · have hlen : (t.drop 4).takeWhile (decide <| · = newline) ≠ [] := by
      rw [← List.head?_drop] at hnl
      obtain ⟨u, hu⟩ := List.head?_eq_some_iff.mp hnl
      rw [hu, List.takeWhile_cons_of_pos (by simp)]
      simp
    rw [Pattern.find_of_ends (Pattern.ends_seq_of_ends hends), Pattern.find_opt]
    exact congrArg (fun n => some (4 + n)) (Nat.min_eq_right (List.length_pos_iff.mpr hlen))
  · have hlen : (t.drop 4).takeWhile (decide <| · = newline) = [] := by
      cases hu : t.drop 4 with
      | nil => rfl
      | cons c u =>
        rw [← List.head?_drop, hu, List.head?_cons, Option.some.injEq] at hnl
        exact List.takeWhile_cons_of_neg (by simp [hnl])
    rw [Pattern.find_of_ends (Pattern.ends_seq_of_ends hends), Pattern.find_opt]
    exact congrArg (fun w => some (4 + min (List.length w) 1)) hlen
  · exact Pattern.find_eq_none_iff.mpr (Pattern.ends_seq_eq_nil hends)

/-- The pattern of the front matter is the search for its closing dashes. -/
theorem find_frontmatter (content : Text) : frontmatter.find content =
    if startsWith content (units "---\n") then
      (indexOfText content (units "\n---") 4).map fun q =>
        q + 4 + (if content[q + 4]? = some newline then 1 else 0)
    else none := by
  have hends := find_lit "---\n" content
  split_ifs at hends ⊢ with hopen
  · have hfour : 4 ≤ content.length := (List.isPrefixOf_iff_prefix.mp hopen).length_le
    have hrun : (content.drop 4).takeWhile (fun _ => true) = content.drop 4 :=
      List.takeWhile_eq_self_iff.mpr fun _ _ => rfl
    have hrest : (Pattern.seq (.run (fun _ => true) 0 none false)
        (.seq (lit "\n---") (.opt (· = newline)))).find (content.drop 4) =
        ((List.range ((content.drop 4).length + 1)).find? fun n =>
          startsWith ((content.drop 4).drop n) (units "\n---")).map fun n =>
            n + (4 + if content[4 + n + 4]? = some newline then 1 else 0) := by
      have hends : (Pattern.run (fun _ : UInt16 => true) 0 none false).ends (content.drop 4) =
          List.range ((content.drop 4).length + 1) := by
        simp [Pattern.ends, hrun]
      rw [← findSome?_ite, Pattern.find, Pattern.ends_seq, List.head?_flatMap, hends]
      refine congrArg (List.findSome? · _) (funext fun n => ?_)
      rw [List.head?_map, ← Pattern.find, find_closing, List.drop_drop, List.getElem?_drop]
      split_ifs <;> rfl
    have hsearch : indexOfText content (units "\n---") 4 =
        ((List.range ((content.drop 4).length + 1)).find? fun n =>
          startsWith ((content.drop 4).drop n) (units "\n---")).map (4 + ·) := by
      have hlen : content.length + 1 - 4 = (content.drop 4).length + 1 := by
        rw [List.length_drop]
        omega
      rw [indexOfText, List.range'_eq_map_range, List.find?_map, hlen]
      refine congrArg (Option.map _ <| List.find? · _) (funext fun n => ?_)
      rw [Function.comp_apply, List.drop_drop]
    rw [frontmatter, Pattern.find_of_ends (Pattern.ends_seq_of_ends hends), hsearch]
    rw [show (units "---\n").length = 4 from rfl, hrest, Option.map_map, Option.map_map]
    refine congrArg (Option.map · _) (funext fun n => ?_)
    simp only [Function.comp_apply]
    omega
  · exact Pattern.find_eq_none_iff.mpr (Pattern.ends_seq_eq_nil hends)

theorem find_frontmatter_of_dashes (h : lineAt (lines content) 0 = dashes) :
    frontmatter.find content =
      (nextLine (lines content) 1 fun l => startsWith l dashes).map fun j =>
        pieceStart (lines content) j + 3 +
          (if content[pieceStart (lines content) j + 3]? = some newline then 1 else 0) := by
  rw [find_frontmatter]
  by_cases hlen : 1 < (lines content).length
  · rw [if_pos (startsWith_dashes.mpr ⟨h, hlen⟩), indexOf_dashes h]
    cases hnext : nextLine (lines content) 1 fun l => startsWith l dashes with
    | none => rfl
    | some j =>
      obtain ⟨hj, hlt, -, -⟩ := nextLine_eq_some.mp hnext
      have hbegin : lineEnd (lines content) (j - 1) + 4 = pieceStart (lines content) j + 3 := by
        have := pieceStart_next (L := lines content) (i := j - 1) (by omega)
        rw [Nat.sub_add_cancel (by omega)] at this
        omega
      simp only [Option.map_some, hbegin]
  · have hnone : nextLine (lines content) 1 (fun l => startsWith l dashes) = none :=
      nextLine_eq_none.mpr fun k h₁ h₂ => absurd h₂ (by omega)
    rw [if_neg fun hstart => hlen (startsWith_dashes.mp hstart).2, hnone]
    rfl

/-- What the command leaves behind the front matter it puts. -/
def rest (content : Text) : Text :=
  match frontmatter.find content with
  | some n => content.drop n
  | none => content

theorem startsWith_of_eq {l : Text} (h : l = dashes) : startsWith l dashes = true := by
  rw [h]
  decide

theorem frontmatterEnd_of_ne (h : lineAt ls 0 ≠ dashes) : frontmatterEnd ls = none := if_neg h

theorem length_of_dashes (h : lineAt (lines content) 0 = dashes) : 0 < content.length := by
  have hlen := lineEnd_le_length (s := content) (i := 0)
    (List.length_pos_iff.mpr (lines_ne_nil content))
  rw [lineEnd, h, pieceStart_zero] at hlen
  exact Nat.lt_of_lt_of_le (by decide) hlen

theorem drop_ne_self {n : Nat} (h : 0 < content.length) (hn : 0 < n) :
    content.drop n ≠ content := by
  intro heq
  have := congrArg List.length heq
  rw [List.length_drop] at this
  omega

theorem rest_eq_body_iff (content : Text) : rest content = body content ↔ EndsThere content := by
  by_cases h : lineAt (lines content) 0 = dashes
  · have hpos := length_of_dashes h
    have hfind := find_frontmatter_of_dashes h
    rw [EndsThere, or_iff_right (not_not_intro h), rest, body, frontmatterEnd_eq h, hfind]
    cases hopen : nextLine (lines content) 1 fun l => startsWith l dashes with
    | none =>
      cases hclose : nextLine (lines content) 0 fun l => decide (l = dashes) with
      | none =>
        refine iff_of_true rfl ⟨fun hsecond => ?_, by simp⟩
        have hlt : 1 < (lines content).length := by
          by_contra hle
          have hnil : lineAt (lines content) 1 = [] := by simp [lineAt, Nat.le_of_not_lt hle]
          exact absurd (hnil.symm.trans hsecond) (by decide)
        have hno := nextLine_eq_none.mp hclose 1 Nat.one_pos hlt
        exact of_decide_eq_false hno hsecond
      | some e =>
        obtain ⟨he, hlt, hline, -⟩ := nextLine_eq_some.mp hclose
        refine iff_of_false (fun heq => drop_ne_self hpos (Nat.succ_pos _) heq.symm) fun hends => ?_
        have hone : e ≠ 1 := fun hone => hends.1 (hone ▸ of_decide_eq_true hline)
        have hno := nextLine_eq_none.mp hopen e (by omega) hlt
        rw [startsWith_of_eq (of_decide_eq_true hline)] at hno
        simp at hno
    | some j =>
      obtain ⟨hj, hjlt, hjline, hjmin⟩ := nextLine_eq_some.mp hopen
      rw [hopen, Option.map_some] at hfind
      have hn := frontmatter.ends_le _ (List.mem_of_mem_head? hfind)
      simp only [Option.map_some, Option.mem_some_iff, forall_eq']
      cases hclose : nextLine (lines content) 0 fun l => decide (l = dashes) with
      | none =>
        refine iff_of_false (drop_ne_self hpos (by omega)) fun hends => ?_
        exact of_decide_eq_false (nextLine_eq_none.mp hclose j (by omega) hjlt) hends.2
      | some e =>
        obtain ⟨he, helt, heline, hemin⟩ := nextLine_eq_some.mp hclose
        have hiff : (lineAt (lines content) 1 ≠ dashes ∧ lineAt (lines content) j = dashes) ↔
            e = j := by
          constructor
          · rintro ⟨hsecond, hexact⟩
            rcases Nat.lt_trichotomy e j with hej | heq | hje
            · have hone : e ≠ 1 := fun hone => hsecond (hone ▸ of_decide_eq_true heline)
              have hno := hjmin e (by omega) hej
              rw [startsWith_of_eq (of_decide_eq_true heline)] at hno
              simp at hno
            · exact heq
            · exact absurd hexact (of_decide_eq_false (hemin j (by omega) hje))
          · rintro rfl
            exact ⟨of_decide_eq_false (hemin 1 Nat.one_pos hj), of_decide_eq_true heline⟩
        rw [hiff]
        have hend : lineEnd (lines content) e ≤ content.length := lineEnd_le_length helt
        have hfront := List.isPrefixOf_iff_prefix.mp hjline
        have hthree : 3 ≤ (lineAt (lines content) j).length := hfront.length_le
        have hjend : lineEnd (lines content) j = pieceStart (lines content) j +
          (lineAt (lines content) j).length := rfl
        constructor
        · intro heq
          have hlen := congrArg List.length heq
          rw [List.length_drop, List.length_drop] at hlen
          rcases Nat.lt_trichotomy e j with hej | hej | hje
          · have := lineEnd_lt (L := lines content) hej helt
            split_ifs at hn hlen <;> omega
          · exact hej
          · have hlt := lineEnd_lt (L := lines content) hje hjlt
            have hstart : pieceStart (lines content) e ≤ lineEnd (lines content) e :=
              Nat.le_add_right _ _
            have hne : lineAt (lines content) j ≠ dashes :=
              of_decide_eq_false (hemin j (by omega) hje)
            have hfour : 3 < (lineAt (lines content) j).length :=
              Nat.lt_of_le_of_ne hthree fun heq => hne (hfront.eq_of_length heq).symm
            split_ifs at hn hlen <;> omega
        · rintro rfl
          have hline := of_decide_eq_true heline
          have hlast : lineEnd (lines content) e = pieceStart (lines content) e + 3 := by
            rw [lineEnd, hline]
            rfl
          rw [← hlast] at hn ⊢
          by_cases hnext : e + 1 < (lines content).length
          · rw [if_pos (getElem?_lineEnd hnext)]
          · have hwhole : lineEnd (lines content) e = content.length := lineEnd_last (by omega)
            have hbody : content.drop (lineEnd (lines content) e + 1) = [] :=
              List.drop_eq_nil_of_le (by omega)
            rw [hwhole, if_neg (by simp), Nat.add_zero, List.drop_length]
            exact hbody.symm
  · have hnone : frontmatter.find content = none := by
      rw [find_frontmatter, if_neg fun hstart => h (startsWith_dashes.mp hstart).1]
    rw [rest, hnone, body, frontmatterEnd_of_ne h]
    exact iff_of_true rfl (.inl h)

/-! ### What the command writes -/

theorem mem_yaml (h : yaml entries = some ls) :
    (∀ e ∈ entries, ∃ v, formatYamlValue e.2 = some v ∧ e.1 ++ units ": " ++ v ∈ ls) ∧
      ∀ l ∈ ls, ∃ e ∈ entries, ∃ v, formatYamlValue e.2 = some v ∧ l = e.1 ++ units ": " ++ v := by
  induction entries generalizing ls with
  | nil =>
    obtain rfl : [] = ls := Option.some.inj h
    simp
  | cons e entries ih =>
    rw [yaml_cons] at h
    obtain ⟨v, hv, h⟩ := Option.bind_eq_some_iff.mp h
    obtain ⟨ls', hls, h⟩ := Option.bind_eq_some_iff.mp h
    obtain rfl := Option.some.inj h
    obtain ⟨hto, hfrom⟩ := ih hls
    refine ⟨fun e' he' => ?_, fun l hl => ?_⟩
    · rcases List.mem_cons.mp he' with rfl | he'
      · exact ⟨v, hv, List.mem_cons_self⟩
      · obtain ⟨v', hv', hmem⟩ := hto e' he'
        exact ⟨v', hv', List.mem_cons_of_mem _ hmem⟩
    · rcases List.mem_cons.mp hl with rfl | hl
      · exact ⟨e, List.mem_cons_self, v, hv, rfl⟩
      · obtain ⟨e', he', hline⟩ := hfrom l hl
        exact ⟨e', List.mem_cons_of_mem _ he', hline⟩

/-- The text after the command. -/
def written (ls : List Text) (content : Text) : Text :=
  dashes ++ newline :: (join [newline] ls ++ newline :: (dashes ++ newline :: rest content))

theorem ensureFrontmatter_text (state : EditorState) (h : yaml entries = some ls) :
    ∃ r, ensureFrontmatter state entries = some r ∧ r.text = some (written ls state.text) := by
  have hblock : frontmatterBlock entries =
      some (units "---\n" ++ join [newline] ls ++ units "\n---\n") := by
    rw [frontmatterBlock, ← yaml, h]
    rfl
  have hopen : units "---\n" = dashes ++ [newline] := by decide
  have hclose : units "\n---\n" = newline :: (dashes ++ [newline]) := by decide
  rw [ensureFrontmatter, hblock, Option.bind_eq_bind, Option.bind_some, written, rest]
  cases hfind : frontmatter.find state.text with
  | some n =>
    refine ⟨_, rfl, ?_⟩
    simp only [replaceRange, slice_nat, List.take_length, hopen, hclose]
    simp [slice]
  | none =>
    refine ⟨_, rfl, ?_⟩
    simp only [replaceRange, slice_nat, List.take_length, hopen, hclose]
    simp [slice]

/-- The lines between the delimiters. -/
def middle (ls : List Text) : List Text := lines (join [newline] ls)

theorem lines_written (ls : List Text) (content : Text) : lines (written ls content) =
    dashes :: (middle ls ++ dashes :: lines (rest content)) := by
  rw [written, lines_append_newline, lines_append_newline, lines_append_newline,
    lines_eq_singleton newline_notMem_dashes]
  rfl

theorem middle_eq (h : ∀ l ∈ ls, newline ∉ l) : middle ls = if ls = [] then [[]] else ls := by
  split_ifs with hls
  · rw [hls]
    rfl
  · exact lines_join hls h

/-- The front matter that was written is the one the splitter finds. -/
theorem frontmatterEnd_written (h : dashes ∉ middle ls) (content : Text) :
    frontmatterEnd (lines (written ls content)) = some ((middle ls).length + 1) := by
  rw [lines_written, frontmatterEnd_eq (by rfl)]
  generalize middle ls = mid at h
  refine nextLine_eq_some.mpr ⟨Nat.succ_pos _, by simp, ?_, fun k hk hlt => ?_⟩
  · simp [lineAt]
  · obtain ⟨k, rfl⟩ : ∃ i, k = i + 1 := ⟨k - 1, by omega⟩
    have hlt' : k < mid.length := by omega
    refine decide_eq_false fun heq => h ?_
    have hline : lineAt (dashes :: (mid ++ dashes :: lines (rest content))) (k + 1) = mid[k] := by
      simp [lineAt, List.getElem?_append_left hlt', hlt']
    rw [← heq, hline]
    exact List.getElem_mem hlt'

theorem front_written (h : dashes ∉ middle ls) (content : Text) :
    front (written ls content) = middle ls := by
  rw [front, frontmatterEnd_written h, lines_written]
  simp

theorem body_written (h : dashes ∉ middle ls) (content : Text) :
    body (written ls content) = rest content := by
  have hlen : (middle ls).length + 1 < (lines (written ls content)).length := by
    rw [lines_written]
    simp
  have hlen' : (middle ls).length + 1 + 1 < (lines (written ls content)).length := by
    have hpos := List.length_pos_iff.mpr (lines_ne_nil (rest content))
    rw [lines_written]
    simp
    omega
  have hdrop := drop_pieceStart newline hlen'
  rw [join_lines, pieceStart_next hlen] at hdrop
  have hlines : (lines (written ls content)).drop ((middle ls).length + 1 + 1) =
      lines (rest content) := by
    rw [lines_written]
    simp
  rw [body, frontmatterEnd_written h]
  simp only
  rw [hdrop, hlines, join_lines]

theorem front_subset (content : Text) {l : Text} (h : l ∈ front content) : l ∈ lines content := by
  unfold front at h
  split at h
  · exact List.mem_of_mem_take (List.mem_of_mem_drop h)
  · simp at h

theorem dashes_notMem_middle (hyaml : yaml entries = some ls) (h : ∀ l ∈ ls, newline ∉ l) :
    dashes ∉ middle ls := by
  rw [middle_eq h]
  split_ifs with hls
  · decide
  · intro hmem
    obtain ⟨e, -, v, -, hl⟩ := (mem_yaml hyaml).2 _ hmem
    have hcolon : unit ':' ∈ dashes := by
      rw [hl]
      simp [units, unit]
    exact absurd hcolon (by decide)

/-- Setting metadata keeps the rest of a note where its front matter ends where the command takes it
to end and sets no other keys, and the entries can be written on a line each. -/
theorem metadata_keeps_iff (state : EditorState) (entries : Values) : Keeps state entries ↔
    EndsThere state.text ∧ ∃ ls, yaml entries = some ls ∧ (∀ l ∈ ls, newline ∉ l) ∧
      ∀ l ∈ front state.text, ∀ k ∈ keyOf l, (∃ e ∈ entries, e.1 = k) ∨ l ∈ ls := by
  rw [← rest_eq_body_iff]
  cases hyaml : yaml entries with
  | none =>
    refine iff_of_false ?_ (by simp)
    rintro ⟨r, text, hr, -⟩
    have hblock : frontmatterBlock entries = none := by
      rw [frontmatterBlock, ← yaml, hyaml]
      rfl
    rw [ensureFrontmatter, hblock] at hr
    simp at hr
  | some ls =>
    obtain ⟨r, hr, htext⟩ := ensureFrontmatter_text state hyaml
    have hkeeps : Keeps state entries ↔
        frontmatterEnd (lines (written ls state.text)) ≠ none ∧
        (∀ e ∈ entries, ∃ v, formatYamlValue e.2 = some v ∧
          e.1 ++ units ": " ++ v ∈ front (written ls state.text)) ∧
        (∀ l ∈ front state.text, ∀ k ∈ keyOf l, (∀ e ∈ entries, e.1 ≠ k) →
          l ∈ front (written ls state.text)) ∧
        body (written ls state.text) = body state.text := by
      rw [Keeps, hr]
      simp [htext]
    have hno : (∀ e ∈ entries, ∃ v, formatYamlValue e.2 = some v ∧
        e.1 ++ units ": " ++ v ∈ front (written ls state.text)) → ∀ l ∈ ls, newline ∉ l := by
      intro hfront l hl
      obtain ⟨e, he, v, hv, rfl⟩ := (mem_yaml hyaml).2 l hl
      obtain ⟨v', hv', hmem⟩ := hfront e he
      rw [hv] at hv'
      rw [Option.some.inj hv']
      exact newline_notMem _ _ (front_subset _ hmem)
    rw [hkeeps]
    simp only [Option.some.injEq, exists_eq_left']
    by_cases hlines : ∀ l ∈ ls, newline ∉ l
    · have hdash := dashes_notMem_middle hyaml hlines
      have hmiddle : ∀ l, l ≠ [] → (l ∈ middle ls ↔ l ∈ ls) := fun l hl => by
        rw [middle_eq hlines]
        split_ifs with hls
        · simp [hls, hl]
        · exact Iff.rfl
      have hne : ∀ l, ∀ k ∈ keyOf l, l ≠ [] := by
        rintro l k hk rfl
        simp [keyOf] at hk
      rw [frontmatterEnd_written hdash, front_written hdash, body_written hdash]
      constructor
      · rintro ⟨-, -, hother, hbody⟩
        refine ⟨hbody, hlines, fun l hl k hk => ?_⟩
        by_cases hkey : ∃ e ∈ entries, e.1 = k
        · exact .inl hkey
        · exact .inr ((hmiddle l (hne l k hk)).mp
            (hother l hl k hk fun e he heq => hkey ⟨e, he, heq⟩))
      · rintro ⟨hbody, -, hother⟩
        refine ⟨by simp, fun e he => ?_, fun l hl k hk hkey => ?_, hbody⟩
        · obtain ⟨v, hv, hmem⟩ := (mem_yaml hyaml).1 e he
          exact ⟨v, hv, (hmiddle _ (by simp [units])).mpr hmem⟩
        · refine (hmiddle l (hne l k hk)).mpr ((hother l hl k hk).resolve_left ?_)
          rintro ⟨e, he, heq⟩
          exact hkey e he heq
    · exact iff_of_false (fun h => hlines (hno h.2.1)) fun h => hlines h.2.1

/-- `title: new`. -/
def titled : Values := [(units "title", .ofText (units "new"))]

theorem metadata_keeps_title : Keeps ⟨units "---\ntitle: old\n---\nBody", 0, 0⟩ titled := by
  refine (metadata_keeps_iff ⟨units "---\ntitle: old\n---\nBody", 0, 0⟩ titled).mpr
    ⟨by decide +kernel, [units "title: \"new\""], rfl, fun l hl => ?_, fun l hl k hk => ?_⟩
  · rw [List.mem_singleton.mp hl]
    decide
  have hfront : front (units "---\ntitle: old\n---\nBody") = [units "title: old"] := by
    decide +kernel
  have hkey : keyOf (units "title: old") = some (units "title") := by decide +kernel
  rw [hfront, List.mem_singleton] at hl
  rw [hl, hkey, Option.mem_some_iff] at hk
  exact .inl ⟨_, List.mem_cons_self, hk⟩

/-- A new title drops the tags. -/
theorem metadata_drops_tags : ∃ (state : EditorState) (entries : Values), state.Valid ∧
    ¬ Keeps state entries := by
  refine ⟨⟨units "---\ntags: [a]\n---\n", 0, 0⟩, titled, ⟨by decide, by decide⟩, ?_⟩
  rintro ⟨r, text, hr, htext, -, -, hother, -⟩
  have hnew : (ensureFrontmatter ⟨units "---\ntags: [a]\n---\n", 0, 0⟩ titled).bind Spec.text =
      some (units "---\ntitle: \"new\"\n---\n") := by decide +kernel
  rw [hr, Option.bind_some, htext, Option.some.injEq] at hnew
  have hfront : front (units "---\ntags: [a]\n---\n") = [units "tags: [a]"] := by decide +kernel
  have hkey : keyOf (units "tags: [a]") = some (units "tags") := by decide +kernel
  have hkept := hother (units "tags: [a]") (by rw [hfront]; exact List.mem_cons_self)
    (units "tags") (by rw [hkey]; rfl) fun e he => by
      rw [List.mem_singleton.mp he]
      exact (by decide : units "title" ≠ units "tags")
  rw [hnew] at hkept
  exact absurd hkept (by decide +kernel)

end Mdock.Editor.Metadata
