import Mdock.Editor.Lines

/-! Commands that rewrite the lines of the selection, one after the other. -/
namespace Mdock.Editor.Commands
open Mdock.Js Mdock.Lib

variable {state : EditorState} {next : Text → Text} {A B v w : Text}

/-- The state of the editor after a command. -/
def Spec.resume (r : Spec) : Option EditorState := do
  let text ← r.text
  let selectionStart ← r.selectionStart.join
  let selectionEnd ← r.selectionEnd.join
  return ⟨text, selectionStart.toNat, selectionEnd.toNat⟩

/-- The text after a command, and the same command with the selection it returns. -/
def twice (command : EditorState → Spec) (state : EditorState) : Option Text := do
  let state ← (command state).resume
  (command state).text

/-! ### The block -/

theorem slice_between (A w B : Text) :
    slice (A ++ w ++ B) A.length (A.length + w.length : Nat) = w := by
  rw [slice_nat, ← List.length_append, List.take_left, List.drop_left]

theorem selectedText_between (A w B : Text) :
    selectedText ⟨A ++ w ++ B, A.length, A.length + w.length⟩ =
      ⟨A.length, A.length + w.length, w⟩ := by
  simp only [selectedText, Nat.min_eq_left (Nat.le_add_right _ _),
    Nat.max_eq_right (Nat.le_add_right _ _), slice_between]

/-- What stands between whole lines is the block of its own selection. -/
theorem selectedLineBlock_between (hA : A = [] ∨ ∃ A', A = A' ++ [newline])
    (hB : B = [] ∨ ∃ B', B = newline :: B') (hhead : A = [] → (w ++ B).head? ≠ some newline) :
    selectedLineBlock ⟨A ++ w ++ B, A.length, A.length + w.length⟩ =
      ⟨A.length, A.length + w.length, w⟩ := by
  have hstart : (lastIndexOf (A ++ w ++ B) newline (A.length - 1)).elim 0 (· + 1) = A.length := by
    rcases hA with rfl | ⟨A', rfl⟩
    · rw [lastIndexOf_eq_none.mpr fun r hr hget => ?_]
      · rfl
      · obtain rfl : r = 0 := by simpa using hr
        exact hhead rfl (by rwa [List.head?_eq_getElem?])
    · have hlast : lastIndexOf (A' ++ [newline] ++ w ++ B) newline ((A' ++ [newline]).length - 1) =
          some A'.length := by
        refine lastIndexOf_eq_some.mpr ⟨by simp, by simp, fun r h₁ h₂ => ?_⟩
        simp at h₂
        omega
      rw [hlast]
      simp
  have hstop : (indexOf (A ++ w ++ B) newline (A.length + w.length)).getD (A ++ w ++ B).length =
      A.length + w.length := by
    rcases hB with rfl | ⟨B', rfl⟩
    · rw [indexOf_eq_none.mpr fun r hr hget => ?_]
      · simp
      · have := (List.getElem?_eq_some_iff.mp hget).1
        simp at this
        omega
    · have hnext : indexOf (A ++ w ++ newline :: B') newline (A.length + w.length) =
          some (A.length + w.length) := by
        refine indexOf_eq_some.mpr ⟨Nat.le_refl _, ?_, fun r h₁ h₂ => absurd h₁ (by omega)⟩
        rw [List.getElem?_append_right (by simp)]
        simp
      rw [hnext]
      rfl
  simp only [selectedLineBlock, selectedText_between, hstart, hstop, slice_between]

/-- The text in front of the block, the block, and the text behind it. -/
theorem block_split (h : state.Valid) (hq : ¬ AtLeadingNewline state) :
    ∃ A B, (A = [] ∨ ∃ A', A = A' ++ [newline]) ∧ (B = [] ∨ ∃ B', B = newline :: B') ∧
      state.text = A ++ (selectedLineBlock state).value ++ B ∧
      (selectedLineBlock state).start = A.length ∧
      (A = [] → state.text.head? ≠ some newline) ∧ ∀ next,
        (replaceBlock state next).text = some (A ++ next (selectedLineBlock state).value ++ B) := by
  obtain ⟨hstart, hstop⟩ := selectedLineBlock_eq h
  obtain ⟨hle, hlt⟩ := firstLine_le_lastLine h hq
  have hfirst : pieceStart (lines state.text) (firstLine state) ≤
      lineEnd (lines state.text) (firstLine state) := Nat.le_add_right _ _
  have hends := lineEnd_mono hle hlt
  have hlen := lineEnd_le_length hlt
  refine ⟨state.text.take (pieceStart (lines state.text) (firstLine state)),
    state.text.drop (lineEnd (lines state.text) (lastLine state)), ?_, ?_, ?_, ?_, ?_,
    replaceBlock_text h⟩
  · cases hf : firstLine state with
    | zero => exact .inl (by rw [pieceStart_zero, List.take_zero])
    | succ k =>
      refine .inr ⟨state.text.take (lineEnd (lines state.text) k), ?_⟩
      rw [pieceStart_next (by omega), List.take_add_one, getElem?_lineEnd (by omega)]
      rfl
  · by_cases hnext : lastLine state + 1 < (lines state.text).length
    · obtain ⟨hin, hget⟩ := List.getElem?_eq_some_iff.mp (getElem?_lineEnd hnext)
      rw [List.drop_eq_getElem_cons hin, hget]
      exact .inr ⟨_, rfl⟩
    · rw [lineEnd_last (by omega), List.drop_length]
      exact .inl rfl
  · refine ((splice_eq_self (by omega)).mpr ?_).symm
    have hvalue : (selectedLineBlock state).value =
        slice state.text (selectedLineBlock state).start (selectedLineBlock state).stop := rfl
    rw [hvalue, hstart, hstop, slice_nat]
  · rw [hstart, List.length_take, Nat.min_eq_left (by omega)]
  · intro hA hnl
    rw [List.head?_eq_getElem?] at hnl
    obtain ⟨hend, -⟩ := lineEnd_zero hnl
    have hzero : pieceStart (lines state.text) (firstLine state) = 0 := by
      rcases List.take_eq_nil_iff.mp hA with hzero | hnil
      · exact hzero
      · simp [hnil] at hnl
    have hline : firstLine state = 0 := by
      by_contra hpos
      have := lineEnd_lt (L := lines state.text) (i := 0) (k := firstLine state) (by omega)
        (by omega)
      omega
    unfold firstLine at hline
    split_ifs at hline with hquirk
    obtain ⟨-, -, hsend⟩ := lineOf_spec (Nat.le_trans h.1 h.2)
    rw [hline, hend] at hsend
    exact hquirk ⟨Nat.le_zero.mp hsend, hnl⟩

/-- A rewriting does not leave the block without the text it began with. -/
def KeepsHead (next : Text → Text) (v : Text) : Prop :=
  ((next v).head? = some newline → v.head? = some newline) ∧ (next v = [] → v = [])

theorem resume_replaceBlock (state : EditorState) (next : Text → Text) :
    (replaceBlock state next).resume = (replaceBlock state next).text.map fun text =>
      ⟨text, (selectedLineBlock state).start,
        (selectedLineBlock state).start + (next (selectedLineBlock state).value).length⟩ := by
  simp [Spec.resume, replaceBlock, replaceRange]
  omega

/-- The state after a rewriting has the new lines for its block. -/
theorem block_again (hA : A = [] ∨ ∃ A', A = A' ++ [newline])
    (hB : B = [] ∨ ∃ B', B = newline :: B') (hnl : A = [] → (A ++ v ++ B).head? ≠ some newline)
    (hhead : KeepsHead next v) :
    selectedLineBlock ⟨A ++ next v ++ B, A.length, A.length + (next v).length⟩ =
      ⟨A.length, A.length + (next v).length, next v⟩ := by
  refine selectedLineBlock_between hA hB fun hnil hnext => ?_
  subst hnil
  refine hnl rfl ?_
  rw [List.nil_append]
  cases hw : next v with
  | nil =>
    rw [hw] at hnext
    rwa [hhead.2 hw]
  | cons c w =>
    rw [hw] at hnext
    have hv := hhead.1 (by rw [hw]; exact hnext)
    cases v with
    | nil => simp at hv
    | cons d v => exact hv

theorem replaceRange_between (A w B x : Text) (i j : Nat) (p q : Position) :
    (replaceRange ⟨A ++ w ++ B, i, j⟩ A.length (A.length + w.length) x p q).text =
      some (A ++ x ++ B) := by
  have htake : (A ++ w ++ B).take A.length = A := by rw [List.append_assoc, List.take_left]
  have hdrop : (A ++ w ++ B).drop (A.length + w.length) = B := by
    rw [← List.length_append, List.drop_left]
  rw [replaceRange, slice_zero, slice_nat, List.take_length, htake, hdrop]

/-- A rewriting of lines is done again on what it put for the block. -/
theorem twice_replaceBlock (h : state.Valid) (hq : ¬ AtLeadingNewline state)
    (hhead : KeepsHead next (selectedLineBlock state).value) :
    twice (fun s => replaceBlock s next) state = some state.text ↔
      next (next (selectedLineBlock state).value) = (selectedLineBlock state).value := by
  obtain ⟨A, B, hA, hB, htext, hstart, hnl, hreplace⟩ := block_split h hq
  rw [htext] at hnl
  have hagain := block_again hA hB hnl hhead
  rw [twice, resume_replaceBlock, hreplace, hstart]
  simp only [Option.map_some, Option.bind_eq_bind, Option.bind_some]
  rw [replaceBlock, hagain, replaceRange_between, Option.some.injEq]
  constructor
  · intro heq
    rw [htext] at heq
    exact List.append_cancel_left (List.append_cancel_right heq)
  · intro heq
    rw [heq]
    exact htext.symm

/-- With the caret at the leading newline a rewriting that leaves empty lines does not come back. -/
theorem twice_atLeadingNewline (h : state.Valid) (hq : AtLeadingNewline state)
    (hempty : next [] = []) : twice (fun s => replaceBlock s next) state ≠ some state.text := by
  obtain ⟨rest, hrest⟩ := exists_cons_of_newline hq.2.2
  have hvalue := block_atLeadingNewline h hq
  have hstart : (selectedLineBlock state).start = ([newline] : Text).length := by
    have hone := (selectedLineBlock_eq h).1
    obtain ⟨hend, hlen⟩ := lineEnd_zero hq.2.2
    rw [hone, firstLine, if_pos ⟨hq.1, hq.2.2⟩, pieceStart_next (Nat.zero_lt_of_lt hlen), hend]
    rfl
  have hagain : selectedLineBlock ⟨[newline] ++ [] ++ newline :: rest, ([newline] : Text).length,
      ([newline] : Text).length + ([] : Text).length⟩ = ⟨1, 1, []⟩ :=
    selectedLineBlock_between (.inr ⟨[], rfl⟩) (.inr ⟨rest, rfl⟩) (by simp)
  rw [twice, resume_replaceBlock, replaceBlock_atLeadingNewline h hq, hvalue, hempty, hstart, hrest]
  simp only [Option.map_some, Option.bind_eq_bind, Option.bind_some]
  have htext : (replaceBlock ⟨newline :: [] ++ newline :: rest, ([newline] : Text).length,
      ([newline] : Text).length + ([] : Text).length⟩ next).text =
        some (newline :: newline :: rest) := by
    rw [replaceBlock, show newline :: [] ++ newline :: rest = [newline] ++ [] ++ newline :: rest
      from rfl, hagain]
    change some (slice _ 0 (1 : Nat) ++ next [] ++ slice _ (1 : Nat) (_ : Nat)) = _
    rw [slice_zero, slice_nat, hempty]
    simp
  rw [htext]
  simp

section
variable {l : Text} {ls : List Text}

theorem join_cons_head (ls : List Text) (h : newline ∉ l) :
    ((join [newline] (l :: ls)).head? = some newline ↔ l = [] ∧ ls ≠ []) ∧
      (join [newline] (l :: ls) = [] ↔ l = [] ∧ ls = []) := by
  cases ls with
  | nil =>
    rw [join, List.intercalate_singleton]
    refine ⟨⟨fun hhead => absurd (List.mem_of_mem_head? hhead) h, fun hne => absurd rfl hne.2⟩, ?_⟩
    simp
  | cons l' ls =>
    rw [join, List.intercalate_cons_cons]
    cases l with
    | nil => simp
    | cons c l =>
      have hc : c ≠ newline := fun hc => h (hc ▸ List.mem_cons_self)
      simp [hc]

theorem keepsHead_join {f : List Text → List Text} {v : Text}
    (hlen : (f (lines v)).length = (lines v).length) (hno : ∀ l ∈ f (lines v), newline ∉ l)
    (hempty : (f (lines v)).head? = some [] → (lines v).head? = some []) :
    KeepsHead (fun v => join [newline] (f (lines v))) v := by
  obtain ⟨l, ls, hl⟩ := List.exists_cons_of_ne_nil (lines_ne_nil v)
  obtain ⟨l', ls', hl'⟩ := List.exists_cons_of_ne_nil
    (List.ne_nil_of_length_pos (hlen ▸ List.length_pos_iff.mpr (lines_ne_nil v)))
  have hold := join_cons_head ls (newline_notMem v l (hl ▸ List.mem_cons_self))
  have hnew := join_cons_head ls' (hno l' (hl' ▸ List.mem_cons_self))
  have hv : v = join [newline] (l :: ls) := by rw [← hl, join, join_lines]
  rw [hl', hl] at hempty hlen
  have hnil : l' = [] → l = [] := by simpa using hempty
  have hls : ls' = [] ↔ ls = [] := by
    rw [List.length_cons, List.length_cons, Nat.add_right_cancel_iff] at hlen
    rw [← List.length_eq_zero_iff, ← List.length_eq_zero_iff, hlen]
  simp only [KeepsHead, hl']
  rw [hv, hold.1, hold.2, hnew.1, hnew.2, ne_eq, hls]
  exact ⟨fun h => ⟨hnil h.1, h.2⟩, fun h => ⟨hnil h.1, h.2⟩⟩

theorem lines_mapLines {mapper : Text → Text} (h : KeepsNewlines mapper) (v : Text) :
    lines (mapLines mapper v) = (lines v).map mapper :=
  lines_join_map (f := List.map mapper) (fun _ => List.length_map _) fun l hl => by
    obtain ⟨l', hl', rfl⟩ := List.mem_map.mp hl
    exact h l' (newline_notMem v l' hl')

theorem mapLines_mapLines {mapper : Text → Text} (h : KeepsNewlines mapper) (v : Text) :
    mapLines mapper (mapLines mapper v) = v ↔ ∀ l ∈ lines v, mapper (mapper l) = l := by
  have htwice : lines (mapLines mapper (mapLines mapper v)) =
      (lines v).map fun l => mapper (mapper l) := by
    rw [lines_mapLines h, lines_mapLines h, List.map_map]
    rfl
  constructor
  · intro heq
    rw [heq] at htwice
    exact List.map_inj_left.mp (htwice.symm.trans (List.map_id _).symm)
  · intro hall
    rw [List.map_congr_left hall, List.map_id'] at htwice
    rw [← join_lines (mapLines mapper (mapLines mapper v)), htwice, join_lines]

/-! ### Blank lines -/

theorem trimStart_eq_nil_iff : trimStart l = [] ↔ ∀ c ∈ l, isSpace c = true := by
  rw [trimStart, List.dropWhile_eq_nil_iff]

theorem isSpace_of_trimStart (h : trimStart l = c :: t) : isSpace c = false := by
  induction l with
  | nil => simp [trimStart] at h
  | cons d l ih =>
    rw [trimStart, List.dropWhile_cons] at h
    split at h
    next => exact ih h
    next hd =>
      rw [(List.cons.inj h).1] at hd
      exact Bool.eq_false_of_not_eq_true hd

theorem blank_iff : blank l = true ↔ ∀ c ∈ l, isSpace c = true := by
  rw [blank, decide_eq_true_iff, trim, List.reverse_eq_nil_iff, trimStart_eq_nil_iff]
  constructor
  · intro h
    have hall : ∀ c ∈ trimStart l, isSpace c = true := fun c hc => h c (List.mem_reverse.mpr hc)
    rw [← trimStart_eq_nil_iff]
    cases ht : trimStart l with
    | nil => rfl
    | cons d t =>
      have hd := hall d (by rw [ht]; exact List.mem_cons_self)
      rw [isSpace_of_trimStart ht] at hd
      exact absurd hd (by decide)
  · intro h c hc
    have hnil := trimStart_eq_nil_iff.mpr h
    rw [hnil] at hc
    simp at hc

/-- A line that is not blank is its indentation and a text that begins with no space. -/
theorem indent_split (h : blank l = false) : ∃ c t, isSpace c = false ∧ trimStart l = c :: t ∧
    l = l.takeWhile isSpace ++ c :: t := by
  cases ht : trimStart l with
  | nil =>
    rw [blank_iff.mpr (trimStart_eq_nil_iff.mp ht)] at h
    simp at h
  | cons c t =>
    refine ⟨c, t, isSpace_of_trimStart ht, rfl, ?_⟩
    rw [← ht, trimStart, List.takeWhile_append_dropWhile]

/-- What marks begin with is no space. -/
theorem head_of_isSpace {c : UInt16} (h : isSpace c = true) :
    decide (c ∈ units "-*+") = false ∧ isDigit c = false ∧ decide (c = unit '-') = false := by
  have hrange : c < unit '0' ∨ unit '9' < c := by
    simp only [isSpace, Bool.or_eq_true, decide_eq_true_iff, Bool.and_eq_true, List.mem_cons,
      List.not_mem_nil, or_false] at h
    rcases h with (rfl | rfl | rfl | rfl | rfl | rfl | rfl | rfl | rfl | rfl | rfl | rfl | rfl | rfl) | h
    all_goals first
      | decide
      | exact .inr (UInt16.lt_of_lt_of_le (by decide) h.1)
  refine ⟨decide_eq_false fun hmem => ?_, ?_, decide_eq_false fun heq => ?_⟩
  · have hcases : c = unit '-' ∨ c = unit '*' ∨ c = unit '+' := by simpa [units, unit] using hmem
    rcases hcases with rfl | rfl | rfl <;> exact absurd h (by decide)
  · refine Bool.eq_false_of_not_eq_true fun hdigit => ?_
    simp only [isDigit, Bool.and_eq_true, decide_eq_true_iff] at hdigit
    rcases hrange with hlt | hlt
    · exact absurd hdigit.1 (UInt16.not_le.mpr hlt)
    · exact absurd hdigit.2 (UInt16.not_le.mpr hlt)
  · rw [heq] at h
    exact absurd h (by decide)

end

end Mdock.Editor.Commands
