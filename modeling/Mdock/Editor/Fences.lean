import Mdock.Editor.Partition

/-! Where a fenced code block ends, against the line that closes its fence. -/
namespace Mdock.Editor.Blocks
open Mdock.Js Mdock.Lib Mdock.Editor.Commands

variable {random : Nat → Text} {content line opener : Text} {ls : List Text} {i j index : Nat}
  {b : SplitBlock} {r : Stretch}

/-- The character and the length of the fence a line begins with. -/
def fenceChar (line : Text) : UInt16 := (trimStart line).headD 0

def fenceLength (line : Text) : Nat :=
  ((trimStart line).takeWhile (decide <| · = fenceChar line)).length

/-- The line is a fence of the character of the opening one, at least as long, with only blanks
behind it. -/
def Closes (opener line : Text) : Prop :=
  (lead.seq (.seq (.run (decide <| · = fenceChar opener) (fenceLength opener) none true)
    (.star isSpace))).Matches line

instance (opener line : Text) : Decidable (Closes opener line) :=
  inferInstanceAs (Decidable (Pattern.Matches _ _))

/-- Where the code that line `i` opens has to end. -/
def codeEnd (content : Text) (i : Nat) : Nat :=
  let ls := lines content
  ((nextLine ls i fun line => decide (Closes (lineAt ls i) line)).map (lineEnd ls)).getD
    content.length

theorem isFenceStart_iff : isFenceStart line = true ↔
    ∃ u c v, line = u ++ c :: c :: c :: v ∧ u.length ≤ 3 ∧ (∀ d ∈ u, isSpace d = true) ∧
      (c = unit '`' ∨ c = unit '~') := by
  simp only [isFenceStart, Pattern.test_iff, Pattern.matches_seq, Pattern.matches_alt, lead, lit,
    Pattern.matches_run, Pattern.matches_literal]
  constructor
  · rintro ⟨_, v, rfl, u, w, rfl, ⟨hspace, hmost, -⟩, rfl | rfl⟩
    · exact ⟨u, _, v, by simp [units, unit], hmost 3 rfl, hspace, .inl rfl⟩
    · exact ⟨u, _, v, by simp [units, unit], hmost 3 rfl, hspace, .inr rfl⟩
  · rintro ⟨u, c, v, rfl, hmost, hspace, rfl | rfl⟩
    · exact ⟨_, v, by simp [units, unit], u, units "```", rfl, ⟨hspace, by simpa, by simp⟩,
        .inl rfl⟩
    · exact ⟨_, v, by simp [units, unit], u, units "~~~", rfl, ⟨hspace, by simpa, by simp⟩,
        .inr rfl⟩

theorem fence_of_isFenceStart (h : isFenceStart line = true) :
    (fenceChar line = unit '`' ∨ fenceChar line = unit '~') ∧ 3 ≤ fenceLength line := by
  obtain ⟨u, c, v, rfl, -, hspace, hc⟩ := isFenceStart_iff.mp h
  have hno : isSpace c = false := by rcases hc with rfl | rfl <;> decide
  have htrim : trimStart (u ++ c :: c :: c :: v) = c :: c :: c :: v := by
    rw [trimStart, List.dropWhile_append_of_pos hspace, List.dropWhile_cons_of_neg (by simp [hno])]
  simp only [fenceChar, fenceLength, htrim]
  exact ⟨hc, by simp⟩

/-- What closes a fence begins like one. -/
theorem Closes.isFenceStart (hopen : isFenceStart opener = true) (h : Closes opener line) :
    isFenceStart line = true := by
  obtain ⟨hchar, hlength⟩ := fence_of_isFenceStart hopen
  simp only [Closes, Pattern.matches_seq, lead, Pattern.matches_run] at h
  obtain ⟨u, _, rfl, ⟨hspace, hmost, -⟩, w, t, rfl, ⟨hall, -, hleast⟩, -⟩ := h
  obtain ⟨a, b, c, w, rfl⟩ : ∃ a b c w', w = a :: b :: c :: w' := by
    match w, hleast with
    | a :: b :: c :: w', _ => exact ⟨a, b, c, w', rfl⟩
    | [], h | [_], h | [_, _], h => simp at h; omega
  have hmem : ∀ d ∈ a :: b :: c :: w, d = fenceChar opener := fun d hd => of_decide_eq_true (hall d hd)
  obtain rfl := hmem a (by simp)
  obtain rfl := hmem b (by simp)
  obtain rfl := hmem c (by simp)
  exact isFenceStart_iff.mpr ⟨u, fenceChar opener, w ++ t, by simp, hmost 3 rfl, hspace, hchar⟩

/-- The loop over the lines of a code block looks for the next fence. -/
theorem advance_eq_nextLine (p : Text → Bool) (h : i < ls.length) :
    advance (fun k => !p (lineAt ls k)) ls.length (i + 1) = (nextLine ls i p).getD ls.length := by
  have hle : i < advance (fun k => !p (lineAt ls k)) ls.length (i + 1) := le_advance _ _ _
  have hpass : ∀ k, i < k → k < advance (fun k => !p (lineAt ls k)) ls.length (i + 1) →
      p (lineAt ls k) = false := fun k h₁ h₂ => by simpa using of_lt_advance h₁ h₂
  rcases Nat.lt_or_eq_of_le (advance_le (p := fun k => !p (lineAt ls k)) h) with hlt | heq
  · have hstop : p (lineAt ls (advance (fun k => !p (lineAt ls k)) ls.length (i + 1))) = true := by
      simpa using not_of_advance_lt hlt
    rw [nextLine_eq_some.mpr ⟨hle, hlt, hstop, hpass⟩, Option.getD_some]
  · rw [heq] at hpass
    rw [nextLine_eq_none.mpr hpass, Option.getD_none, heq]

theorem blockFrom_code (hi : i < ls.length) (h : (blockFrom ls i).1.type = .code) :
    isFenceStart (lineAt ls i) = true ∧
      (blockFrom ls i).1.last = (nextLine ls i isFenceStart).getD (ls.length - 1) := by
  unfold blockFrom at h ⊢
  simp only [advance_eq_nextLine isFenceStart hi] at h ⊢
  split_ifs at h ⊢ with hfence hlt
  · refine ⟨hfence, ?_⟩
    cases hnext : nextLine ls i isFenceStart with
    | none => simp [hnext] at hlt
    | some j => rfl
  · refine ⟨hfence, ?_⟩
    cases hnext : nextLine ls i isFenceStart with
    | none => rfl
    | some j => exact absurd (nextLine_eq_some.mp hnext).2.1 (by simpa [hnext] using hlt)

theorem mem_blocksFrom (h : r ∈ blocksFrom ls index) :
    r.first < ls.length ∧ r = (blockFrom ls r.first).1 := by
  fun_induction blocksFrom ls index with
  | case1 index hlt hblank ih => exact ih h
  | case2 index hlt hblank ih =>
    rcases List.mem_cons.mp h with heq | h
    · have hfirst : r.first = index := by
        rw [heq]
        exact (blockFrom_fits hlt).1
      rw [hfirst]
      exact ⟨hlt, heq⟩
    · exact ih h
  | case3 index hlt => simp at h

/-- The lines of a code block. -/
theorem code_stretch (h : r ∈ splitLines ls) (hcode : r.type = .code) :
    r.first < ls.length ∧ isFenceStart (lineAt ls r.first) = true ∧
      r.last = (nextLine ls r.first isFenceStart).getD (ls.length - 1) := by
  have hmem : ∃ index, r ∈ blocksFrom ls index := by
    unfold splitLines at h
    split at h
    next last hlast =>
      rcases List.mem_cons.mp h with rfl | h
      · simp at hcode
      · exact ⟨_, h⟩
    next => exact ⟨_, h⟩
  obtain ⟨index, hmem⟩ := hmem
  obtain ⟨hlt, heq⟩ := mem_blocksFrom hmem
  have htype : (blockFrom ls r.first).1.type = .code := heq ▸ hcode
  have hlast : r.last = (blockFrom ls r.first).1.last := congrArg Stretch.last heq
  obtain ⟨hfence, hend⟩ := blockFrom_code hlt htype
  exact ⟨hlt, hfence, hlast.trans hend⟩

/-- Running to the next line with `p` is running to the next line with a stronger `q` where the
first has `q`, or nothing comes behind it. -/
theorem lineEnd_nextLine_eq {p q : Text → Bool} (hqp : ∀ line, p line = false → q line = false)
    (hi : i < (lines content).length) :
    lineEnd (lines content) ((nextLine (lines content) i p).getD ((lines content).length - 1)) =
      ((nextLine (lines content) i q).map (lineEnd (lines content))).getD content.length ↔
    ∀ j, nextLine (lines content) i p = some j →
      q (lineAt (lines content) j) = true ∨ j + 1 = (lines content).length := by
  cases hp : nextLine (lines content) i p with
  | none =>
    have hq := nextLine_eq_none.mpr fun k h₁ h₂ => hqp _ (nextLine_eq_none.mp hp k h₁ h₂)
    simp only [hq, Option.getD_none, Option.map_none]
    exact ⟨fun _ j h => by simp at h, fun _ => lineEnd_last (by omega)⟩
  | some j =>
    obtain ⟨hij, hj, hpj, hbefore⟩ := nextLine_eq_some.mp hp
    have hskip := fun k h₁ h₂ => hqp _ (hbefore k h₁ h₂)
    simp only [Option.getD_some, Option.some.injEq, forall_eq']
    cases hqj : q (lineAt (lines content) j) with
    | true => simp [nextLine_eq_some.mpr ⟨hij, hj, hqj, hskip⟩]
    | false =>
      rw [← lineEnd_last (s := content) (i := (lines content).length - 1) (by omega)]
      cases hq : nextLine (lines content) i q with
      | none =>
        constructor
        · intro heq
          have := lineEnd_inj hj (by omega) heq
          exact .inr (by omega)
        · rintro (h | h)
          · simp at h
          · exact congrArg _ (by omega)
      | some k =>
        obtain ⟨-, hk, hqk, hfirst⟩ := nextLine_eq_some.mp hq
        have hjk : j ≠ k := by
          rintro rfl
          simp [hqj] at hqk
        have hle : j < k := by
          by_contra hle
          have := hskip k (nextLine_eq_some.mp hq).1 (by omega)
          simp [this] at hqk
        constructor
        · exact fun heq => absurd (lineEnd_inj hj hk heq) hjk
        · rintro (h | h)
          · simp at h
          · omega

/-- A code block that begins at line `i` ends where its fence is closed, or with the document,
exactly where the next line that begins like a fence closes it or is the last one. -/
theorem code_ends_iff (random : Nat → Text) (content : Text) (b : SplitBlock)
    (hb : b ∈ splitBlocks random content) (hcode : b.type = .code) (i : Nat)
    (hi : i < (lines content).length) (hstart : b.start = pieceStart (lines content) i) :
    b.sourceTo = codeEnd content i ↔
      ∀ j, nextLine (lines content) i isFenceStart = some j →
        Closes (lineAt (lines content) i) (lineAt (lines content) j) ∨
          j + 1 = (lines content).length := by
  rw [splitBlocks_eq] at hb
  obtain ⟨r, hr, htype, hfirst, hto⟩ := exists_stretch 0 hb
  obtain ⟨hlt, hopen, hlast⟩ := code_stretch hr (htype.symm.trans hcode)
  obtain rfl : i = r.first := pieceStart_inj hi hlt (hstart.symm.trans hfirst)
  rw [hto, hlast, codeEnd, lineEnd_nextLine_eq _ hi]
  · simp only [decide_eq_true_iff]
  · exact fun line hline => decide_eq_false fun hc => by simp [hc.isFenceStart hopen] at hline

theorem code_ends_iff_closed : ∃ b ∈ splitBlocks (fun _ => []) (units "```\na\n```\nb"),
    b.type = .code ∧ b.sourceTo = codeEnd (units "```\na\n```\nb") 0 :=
  ⟨⟨.code, 0, 10, 9, units "```\na\n```", units "block-"⟩, by decide +kernel, rfl,
    (code_ends_iff (fun _ => []) (units "```\na\n```\nb") _ (by decide +kernel) rfl 0
      (by decide +kernel) rfl).mpr (by decide +kernel)⟩

/-- A shorter fence inside closes the code, and what follows is taken for text. -/
theorem code_ends_early : ∃ b ∈ splitBlocks (fun _ => []) (units "````\n```\na\n```\n````"),
    b.type = .code ∧ b.start = 0 ∧ b.sourceTo ≠ codeEnd (units "````\n```\na\n```\n````") 0 :=
  ⟨⟨.code, 0, 9, 8, units "````\n```", units "block-"⟩, by decide +kernel, rfl, rfl,
    by decide +kernel⟩

end Mdock.Editor.Blocks
