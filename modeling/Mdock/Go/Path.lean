import Mdock.Go.Strings

/-! The rest of `path/filepath` that containment rests on: `Join`, `Abs` and `Rel`, and
where a path leads without a look at the file system. -/
namespace Mdock.Go

/-- `filepath.Join`. -/
def joinPath (elems : List Bytes) : Bytes :=
  if elems.dropWhile (· = []) = [] then [] else clean (join (elems.dropWhile (· = [])))

/-- `filepath.Abs`, in the working directory `wd`. -/
def absPath (wd p : Bytes) : Bytes :=
  if p.head? = some slash then clean p else joinPath [wd, p]

/-- What is left of two paths behind the elements they start with in common. -/
def dropCommon : List Bytes → List Bytes → List Bytes × List Bytes
  | b :: base, t :: targ => if b = t then dropCommon base targ else (b :: base, t :: targ)
  | [], targ => ([], targ)
  | base, [] => (base, [])

/-- `filepath.Rel` of two absolute paths. -/
def relPath (base targ : Bytes) : Bytes :=
  let rest := dropCommon (cleanElems true base) (cleanElems true targ)
  if rest = ([], []) then dot else join (rest.1.map (fun _ => dotdot) ++ rest.2)

/-- One element of a path, from a place below the root; there is nothing above the root. -/
def lexicalStep : Option (List Bytes) → Bytes → Option (List Bytes)
  | none, _ => none
  | some loc, elem =>
    if elem = [] ∨ elem = dot then some loc
    else if elem = dotdot then if loc = [] then none else some loc.dropLast
    else some (loc ++ [elem])

/-- Where a path leads when it is followed from the root of a vault, whatever is there. -/
def lexical (p : Bytes) : Option (List Bytes) := (split p).foldl lexicalStep (some [])

section
variable {rooted : Bool} {stack rest : List Bytes} {e : Bytes}

theorem cleanStep_skip (h : e = [] ∨ e = dot) : cleanStep rooted stack e = stack := by
  unfold cleanStep
  exact if_pos h

theorem cleanStep_push (h : ¬ (e = [] ∨ e = dot)) (hdd : e ≠ dotdot) :
    cleanStep rooted stack e = e :: stack := by
  unfold cleanStep
  rw [if_neg h, if_neg hdd]

theorem cleanStep_pop {top : Bytes} (h : top ≠ dotdot) :
    cleanStep rooted (top :: rest) dotdot = rest := by
  unfold cleanStep
  rw [if_neg (by decide), if_pos rfl]
  exact if_neg h

theorem cleanStep_up (h : stack = [] ∨ ∃ rest, stack = dotdot :: rest) :
    cleanStep false stack dotdot = dotdot :: stack := by
  rcases h with rfl | ⟨rest, rfl⟩ <;> simp [cleanStep, show dotdot ≠ [] ∧ dotdot ≠ dot by decide]

end

theorem foldl_lexicalStep_none (elems : List Bytes) : elems.foldl lexicalStep none = none := by
  induction elems with
  | nil => rfl
  | cons e elems ih => exact ih

/-- As long as the walk stays below the root, `path.Clean` keeps the same elements. -/
theorem foldl_cleanStep_of_lexical {rooted : Bool} {elems stack loc : List Bytes}
    (hstack : dotdot ∉ stack)
    (h : elems.foldl lexicalStep (some stack.reverse) = some loc) :
    elems.foldl (cleanStep rooted) stack = loc.reverse := by
  induction elems generalizing stack with
  | nil => simpa using congrArg List.reverse (Option.some.inj h)
  | cons e elems ih =>
    rw [List.foldl_cons] at h ⊢
    by_cases hskip : e = [] ∨ e = dot
    · rw [lexicalStep, if_pos hskip] at h
      rw [cleanStep_skip hskip]
      exact ih hstack h
    · by_cases hdd : e = dotdot
      · subst hdd
        rw [lexicalStep, if_neg hskip, if_pos rfl] at h
        cases stack with
        | nil =>
          rw [List.reverse_nil, if_pos rfl, foldl_lexicalStep_none] at h
          cases h
        | cons top rest =>
          obtain ⟨htop, hrest⟩ := not_or.mp (mt List.mem_cons.mpr hstack)
          rw [if_neg (by simp), List.reverse_cons, List.dropLast_concat] at h
          rw [cleanStep_pop (Ne.symm htop)]
          exact ih hrest h
      · rw [lexicalStep, if_neg hskip, if_neg hdd, ← List.reverse_cons] at h
        rw [cleanStep_push hskip hdd]
        exact ih (by simp [Ne.symm hdd, hstack]) h

theorem cleanElems_of_lexical {p : Bytes} {loc : List Bytes} (rooted : Bool)
    (h : lexical p = some loc) : cleanElems rooted p = loc := by
  rw [cleanElems, foldl_cleanStep_of_lexical List.not_mem_nil h, List.reverse_reverse]

/-- An upward step that has nothing to undo is never undone. -/
theorem getLast?_foldl_cleanStep {elems stack : List Bytes}
    (h : stack.getLast? = some dotdot) :
    (elems.foldl (cleanStep false) stack).getLast? = some dotdot := by
  induction elems generalizing stack with
  | nil => exact h
  | cons e elems ih =>
    refine ih ?_
    cases stack with
    | nil => simp at h
    | cons top rest =>
      unfold cleanStep
      split
      · exact h
      · split
        · simp only
          split
          · rwa [List.getLast?_cons_cons]
          · rename_i htop
            cases rest with
            | nil => exact absurd (by simpa using h) htop
            | cons f rest => rwa [List.getLast?_cons_cons] at h
        · rwa [List.getLast?_cons_cons]

theorem foldl_lexicalStep {elems stack : List Bytes} (hstack : dotdot ∉ stack)
    (h : dotdot ∉ elems.foldl (cleanStep false) stack) :
    elems.foldl lexicalStep (some stack.reverse) =
      some (elems.foldl (cleanStep false) stack).reverse := by
  induction elems generalizing stack with
  | nil => rfl
  | cons e elems ih =>
    rw [List.foldl_cons] at h
    rw [List.foldl_cons, List.foldl_cons]
    by_cases hskip : e = [] ∨ e = dot
    · rw [cleanStep_skip hskip] at h ⊢
      rw [lexicalStep, if_pos hskip]
      exact ih hstack h
    · by_cases hdd : e = dotdot
      · subst hdd
        cases stack with
        | nil =>
          rw [cleanStep_up (.inl rfl)] at h
          exact absurd (List.mem_of_getLast? (getLast?_foldl_cleanStep rfl)) h
        | cons top rest =>
          obtain ⟨htop, hrest⟩ := not_or.mp (mt List.mem_cons.mpr hstack)
          rw [cleanStep_pop (Ne.symm htop)] at h ⊢
          rw [lexicalStep, if_neg hskip, if_pos rfl, if_neg (by simp), List.reverse_cons,
            List.dropLast_concat]
          exact ih hrest h
      · rw [cleanStep_push hskip hdd] at h ⊢
        rw [lexicalStep, if_neg hskip, if_neg hdd, ← List.reverse_cons]
        exact ih (by simp [Ne.symm hdd, hstack]) h

/-- A path that `path.Clean` leaves nothing upward of leads where the clean path leads. -/
theorem lexical_of_cleanElems {p : Bytes} (h : dotdot ∉ cleanElems false p) :
    lexical p = some (cleanElems false p) :=
  foldl_lexicalStep List.not_mem_nil (by simpa [cleanElems] using h)

/-! ### Joining -/

theorem foldl_cleanStep_names {rooted : Bool} {ns stack : List Bytes} (h : ∀ n ∈ ns, IsName n) :
    ns.foldl (cleanStep rooted) stack = ns.reverse ++ stack := by
  induction ns generalizing stack with
  | nil => rfl
  | cons n ns ih =>
    obtain ⟨hne, hdot, hdd, -⟩ := h n (by simp)
    rw [List.foldl_cons, cleanStep_push (not_or.mpr ⟨hne, hdot⟩) hdd,
      ih fun m hm => h m (List.mem_cons_of_mem n hm)]
    simp

/-- Folding the elements a relative path keeps is folding one element more. -/
theorem foldl_reverse_cleanStep (base : List Bytes) {stack : List Bytes} (e : Bytes)
    (h : NormalStack false stack) :
    (cleanStep false stack e).reverse.foldl (cleanStep true) base =
      cleanStep true (stack.reverse.foldl (cleanStep true) base) e := by
  have push : ∀ f : Bytes, (f :: stack).reverse.foldl (cleanStep true) base =
      cleanStep true (stack.reverse.foldl (cleanStep true) base) f := by
    intro f
    rw [List.reverse_cons, List.foldl_append, List.foldl_cons, List.foldl_nil]
  by_cases hskip : e = [] ∨ e = dot
  · rw [cleanStep_skip hskip, cleanStep_skip hskip]
  · by_cases hdd : e = dotdot
    · subst hdd
      cases stack with
      | nil => rw [cleanStep_up (.inl rfl), push]
      | cons top rest =>
        rcases h with ⟨hn, -⟩ | ⟨rfl, -, -⟩
        · rw [cleanStep_pop hn.2.2.1, List.reverse_cons, List.foldl_append, List.foldl_cons,
            List.foldl_nil, cleanStep_push (not_or.mpr ⟨hn.1, hn.2.1⟩) hn.2.2.1,
            cleanStep_pop hn.2.2.1]
        · rw [cleanStep_up (.inr ⟨rest, rfl⟩), push]
    · rw [cleanStep_push hskip hdd, push]

theorem foldl_foldl_cleanStep (base : List Bytes) {elems stack : List Bytes}
    (he : ∀ e ∈ elems, slash ∉ e) (h : NormalStack false stack) :
    (elems.foldl (cleanStep false) stack).reverse.foldl (cleanStep true) base =
      elems.foldl (cleanStep true) (stack.reverse.foldl (cleanStep true) base) := by
  induction elems generalizing stack with
  | nil => rfl
  | cons e elems ih =>
    rw [List.foldl_cons, List.foldl_cons,
      ih (fun e' he' => he e' (List.mem_cons_of_mem e he')) (cleanStep_normal h (he e (by simp))),
      foldl_reverse_cleanStep base e h]

/-- Cleaning a relative path first makes no difference where it is joined to a rooted one. -/
theorem foldl_cleanStep_clean (base : List Bytes) {p : Bytes} (h : p.head? ≠ some slash) :
    (split (clean p)).foldl (cleanStep true) base = (split p).foldl (cleanStep true) base := by
  have hnil : NormalStack false [] := trivial
  have hrun := foldl_foldl_cleanStep base (split_not_mem_slash p) hnil
  rw [List.reverse_nil, List.foldl_nil] at hrun
  rw [← hrun, clean_of_relative h, ← cleanElems]
  by_cases he : cleanElems false p = []
  · rw [if_pos he, he]
    rfl
  · rw [if_neg he, split_join he fun e hm =>
      (cleanElems_normal false p).not_mem_slash e (by simpa using hm)]

theorem head?_clean {p : Bytes} (h : p.head? ≠ some slash) : (clean p).head? ≠ some slash := by
  rw [clean_of_relative h]
  split
  · decide
  · rename_i hne
    have hn := cleanElems_normal false p
    exact head?_join hne fun e he =>
      ⟨hn.ne_nil e (by simpa using he), hn.not_mem_slash e (by simpa using he)⟩

theorem cleanElems_clean {p : Bytes} (h : p.head? = some slash) :
    cleanElems true (clean p) = cleanElems true p := by
  have hcons : ∀ s, cleanElems true (slash :: s) = cleanElems true s := by
    intro s
    have hs := split_slash [] s
    rw [List.nil_append] at hs
    rw [cleanElems, hs]
    rfl
  rw [clean, if_pos h, hcons]
  by_cases he : cleanElems true p = []
  · rw [he]
    rfl
  · exact cleanElems_join he (cleanElems_normal true p)

theorem cleanElems_absPath {wd : Bytes} (hwd : wd.head? = some slash) (p : Bytes) :
    cleanElems true (absPath wd p) =
      if p.head? = some slash then cleanElems true p
      else ((split p).foldl (cleanStep true) (cleanElems true wd).reverse).reverse := by
  unfold absPath
  split
  · rename_i h
    exact cleanElems_clean h
  · have hne : wd ≠ [] := by rintro rfl; cases hwd
    have hj : joinPath [wd, p] = clean (wd ++ slash :: p) := by
      simp [joinPath, hne, join]
    have hhead : (wd ++ slash :: p).head? = some slash := by
      rw [List.head?_append, hwd]
      rfl
    rw [hj, cleanElems_clean hhead, cleanElems, split_slash, List.foldl_append, cleanElems,
      List.reverse_reverse]

/-- Joining the names of a clean path to a root appends them. -/
theorem cleanElems_joinPath {wd : Bytes} (hwd : wd.head? = some slash) (root : Bytes)
    {rel : Bytes} {ns : List Bytes} (hrel : rel ≠ []) (hhead : rel.head? ≠ some slash)
    (hclean : clean rel = rel)
    (hns : ∀ stack, (split rel).foldl (cleanStep true) stack = ns.reverse ++ stack) :
    cleanElems true (absPath wd (joinPath [root, rel])) =
      cleanElems true (absPath wd root) ++ ns := by
  rw [cleanElems_absPath hwd, cleanElems_absPath hwd]
  by_cases hroot : root = []
  · subst hroot
    have hj : joinPath [[], rel] = rel := by simp [joinPath, hrel, join, hclean]
    rw [hj, if_neg hhead, if_neg (by simp), hns]
    simp [split, cleanStep]
  · have hj : joinPath [root, rel] = clean (root ++ slash :: rel) := by
      simp [joinPath, hroot, join]
    have happ : (root ++ slash :: rel).head? = root.head? := by
      cases root with
      | nil => exact absurd rfl hroot
      | cons b root => rfl
    rw [hj]
    by_cases hr : root.head? = some slash
    · have hc : (clean (root ++ slash :: rel)).head? = some slash := by
        rw [clean, if_pos (happ.trans hr)]
        rfl
      rw [if_pos hc, if_pos hr, cleanElems_clean (happ.trans hr), cleanElems, split_slash,
        List.foldl_append, hns, cleanElems]
      simp
    · have happ' : (root ++ slash :: rel).head? ≠ some slash := happ ▸ hr
      rw [if_neg (head?_clean happ'), if_neg hr, foldl_cleanStep_clean _ happ', split_slash,
        List.foldl_append, hns]
      simp

/-! ### Relative paths -/

theorem dropCommon_spec (base targ : List Bytes) : ∃ common,
    base = common ++ (dropCommon base targ).1 ∧ targ = common ++ (dropCommon base targ).2 ∧
      (base <+: targ ↔ (dropCommon base targ).1 = []) := by
  induction base generalizing targ with
  | nil =>
    refine ⟨[], ?_⟩
    cases targ <;> simp [dropCommon]
  | cons b base ih =>
    cases targ with
    | nil => exact ⟨[], by simp [dropCommon]⟩
    | cons t targ =>
      rw [dropCommon]
      split
      · rename_i h
        subst h
        obtain ⟨common, hb, ht, hp⟩ := ih targ
        refine ⟨b :: common, ?_, ?_, ?_⟩
        · rw [List.cons_append, ← hb]
        · rw [List.cons_append, ← ht]
        · rw [List.cons_prefix_cons, hp]
          simp
      · rename_i h
        exact ⟨[], rfl, rfl, by simp [List.cons_prefix_cons, h]⟩

end Mdock.Go
