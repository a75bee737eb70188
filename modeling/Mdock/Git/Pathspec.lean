import Mdock.Go.Strings
import Mdock.Lib.Pattern

/-! Pathspecs, as git documents and reads them: a path, a pattern of `fnmatch` or, behind a
colon, one with magic. The word `prefix`, which git keeps to itself, is left out. -/
namespace Mdock.Git.Pathspec
open Mdock.Go Mdock.Lib

def colon : UInt8 := 0x3A
def star : UInt8 := 0x2A
def question : UInt8 := 0x3F
def bracket : UInt8 := 0x5B
def closing : UInt8 := 0x5D
def backslash : UInt8 := 0x5C

/-- What makes a pathspec a pattern. -/
def isWild (c : UInt8) : Bool := c = star ∨ c = question ∨ c = bracket ∨ c = backslash

def between (a b c : UInt8) : Bool := a ≤ c ∧ c ≤ b
def isUpper : UInt8 → Bool := between 0x41 0x5A
def isLower : UInt8 → Bool := between 0x61 0x7A
def isDigit : UInt8 → Bool := between 0x30 0x39
def isAlpha (c : UInt8) : Bool := isUpper c || isLower c
def isPrint : UInt8 → Bool := between 0x20 0x7E
def isSpace (c : UInt8) : Bool := c = 0x20 || between 0x09 0x0D c
def isPunct (c : UInt8) : Bool := isPrint c && !isAlpha c && !isDigit c && c ≠ 0x20
def toLower (c : UInt8) : UInt8 := if isUpper c then c + 0x20 else c
def toUpper (c : UInt8) : UInt8 := if isLower c then c - 0x20 else c

/-! ### `fnmatch` -/

/-- `[:name:]`; without case, lower and upper letters are one. -/
def charClass (icase : Bool) (name : Bytes) : Option (UInt8 → Bool) :=
  if name = utf8 "alnum" then some fun c => isAlpha c || isDigit c
  else if name = utf8 "alpha" then some isAlpha
  else if name = utf8 "blank" then some fun c => c = 0x20 || c = 0x09
  else if name = utf8 "cntrl" then some fun c => c < 0x20 || c = 0x7F
  else if name = utf8 "digit" then some isDigit
  else if name = utf8 "graph" then some fun c => isPrint c && c ≠ 0x20
  else if name = utf8 "lower" then some isLower
  else if name = utf8 "print" then some isPrint
  else if name = utf8 "punct" then some isPunct
  else if name = utf8 "space" then some isSpace
  else if name = utf8 "upper" then some fun c => isUpper c || (icase && isLower c)
  else if name = utf8 "xdigit" then
    some fun c => isDigit c || between 0x41 0x46 c || between 0x61 0x66 c
  else none

def inRange (icase : Bool) (a b c : UInt8) : Bool :=
  between a b c || (icase && isLower c && between a b (toUpper c))

/-- The members of a bracket expression, the first of which may be a closing bracket, and what
follows it; `prev` is what a range may start with. -/
def members (icase : Bool) :
    Nat → Option UInt8 → (UInt8 → Bool) → Bytes → Option ((UInt8 → Bool) × Bytes)
  | 0, _, _, _ => none
  | _ + 1, _, _, [] => none
  | fuel + 1, prev, has, c :: s =>
    let next (prev : Option UInt8) (more : UInt8 → Bool) (s : Bytes) :=
      if s.head? = some closing then some ((fun d => has d || more d), s.tail)
      else members icase fuel prev (fun d => has d || more d) s
    if c = backslash then
      match s with
      | [] => none
      | d :: s => next (some d) (· = d) s
    else
      match decide (c = 0x2D), prev, s with
      | true, some a, b :: s =>
        if b = closing then next (some c) (· = c) (b :: s)
        else if b = backslash then
          match s with
          | [] => none
          | b :: s => next none (inRange icase a b) s
        else next none (inRange icase a b) s
      | _, _, s =>
        if c = bracket ∧ s.head? = some colon then
          match cut closing s.tail with
          | (_, none) => none
          | (name, some s') =>
            if name.getLast? = some colon then
              match charClass icase name.dropLast with
              | none => none
              | some p => next none p s'
            else next (some c) (· = c) s
        else next (some c) (· = c) s

/-- A bracket expression, behind its bracket. -/
def bracketExpr (icase : Bool) (s : Bytes) : Option ((UInt8 → Bool) × Bytes) :=
  match s with
  | [] => none
  | c :: s' =>
    if c = 0x21 ∨ c = 0x5E then
      (members icase s.length none (fun _ => false) s').map fun (p, r) => (fun d => !p d, r)
    else members icase s.length none (fun _ => false) s

/-- The pattern that a text is, for paths in lower case where case does not count. `pathname`
keeps wildcards from matching a slash, `start` tells whether a name starts here. -/
def glob (icase pathname : Bool) : Nat → Bool → Bytes → Option (Pattern UInt8)
  | 0, _, _ => none
  | _ + 1, _, [] => some (.literal [])
  | fuel + 1, start, c :: s =>
    let one (p : UInt8 → Bool) (start : Bool) (s : Bytes) :=
      (glob icase pathname fuel start s).map (.seq (.one p))
    let any (p : UInt8 → Bool) (s : Bytes) :=
      (glob icase pathname fuel false s).map (.seq (.star p))
    let letter (d : UInt8) := one (· = if icase then toLower d else d) (d = slash)
    let other (d : UInt8) : Bool := !pathname || d ≠ slash
    if c = backslash then
      match s with
      | [] => none
      | d :: s => letter d s
    else if c = question then one other false s
    else if c = star then
      let r := s.dropWhile (· = star)
      -- Two stars that make up a whole name match directories.
      if pathname = true ∧ r ≠ s ∧ start = true ∧
          (r = [] ∨ r.head? = some slash ∨ [backslash, slash] <+: r) then
        match r with
        | 0x2F :: r' => do
          let none ← glob icase pathname fuel true r'
          let some ← any (fun _ => true) r
          pure (.alt none some)
        | _ => any (fun _ => true) r
      else any other r
    else if c = bracket then
      match bracketExpr icase s with
      | none => none
      | some (p, r) => one (fun d => p d && other d) false r
    else letter c s

/-! ### Magic -/

structure Magic where
  top : Bool := false
  literal : Bool := false
  icase : Bool := false
  glob : Bool := false
  exclude : Bool := false
  attrs : List Bytes := []

/-- ASCII symbols that are neither alphanumeric, nor special in globs or regular expressions,
nor the colon. -/
def isSignature (c : UInt8) : Bool := c ∈ utf8 "!\"#%&',-/;<=>@_~" ++ [0x60]

/-- Magic signatures, and the pattern behind them. -/
def shortMagic (m : Magic) : Bytes → Option (Magic × Bytes)
  | [] => some (m, [])
  | c :: s =>
    if c = colon then some (m, s)
    else if c = 0x5E ∨ c = 0x21 then shortMagic { m with exclude := true } s
    else if c = slash then shortMagic { m with top := true } s
    else if isSignature c then none
    else some (m, c :: s)

/-- Magic words up to the closing parenthesis, and the pattern behind it. -/
def magicWords (word : Bytes) : Bytes → Option (List Bytes × Bytes)
  | [] => none
  | 0x5C :: c :: s => magicWords (word ++ [0x5C, c]) s
  | c :: s =>
    if c = 0x29 then some ([word], s)
    else if c = 0x2C then (magicWords [] s).map fun (words, r) => (word :: words, r)
    else magicWords (word ++ [c]) s

def Magic.word (m : Magic) (w : Bytes) : Option Magic :=
  if w = [] then some m
  else if w = utf8 "top" then some { m with top := true }
  else if w = utf8 "literal" then some { m with literal := true }
  else if w = utf8 "icase" then some { m with icase := true }
  else if w = utf8 "glob" then some { m with glob := true }
  else if w = utf8 "exclude" then some { m with exclude := true }
  else if utf8 "attr:" <+: w then some { m with attrs := m.attrs ++ [w.drop 5] }
  else none

def readMagic : Bytes → Option (Magic × Bytes)
  | 0x3A :: 0x28 :: s => do
    let (words, pattern) ← magicWords [] s
    let m ← words.foldlM Magic.word {}
    pure (m, pattern)
  | 0x3A :: s => shortMagic {} s
  | spec => some ({}, spec)

/-- A path below the working tree, as text. -/
def relative (root : List Bytes) (p : Bytes) : Option Bytes :=
  if p.head? = some slash then
    let names := cleanElems true p
    if root <+: names then some (join (names.drop root.length)) else none
  else
    let names := cleanElems false p
    if dotdot ∈ names then none else some (join names)

/-- Texts that are compared. -/
def Magic.fold (m : Magic) (s : Bytes) : Bytes := if m.icase then s.map toLower else s

/-- The pattern names the path or a directory above it. -/
def Magic.leadsTo (m : Magic) (pattern path : Bytes) : Bool :=
  pattern = [] ∨ m.fold path = m.fold pattern ∨ m.fold pattern ++ [slash] <+: m.fold path

/-- The pattern is one, and the path one of its matches; in front of the first wildcard they
are the same text. -/
def Magic.fnmatch (m : Magic) (pattern path : Bytes) : Bool :=
  let plain := pattern.takeWhile fun c => !isWild c
  let rest := pattern.dropWhile fun c => !isWild c
  decide (m.literal = false ∧ rest ≠ [] ∧ m.fold plain = m.fold (path.take plain.length)) &&
    match Pathspec.glob m.icase m.glob (rest.length + 1) true rest with
    | none => false
    | some g => g.Matches (m.fold (path.drop plain.length))

def Magic.selects (m : Magic) (pattern path : Bytes) : Bool :=
  m.leadsTo pattern path || m.fnmatch pattern path

/-- The paths that a pathspec given in the root of a working tree selects, where git takes it;
`attr` is what a requirement on attributes asks of a path. -/
def read (attr : Bytes → Option (Bytes → Bool)) (root : List Bytes) (spec : Bytes) :
    Option (Bytes → Bool) := do
  let (m, p) ← readMagic spec
  guard (¬(m.literal = true ∧ m.glob = true) ∧ m.attrs.length ≤ 1)
  let pattern ← if m.top then some p else relative root p
  let asks ← m.attrs.mapM attr
  pure fun path => (m.selects pattern path && asks.all fun ask => ask path) != m.exclude

/-! ### Paths and patterns without magic -/

variable {attr : Bytes → Option (Bytes → Bool)} {root ns : List Bytes} {pattern path : Bytes}

theorem relative_join (hne : ns ≠ []) (hn : ∀ n ∈ ns, IsName n) :
    relative root (join ns) = some (join ns) := by
  have hhead : (join ns).head? ≠ some slash :=
    head?_join hne fun e he => ⟨(hn e he).1, (hn e he).2.2.2⟩
  have hclean : cleanElems false (join ns) = ns :=
    cleanElems_join hne (normalStack_names fun n h => hn n (List.mem_reverse.mp h))
  rw [relative, if_neg hhead, hclean]
  exact if_neg fun h => (hn _ h).2.2.1 rfl

/-- Without a colon in front there is no magic. -/
theorem read_join (attr : Bytes → Option (Bytes → Bool)) (root : List Bytes) (hne : ns ≠ [])
    (hn : ∀ n ∈ ns, IsName n) (hc : (join ns).head? ≠ some colon) :
    ∃ f, read attr root (join ns) = some f ∧
      ∀ path, f path = ({} : Magic).selects (join ns) path := by
  have hmagic : readMagic (join ns) = some ({}, join ns) := by
    unfold readMagic
    split
    · rename_i s hs
      exact absurd (by rw [hs]; rfl) hc
    · rename_i s _ hs
      exact absurd (by rw [hs]; rfl) hc
    · rfl
  refine ⟨fun path => ({} : Magic).selects (join ns) path, ?_, fun _ => rfl⟩
  simp [read, hmagic, relative_join hne hn, guard]

theorem leadsTo_iff : ({} : Magic).leadsTo pattern path = true ↔
    pattern = [] ∨ path = pattern ∨ pattern ++ [slash] <+: path := by
  simp [Magic.leadsTo, Magic.fold]

theorem fnmatch_plain (m : Magic) (h : ∀ c ∈ pattern, isWild c = false) (path : Bytes) :
    m.fnmatch pattern path = false := by
  have hrest : pattern.dropWhile (fun c => !isWild c) = [] := by
    rw [List.dropWhile_eq_nil_iff]
    intro c hc
    simp [h c hc]
  simp [Magic.fnmatch, hrest]

theorem glob_plain (pathname start : Bool) {fuel : Nat} (h : ∀ c ∈ pattern, isWild c = false)
    (hf : pattern.length < fuel) :
    ∃ g, glob false pathname fuel start pattern = some g ∧ ∀ s, g.Matches s ↔ s = pattern := by
  induction pattern generalizing fuel start with
  | nil =>
    obtain ⟨fuel, rfl⟩ := Nat.exists_eq_add_of_lt hf
    exact ⟨.literal [], rfl, fun s => Pattern.matches_literal⟩
  | cons c pattern ih =>
    cases fuel with
    | zero => exact absurd hf (Nat.not_lt_zero _)
    | succ fuel =>
      have hc := h c (by simp)
      simp only [isWild, Bool.decide_or, Bool.or_eq_false_iff, decide_eq_false_iff_not] at hc
      obtain ⟨g, hg, hmatch⟩ := ih (decide (c = slash))
        (fun d hd => h d (List.mem_cons_of_mem c hd)) (Nat.lt_of_succ_lt_succ hf)
      refine ⟨.seq (.one (· = c)) g, ?_, fun s => ?_⟩
      · simp [glob, hc, hg]
      · rw [Pattern.matches_seq]
        constructor
        · rintro ⟨u, v, rfl, hu, hv⟩
          obtain ⟨d, rfl, hd⟩ := Pattern.matches_one.mp hu
          rw [(hmatch v).mp hv, of_decide_eq_true hd]
          rfl
        · rintro rfl
          exact ⟨[c], pattern, rfl, Pattern.matches_one.mpr ⟨c, rfl, decide_eq_true rfl⟩,
            (hmatch pattern).mpr rfl⟩

/-- One star stands for any text, slashes included. -/
theorem fnmatch_star {pre post : Bytes} (hpre : ∀ c ∈ pre, isWild c = false)
    (hpost : ∀ c ∈ post, isWild c = false) :
    ({} : Magic).fnmatch (pre ++ star :: post) path = true ↔ ∃ x, path = pre ++ (x ++ post) := by
  have hall : ∀ c ∈ pre, (!isWild c) = true := fun c hc => by simp [hpre c hc]
  have htake : (pre ++ star :: post).takeWhile (fun c => !isWild c) = pre := by
    rw [List.takeWhile_append_of_pos hall, List.takeWhile_cons_of_neg (by decide), List.append_nil]
  have hdrop : (pre ++ star :: post).dropWhile (fun c => !isWild c) = star :: post := by
    rw [List.dropWhile_append_of_pos hall, List.dropWhile_cons_of_neg (by decide)]
  have hstars : post.dropWhile (fun c => decide (c = star)) = post := by
    cases post with
    | nil => rfl
    | cons c post =>
      have hc := hpost c (by simp)
      simp only [isWild, Bool.decide_or, Bool.or_eq_false_iff, decide_eq_false_iff_not] at hc
      exact List.dropWhile_cons_of_neg (by simpa using hc.1)
  obtain ⟨g, hg, hmatch⟩ := glob_plain false false hpost (Nat.lt_succ_self post.length)
  have hglob : Pathspec.glob false false ((star :: post).length + 1) true (star :: post) =
      some (.seq (.star fun _ => true) g) := by
    have hb : star ≠ backslash := by decide
    have hq : star ≠ question := by decide
    simpa [glob, hb, hq, hstars] using hg
  have hseq : ∀ s, (Pattern.seq (.star fun _ => true) g).Matches s ↔ ∃ x, s = x ++ post := by
    intro s
    rw [Pattern.matches_seq]
    constructor
    · rintro ⟨u, v, rfl, -, hv⟩
      exact ⟨u, by rw [(hmatch v).mp hv]⟩
    · rintro ⟨x, rfl⟩
      exact ⟨x, post, rfl, Pattern.matches_star.mpr fun _ _ => rfl, (hmatch post).mpr rfl⟩
  have hpath : pre = path.take pre.length ∧ (∃ x, path.drop pre.length = x ++ post) ↔
      ∃ x, path = pre ++ (x ++ post) := by
    constructor
    · rintro ⟨hp, x, hx⟩
      have hboth := List.take_append_drop pre.length path
      rw [← hp, hx] at hboth
      exact ⟨x, hboth.symm⟩
    · rintro ⟨x, rfl⟩
      exact ⟨by simp, x, by simp⟩
  have hrest : star :: post ≠ [] := List.cons_ne_nil _ _
  have hfn : ({} : Magic).fnmatch (pre ++ star :: post) path =
      (decide (pre = path.take pre.length) &&
        decide ((Pattern.seq (.star fun _ => true) g).Matches (path.drop pre.length))) := by
    unfold Magic.fnmatch
    simp only [htake, hdrop, hglob, Magic.fold, hrest, ne_eq, not_false_eq_true, true_and,
      Bool.false_eq_true, if_false]
  rw [← hpath, hfn, Bool.and_eq_true, decide_eq_true_eq, decide_eq_true_eq, hseq]

/-- A path without wildcards and without a colon in front selects itself and what is below. -/
theorem read_plain (attr : Bytes → Option (Bytes → Bool)) (root : List Bytes) (hne : ns ≠ [])
    (hn : ∀ n ∈ ns, IsName n) (hc : (join ns).head? ≠ some colon)
    (hplain : ∀ c ∈ join ns, isWild c = false) :
    ∃ f, read attr root (join ns) = some f ∧
      ∀ ms, ms ≠ [] → (∀ m ∈ ms, IsName m) → (f (join ms) = true ↔ ns <+: ms) := by
  obtain ⟨f, hf, hsel⟩ := read_join attr root hne hn hc
  refine ⟨f, hf, fun ms hm hms => ?_⟩
  rw [hsel, Magic.selects, fnmatch_plain _ hplain, Bool.or_false, leadsTo_iff,
    ← join_prefix_iff hne hm (fun n h => (hn n h).2.2.2) fun m h => (hms m h).2.2.2]
  exact or_iff_right (join_ne_nil hne fun n h => (hn n h).1)

end Mdock.Git.Pathspec
