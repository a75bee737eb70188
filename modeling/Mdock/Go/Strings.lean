import Mathlib.Data.List.Basic
import Mathlib.Data.UInt
import Mdock.Lib.Pieces

/-! Go strings are byte strings. The functions of `strings` and `path` that the
server calls, over lists of bytes. -/
namespace Mdock.Go

abbrev Bytes := List UInt8

/-- Bytes compare as `memcmp` compares them, so texts compare lexicographically. -/
instance byteOrder : LinearOrder UInt8 where
  le_refl := UInt8.le_refl
  le_trans := @UInt8.le_trans
  le_antisymm := @UInt8.le_antisymm
  le_total := UInt8.le_total
  lt_iff_le_not_ge a b := by
    rw [UInt8.lt_iff_toNat_lt, UInt8.le_iff_toNat_le, UInt8.le_iff_toNat_le]
    omega
  toDecidableLE := inferInstance

instance textMem (s : Bytes) (l : List Bytes) : Decidable (s ∈ l) := inferInstance

def utf8 (s : String) : Bytes := s.toList.flatMap String.utf8EncodeChar

def slash : UInt8 := 0x2F
def percent : UInt8 := 0x25
def dot : Bytes := utf8 "."
def dotdot : Bytes := utf8 ".."

def trimPrefix (s p : Bytes) : Bytes := if p.isPrefixOf s then s.drop p.length else s
def trimSuffix (s p : Bytes) : Bytes :=
  if p.isSuffixOf s then s.take (s.length - p.length) else s

/-- `strings.Split(s, "/")`. -/
def split (s : Bytes) : List Bytes := s.splitOn slash

/-- `strings.Join(parts, "/")`. -/
def join : List Bytes → Bytes
  | [] => []
  | [s] => s
  | s :: t :: parts => s ++ slash :: join (t :: parts)

/-- `strings.Cut(s, c)`; the second part is `none` when `c` does not occur. -/
def cut (c : UInt8) : Bytes → Bytes × Option Bytes
  | [] => ([], none)
  | b :: s => if b = c then ([], some s) else (b :: (cut c s).1, (cut c s).2)

/-- `s[strings.Index(s, sep):]`, `none` when the index is -1. -/
def from? (sep : Bytes) : Bytes → Option Bytes
  | [] => if sep = [] then some [] else none
  | b :: s => if sep.isPrefixOf (b :: s) then some (b :: s) else from? sep s

/-- The runes of `unicode.IsSpace`. -/
def spaceRunes : List Bytes :=
  [[0x09], [0x0A], [0x0B], [0x0C], [0x0D], [0x20], [0xC2, 0x85], [0xC2, 0xA0],
    [0xE1, 0x9A, 0x80], [0xE2, 0x80, 0xA8], [0xE2, 0x80, 0xA9], [0xE2, 0x80, 0xAF],
    [0xE2, 0x81, 0x9F], [0xE3, 0x80, 0x80]] ++
  (List.range 11).map fun n => [0xE2, 0x80, 0x80 + UInt8.ofNat n]

/-- Drop leading runes; the length of the text is fuel enough. -/
def dropRunes (runes : List Bytes) : Nat → Bytes → Bytes
  | 0, s => s
  | fuel + 1, s =>
    match runes.find? fun r => r.isPrefixOf s with
    | none => s
    | some r => dropRunes runes fuel (s.drop r.length)

def trimSpace (s : Bytes) : Bytes :=
  let left := dropRunes spaceRunes s.length s
  (dropRunes (spaceRunes.map List.reverse) left.length left.reverse).reverse

/-- One element of `path.Clean`, on the stack of the elements kept so far. -/
def cleanStep (rooted : Bool) (stack : List Bytes) (elem : Bytes) : List Bytes :=
  if elem = [] ∨ elem = dot then stack
  else if elem = dotdot then
    match stack with
    | [] => if rooted then [] else [dotdot]
    | top :: rest => if top = dotdot then dotdot :: stack else rest
  else elem :: stack

def cleanElems (rooted : Bool) (p : Bytes) : List Bytes :=
  ((split p).foldl (cleanStep rooted) []).reverse

/-- `path.Clean`; on Unix also `filepath.Clean`. -/
def clean (p : Bytes) : Bytes :=
  if p.head? = some slash then slash :: join (cleanElems true p)
  else if cleanElems false p = [] then dot
  else join (cleanElems false p)

/-- `path.Dir`: `Clean` of everything up to the last slash. -/
def dir (p : Bytes) : Bytes := clean (p.reverse.dropWhile (· ≠ slash)).reverse

/-- An element that `path.Clean` keeps wherever it stands. -/
def IsName (n : Bytes) : Prop := n ≠ [] ∧ n ≠ dot ∧ n ≠ dotdot ∧ slash ∉ n

instance (n : Bytes) : Decidable (IsName n) := inferInstanceAs (Decidable (_ ∧ _ ∧ _ ∧ _))

theorem trimPrefix_append (p s : Bytes) : trimPrefix (p ++ s) p = s := by
  simp [trimPrefix]

theorem trimPrefix_of_not {p s : Bytes} (h : ¬ p <+: s) : trimPrefix s p = s := by
  simp [trimPrefix, List.isPrefixOf_iff_prefix, h]

theorem split_slash (s t : Bytes) : split (s ++ slash :: t) = split s ++ split t :=
  List.splitOn_append_cons_self s t

theorem split_of_not_mem {s : Bytes} (h : slash ∉ s) : split s = [s] :=
  List.splitOn_eq_singleton h

theorem split_join {parts : List Bytes} (hne : parts ≠ []) (h : ∀ s ∈ parts, slash ∉ s) :
    split (join parts) = parts := by
  induction parts with
  | nil => exact absurd rfl hne
  | cons s parts ih =>
    cases parts with
    | nil => exact split_of_not_mem (h s (by simp))
    | cons t parts =>
      rw [join, split_slash, split_of_not_mem (h s (by simp)), ih (by simp)
        (fun u hu => h u (List.mem_cons_of_mem s hu))]
      rfl

theorem join_split (s : Bytes) : join (split s) = s := by
  have hj : ∀ parts : List Bytes, join parts = [slash].intercalate parts := by
    intro parts
    induction parts with
    | nil => rfl
    | cons s parts ih => cases parts <;> simp_all [join, List.intercalate]
  rw [hj]
  exact List.intercalate_splitOn slash

theorem join_cons {s : Bytes} {parts : List Bytes} (h : parts ≠ []) :
    join (s :: parts) = s ++ slash :: join parts := by
  cases parts with
  | nil => exact absurd rfl h
  | cons t parts => rfl

theorem join_append {parts rest : List Bytes} (hp : parts ≠ []) (hr : rest ≠ []) :
    join (parts ++ rest) = join parts ++ slash :: join rest := by
  induction parts with
  | nil => exact absurd rfl hp
  | cons s parts ih =>
    by_cases hs : parts = []
    · rw [hs]
      exact join_cons hr
    · rw [List.cons_append, join_cons (by simp [hs]), ih hs, join_cons hs]
      simp

/-- A path of names, or one below it. -/
theorem join_prefix_iff {ns ms : List Bytes} (hn : ns ≠ []) (hm : ms ≠ [])
    (hns : ∀ n ∈ ns, slash ∉ n)
    (hms : ∀ m ∈ ms, slash ∉ m) :
    join ms = join ns ∨ join ns ++ [slash] <+: join ms ↔ ns <+: ms := by
  constructor
  · rintro (he | ⟨r, he⟩)
    · rw [← split_join hn hns, ← he, split_join hm hms]
    · refine ⟨split r, ?_⟩
      rw [← split_join hm hms, ← he, List.append_assoc, List.singleton_append, split_slash,
        split_join hn hns]
  · rintro ⟨q, rfl⟩
    by_cases hq : q = []
    · exact .inl (by rw [hq, List.append_nil])
    · exact .inr ⟨join q, by rw [join_append hn hq]; simp⟩

theorem cut_of_not_mem {c : UInt8} {s : Bytes} (h : c ∉ s) : cut c s = (s, none) := by
  induction s with
  | nil => rfl
  | cons b s ih =>
    simp only [List.mem_cons, not_or] at h
    rw [cut, if_neg (Ne.symm h.1), ih h.2]

theorem cut_append {c : UInt8} {s : Bytes} (h : c ∉ s) (t : Bytes) :
    cut c (s ++ c :: t) = (s, some t) := by
  induction s with
  | nil => simp [cut]
  | cons b s ih =>
    simp only [List.mem_cons, not_or] at h
    rw [List.cons_append, cut, if_neg (Ne.symm h.1), ih h.2]

theorem cut_spec (c : UInt8) (s : Bytes) : c ∉ (cut c s).1 ∧
    s = (cut c s).1 ++ ((cut c s).2.map (c :: ·)).getD [] := by
  induction s with
  | nil => simp [cut]
  | cons b s ih =>
    by_cases hb : b = c
    · simp [cut, hb]
    · simp only [cut, hb, if_false, List.mem_cons, not_or, List.cons_append, List.cons.injEq,
        true_and]
      exact ⟨⟨Ne.symm hb, ih.1⟩, ih.2⟩

/-- Stacks `path.Clean` can build: names over `..` elements, the latter only when
the path is not rooted. -/
def NormalStack (rooted : Bool) : List Bytes → Prop
  | [] => True
  | e :: stack => (IsName e ∧ NormalStack rooted stack) ∨
      (e = dotdot ∧ rooted = false ∧ ∀ e' ∈ stack, e' = dotdot)

theorem normalStack_of_dotdot {stack : List Bytes} (h : ∀ e ∈ stack, e = dotdot) :
    NormalStack false stack := by
  cases stack with
  | nil => trivial
  | cons e stack =>
    exact .inr ⟨h e (by simp), rfl, fun e' he => h e' (List.mem_cons_of_mem e he)⟩

theorem not_slash_dotdot : slash ∉ dotdot := by decide

theorem NormalStack.not_mem_slash {rooted : Bool} {stack : List Bytes}
    (h : NormalStack rooted stack) : ∀ e ∈ stack, slash ∉ e := by
  induction stack with
  | nil => simp
  | cons e stack ih =>
    intro e' he'
    rcases h with ⟨hn, hs⟩ | ⟨rfl, -, hs⟩
    · rcases List.mem_cons.mp he' with rfl | he'
      · exact hn.2.2.2
      · exact ih hs e' he'
    · rcases List.mem_cons.mp he' with rfl | he'
      · exact not_slash_dotdot
      · exact hs e' he' ▸ not_slash_dotdot

theorem split_not_mem_slash (s : Bytes) : ∀ e ∈ split s, slash ∉ e :=
  Lib.not_mem_of_mem_splitOn slash s

theorem cleanStep_normal {rooted : Bool} {stack : List Bytes} (h : NormalStack rooted stack)
    {elem : Bytes} (he : slash ∉ elem) : NormalStack rooted (cleanStep rooted stack elem) := by
  unfold cleanStep
  by_cases hskip : elem = [] ∨ elem = dot
  · rw [if_pos hskip]
    exact h
  · rw [if_neg hskip]
    rw [not_or] at hskip
    by_cases hdd : elem = dotdot
    · rw [if_pos hdd]
      cases stack with
      | nil =>
        cases rooted with
        | true => trivial
        | false => exact .inr ⟨rfl, rfl, by simp⟩
      | cons top rest =>
        rcases h with ⟨hn, hs⟩ | ⟨htop, hr, hs⟩
        · simp only [hn.2.2.1, if_false]
          exact hs
        · simp only [htop, if_true]
          exact .inr ⟨rfl, hr, by simpa [htop] using hs⟩
    · rw [if_neg hdd]
      exact .inl ⟨⟨hskip.1, hskip.2, hdd, he⟩, h⟩

theorem foldl_cleanStep_normal {rooted : Bool} (elems : List Bytes)
    (helems : ∀ e ∈ elems, slash ∉ e) {stack : List Bytes} (h : NormalStack rooted stack) :
    NormalStack rooted (elems.foldl (cleanStep rooted) stack) := by
  induction elems generalizing stack with
  | nil => exact h
  | cons e elems ih =>
    exact ih (fun e' he' => helems e' (List.mem_cons_of_mem e he'))
      (cleanStep_normal h (helems e (by simp)))

theorem cleanElems_normal (rooted : Bool) (p : Bytes) :
    NormalStack rooted (cleanElems rooted p).reverse := by
  rw [cleanElems, List.reverse_reverse]
  exact foldl_cleanStep_normal _ (split_not_mem_slash p) trivial

/-- A normal stack is a fixed point: its elements are pushed back one by one. -/
theorem foldl_cleanStep_reverse {rooted : Bool} {stack : List Bytes}
    (h : NormalStack rooted stack) : stack.reverse.foldl (cleanStep rooted) [] = stack := by
  induction stack with
  | nil => rfl
  | cons e stack ih =>
    rw [List.reverse_cons, List.foldl_append]
    rcases h with ⟨hn, hs⟩ | ⟨rfl, rfl, hs⟩
    · rw [ih hs]
      simp [cleanStep, hn.1, hn.2.1, hn.2.2.1]
    · rw [ih (normalStack_of_dotdot hs)]
      have hne : dotdot ≠ [] ∧ dotdot ≠ dot := by decide
      cases stack with
      | nil => simp [cleanStep, hne]
      | cons top rest => simp [cleanStep, hne, hs top (by simp)]

theorem cleanElems_join {rooted : Bool} {elems : List Bytes} (hne : elems ≠ [])
    (h : NormalStack rooted elems.reverse) : cleanElems rooted (join elems) = elems := by
  have hslash : ∀ e ∈ elems, slash ∉ e := fun e he => h.not_mem_slash e (by simpa using he)
  rw [cleanElems, split_join hne hslash]
  have hfix := foldl_cleanStep_reverse h
  rw [List.reverse_reverse] at hfix
  rw [hfix, List.reverse_reverse]

theorem normalStack_names {rooted : Bool} {names : List Bytes} (h : ∀ n ∈ names, IsName n) :
    NormalStack rooted names := by
  induction names with
  | nil => trivial
  | cons n names ih =>
    exact .inl ⟨h n (by simp), ih fun m hm => h m (List.mem_cons_of_mem n hm)⟩

/-- Total length of a list of elements, one separator each. -/
def weight (elems : List Bytes) : Nat := (elems.map fun e => e.length + 1).sum

theorem weight_cons (e : Bytes) (elems : List Bytes) :
    weight (e :: elems) = e.length + 1 + weight elems := by
  simp [weight]

theorem length_join (elems : List Bytes) : (join elems).length = weight elems - 1 := by
  induction elems with
  | nil => rfl
  | cons e elems ih =>
    cases elems with
    | nil => simp [join, weight]
    | cons f elems =>
      rw [join_cons (by simp), List.length_append, List.length_cons, ih]
      simp only [weight_cons]
      omega

theorem weight_split (p : Bytes) : weight (split p) = p.length + 1 := by
  have h := length_join (split p)
  rw [join_split] at h
  have hpos : 0 < weight (split p) := by
    cases hs : split p with
    | nil => exact absurd hs (List.splitOn_ne_nil _ _)
    | cons e elems =>
      rw [weight_cons]
      omega
  omega

theorem weight_cleanStep (rooted : Bool) (stack : List Bytes) (elem : Bytes) :
    weight (cleanStep rooted stack elem) ≤ weight stack + (elem.length + 1) := by
  unfold cleanStep
  by_cases hskip : elem = [] ∨ elem = dot
  · rw [if_pos hskip]
    omega
  · rw [if_neg hskip]
    by_cases hdd : elem = dotdot
    · rw [if_pos hdd, hdd]
      cases stack with
      | nil => cases rooted <;> simp [weight]
      | cons top rest =>
        by_cases ht : top = dotdot
        · simp only [ht, if_true, weight_cons]
          omega
        · simp only [ht, if_false, weight_cons]
          omega
    · rw [if_neg hdd, weight_cons]
      omega

theorem weight_foldl_cleanStep (rooted : Bool) (elems stack : List Bytes) :
    weight (elems.foldl (cleanStep rooted) stack) ≤ weight stack + weight elems := by
  induction elems generalizing stack with
  | nil => simp [weight]
  | cons e elems ih =>
    have hstep := weight_cleanStep rooted stack e
    have hrest := ih (cleanStep rooted stack e)
    rw [weight_cons, List.foldl_cons]
    omega

theorem weight_reverse (elems : List Bytes) : weight elems.reverse = weight elems := by
  simp [weight]

/-- `path.Clean` makes nothing longer, the empty path apart. -/
theorem clean_length (p : Bytes) : (clean p).length ≤ max 1 p.length := by
  unfold clean
  by_cases hr : p.head? = some slash
  · obtain ⟨t, rfl⟩ : ∃ t, p = slash :: t := by
      cases p with
      | nil => simp at hr
      | cons b t => exact ⟨t, by simpa using hr⟩
    have hsplit : split (slash :: t) = [] :: split t := by simpa [split] using split_slash [] t
    have hw := weight_foldl_cleanStep true (split t) []
    rw [weight_split] at hw
    rw [if_pos hr, List.length_cons, length_join, cleanElems, weight_reverse, hsplit,
      List.foldl_cons]
    simp only [cleanStep, true_or, if_true, weight, List.map_nil, List.sum_nil] at hw ⊢
    simp only [List.length_cons]
    omega
  · rw [if_neg hr]
    split
    · exact le_max_of_le_left (by decide)
    · have hw := weight_foldl_cleanStep false (split p) []
      rw [weight_split] at hw
      rw [length_join, cleanElems, weight_reverse]
      simp only [weight, List.map_nil, List.sum_nil] at hw ⊢
      omega

theorem head?_join {elems : List Bytes} (hne : elems ≠ []) (h : ∀ e ∈ elems, e ≠ [] ∧ slash ∉ e) :
    (join elems).head? ≠ some slash := by
  cases elems with
  | nil => exact absurd rfl hne
  | cons e elems =>
    obtain ⟨he, hs⟩ := h e (by simp)
    cases e with
    | nil => exact absurd rfl he
    | cons b e =>
      have hb : b ≠ slash := fun hb => hs (by simp [hb])
      cases elems with
      | nil => simpa [join] using hb
      | cons f elems => simpa [join] using hb

theorem join_ne_nil {elems : List Bytes} (hne : elems ≠ []) (h : ∀ e ∈ elems, e ≠ []) :
    join elems ≠ [] := by
  cases elems with
  | nil => exact absurd rfl hne
  | cons e elems =>
    have he := h e (by simp)
    cases elems with
    | nil => exact he
    | cons f elems => simp [join]

theorem NormalStack.ne_nil {rooted : Bool} {stack : List Bytes} (h : NormalStack rooted stack) :
    ∀ e ∈ stack, e ≠ [] := by
  induction stack with
  | nil => simp
  | cons e stack ih =>
    intro e' he'
    rcases h with ⟨hn, hs⟩ | ⟨rfl, -, hs⟩
    · rcases List.mem_cons.mp he' with rfl | he'
      · exact hn.1
      · exact ih hs e' he'
    · rcases List.mem_cons.mp he' with rfl | he'
      · decide
      · rw [hs e' he']
        decide

/-- Cleaning the elements of a relative clean path changes nothing. -/
theorem clean_join {elems : List Bytes} (hne : elems ≠ []) (h : NormalStack false elems.reverse) :
    clean (join elems) = join elems := by
  have hhead : (join elems).head? ≠ some slash := head?_join hne fun e he =>
    ⟨h.ne_nil e (by simpa using he), h.not_mem_slash e (by simpa using he)⟩
  rw [clean, if_neg hhead, cleanElems_join hne h, if_neg hne]

theorem clean_of_relative {p : Bytes} (h : p.head? ≠ some slash) :
    clean p = if cleanElems false p = [] then dot else join (cleanElems false p) := by
  rw [clean, if_neg h]

theorem clean_clean {p : Bytes} (h : p.head? ≠ some slash) : clean (clean p) = clean p := by
  rw [clean_of_relative h]
  split
  · decide
  · rename_i hne
    exact clean_join hne (cleanElems_normal false p)

theorem clean_names {names : List Bytes} (hne : names ≠ []) (h : ∀ n ∈ names, IsName n) :
    clean (join names) = join names :=
  clean_join hne (normalStack_names fun n hn => h n (by simpa using hn))

/-- A slash at the end is cleaned away. -/
theorem clean_names_slash {names : List Bytes} (hne : names ≠ []) (h : ∀ n ∈ names, IsName n) :
    clean (join names ++ [slash]) = join names := by
  have hstack : NormalStack false names.reverse :=
    normalStack_names fun n hn => h n (by simpa using hn)
  have hhead : (join names ++ [slash]).head? ≠ some slash := by
    rw [List.head?_append]
    have hj := head?_join hne fun e he => ⟨(h e he).1, (h e he).2.2.2⟩
    cases hjn : join names with
    | nil => exact absurd hjn (join_ne_nil hne fun e he => (h e he).1)
    | cons b s =>
      rw [hjn] at hj
      simpa using hj
  have helems : cleanElems false (join names ++ [slash]) = names := by
    have hfix := foldl_cleanStep_reverse hstack
    rw [List.reverse_reverse] at hfix
    rw [cleanElems, split_slash, split_join hne fun e he => (h e he).2.2.2, List.foldl_append, hfix]
    simp [split, cleanStep]
  rw [clean_of_relative hhead, helems, if_neg hne]

/-! ### `utf8.Valid` -/

/-- The ranges of the bytes that follow the first byte of a rune. -/
def runeTail (b : UInt8) : Option (List (UInt8 × UInt8)) :=
  let cont : UInt8 × UInt8 := (0x80, 0xBF)
  if b < 0x80 then some []
  else if b < 0xC2 then none
  else if b ≤ 0xDF then some [cont]
  else if b = 0xE0 then some [(0xA0, 0xBF), cont]
  else if b = 0xED then some [(0x80, 0x9F), cont]
  else if b ≤ 0xEF then some [cont, cont]
  else if b = 0xF0 then some [(0x90, 0xBF), cont, cont]
  else if b ≤ 0xF3 then some [cont, cont, cont]
  else if b = 0xF4 then some [(0x80, 0x8F), cont, cont]
  else none

/-- One byte more; the state is what the rune under way still needs. -/
def utf8Step (pending : Option (List (UInt8 × UInt8))) (b : UInt8) :
    Option (List (UInt8 × UInt8)) :=
  match pending with
  | none => none
  | some [] => runeTail b
  | some (range :: rest) => if range.1 ≤ b ∧ b ≤ range.2 then some rest else none

def utf8Valid (s : Bytes) : Bool := s.foldl utf8Step (some []) = some []

example : utf8Valid (utf8 "aé€😀") = true ∧ utf8Valid [0xED, 0xA0, 0x80] = false := by decide

/-- The rune of a first byte and the bytes that follow it. -/
def runeOf (b : UInt8) (tail : Bytes) : Char :=
  let first := match tail.length with
    | 0 => b.toNat
    | 1 => b.toNat - 0xC0
    | 2 => b.toNat - 0xE0
    | _ => b.toNat - 0xF0
  Char.ofNat (tail.foldl (fun r c => r * 64 + (c.toNat - 0x80)) first)

/-- The runes of a string, as `range` decodes them: a byte that starts none counts as U+FFFD. -/
def decodeRunes : Nat → Bytes → List Char
  | 0, _ | _, [] => []
  | fuel + 1, b :: s =>
    match runeTail b with
    | none => Char.ofNat 0xFFFD :: decodeRunes fuel s
    | some ranges =>
      let tail := s.take ranges.length
      if tail.foldl utf8Step (some ranges) = some [] then
        runeOf b tail :: decodeRunes fuel (s.drop ranges.length)
      else Char.ofNat 0xFFFD :: decodeRunes fuel s

def runes (s : Bytes) : List Char := decodeRunes s.length s

example : runes (utf8 "aé€😀" ++ [0xC3]) = ['a', 'é', '€', '😀', Char.ofNat 0xFFFD] := by decide

end Mdock.Go
