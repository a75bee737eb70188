import Mathlib.Data.List.Infix
import Mdock.Go.Strings

/-! The queries of a full-text table, as the documentation of FTS5 has them. -/
namespace Mdock.Store.Match
open Mdock.Go

/-- A string: a bareword, or what stands between double quotes. -/
inductive Str
  | bare (w : Bytes)
  | quoted (s : Bytes)
  deriving DecidableEq

def Str.text : Str → Bytes
  | .bare w => w
  | .quoted s => s

inductive Token
  | str (s : Str)
  | and | or | not | lparen | rparen | lbrace | rbrace | colon | comma | plus | star | minus | caret
  deriving DecidableEq

/-! ### Reading tokens -/

def quote : UInt8 := 0x22

/-- Letters, digits and what is no ASCII. -/
def isWordByte (c : UInt8) : Bool :=
  (0x30 ≤ c && c ≤ 0x39) || (0x41 ≤ c && c ≤ 0x5A) || (0x61 ≤ c && c ≤ 0x7A) || 0x80 ≤ c

/-- What barewords are made of. -/
def isBare (c : UInt8) : Bool := isWordByte c || c = 0x5F || c = 0x1A

def isSpace (c : UInt8) : Bool := c ∈ ([0x20, 0x09, 0x0A, 0x0D] : Bytes)

def punctuation (c : UInt8) : Option Token :=
  (((utf8 "(){}:,+*-^").zip [.lparen, .rparen, .lbrace, .rbrace, .colon, .comma, .plus, .star,
    .minus, .caret]).find? fun e => e.1 = c).map Prod.snd

/-- The operators are spelled in capital letters. -/
def wordToken (w : Bytes) : Token :=
  if w = utf8 "AND" then .and
  else if w = utf8 "OR" then .or
  else if w = utf8 "NOT" then .not
  else .str (.bare w)

/-- Where the reader stands; behind a quote there may be the second one of an escaped pair. -/
inductive Mode
  | outside
  | word (w : Bytes)
  | quoted (s : Bytes)
  | closing (s : Bytes)

def start (c : UInt8) : Option (List Token × Mode) :=
  if isSpace c then some ([], .outside)
  else if c = quote then some ([], .quoted [])
  else if isBare c then some ([], .word [c])
  else (punctuation c).map fun t => ([t], .outside)

def Mode.step : Mode → UInt8 → Option (List Token × Mode)
  | .outside, c => start c
  | .word w, c =>
    if isBare c then some ([], .word (w ++ [c]))
    else (start c).map fun r => (wordToken w :: r.1, r.2)
  | .quoted s, c => if c = quote then some ([], .closing s) else some ([], .quoted (s ++ [c]))
  | .closing s, c =>
    if c = quote then some ([], .quoted (s ++ [c]))
    else (start c).map fun r => (.str (.quoted s) :: r.1, r.2)

def Mode.finish : Mode → Option (List Token)
  | .outside => some []
  | .word w => some [wordToken w]
  | .quoted _ => none
  | .closing s => some [.str (.quoted s)]

def lex : Mode → Bytes → Option (List Token)
  | m, [] => m.finish
  | m, c :: cs => do
    let r ← m.step c
    let ts ← lex r.2 cs
    return r.1 ++ ts

/-- The tokens of a query; `none` is a syntax error. -/
def tokens (query : Bytes) : Option (List Token) := lex .outside query

/-! ### Syntax trees and their tokens -/

/-- `*` is for the texts that begin with a string. -/
inductive Phrase
  | string (s : Str) (begins : Bool)
  | plus (a b : Phrase)

def Phrase.tokens : Phrase → List Token
  | .string s begins => .str s :: if begins then [.star] else []
  | .plus a b => a.tokens ++ .plus :: b.tokens

structure Digits where
  text : Bytes
  ne : text ≠ []
  digits : ∀ c ∈ text, 0x30 ≤ c ∧ c ≤ 0x39

inductive Body
  | phrase (first : Bool) (p : Phrase)
  | near (p : Phrase) (ps : List Phrase) (within : Option Digits)

def Body.tokens : Body → List Token
  | .phrase first p => (if first then [.caret] else []) ++ p.tokens
  | .near p ps within => .str (.bare (utf8 "NEAR")) :: .lparen :: (p.tokens ++
      ps.flatMap Phrase.tokens ++ within.elim [] (fun n => [.comma, .str (.bare n.text)]) ++
      [.rparen])

inductive Columns
  | one (s : Str)
  | many (s : Str) (ss : List Str)

def Columns.tokens : Columns → List Token
  | .one s => [.str s]
  | .many s ss => .lbrace :: .str s :: ss.map .str ++ [.rbrace]

/-- A column filter; `-` is for all other columns. -/
structure Filter where
  others : Bool
  columns : Columns

def Filter.tokens (f : Filter) : List Token :=
  (if f.others then [.minus] else []) ++ f.columns.tokens ++ [.colon]

structure Term where
  filter : Option Filter
  body : Body

def Term.tokens (t : Term) : List Token := t.filter.elim [] Filter.tokens ++ t.body.tokens

/-- Terms next to each other are all asked for; a query in parentheses is no term. -/
inductive Query
  | terms (t : Term) (ts : List Term)
  | group (filter : Option Filter) (q : Query)
  | and (a b : Query)
  | or (a b : Query)
  | not (a b : Query)

def Query.tokens : Query → List Token
  | .terms t ts => (t :: ts).flatMap Term.tokens
  | .group filter q => filter.elim [] Filter.tokens ++ .lparen :: q.tokens ++ [.rparen]
  | .and a b => a.tokens ++ .and :: b.tokens
  | .or a b => a.tokens ++ .or :: b.tokens
  | .not a b => a.tokens ++ .not :: b.tokens

/-! ### Strings only -/

def Term.string : Term → Option Str
  | ⟨none, .phrase false (.string s false)⟩ => some s
  | _ => none

/-- The strings of a query that has nothing else, parentheses around it apart. -/
def Query.strings : Query → Option (List Str)
  | .terms t ts => (t :: ts).mapM Term.string
  | .group none q => q.strings
  | _ => none

/-- The tokens of such a query. -/
def OnlyStrings (ts : List Token) : Prop := ∃ k ss, ss ≠ [] ∧
  ts = List.replicate k .lparen ++ ss.map .str ++ List.replicate k .rparen

theorem Term.tokens_of_string {t : Term} {s : Str} (h : t.string = some s) : t.tokens = [.str s] := by
  unfold Term.string at h
  split at h
  · rw [← Option.some.inj h]
    rfl
  · simp at h

theorem tokens_of_mapM {ts : List Term} {ss : List Str} (h : ts.mapM Term.string = some ss) :
    ts.flatMap Term.tokens = ss.map .str := by
  induction ts generalizing ss with
  | nil =>
    obtain rfl : [] = ss := by simpa using h
    rfl
  | cons t ts ih =>
    rw [List.mapM_cons] at h
    obtain ⟨s, hs, h⟩ := Option.bind_eq_some_iff.mp h
    obtain ⟨ss', hss, h⟩ := Option.bind_eq_some_iff.mp h
    rw [← Option.some.inj h, List.flatMap_cons, Term.tokens_of_string hs, ih hss]
    rfl

theorem tokens_of_strings {q : Query} {ss : List Str} (h : q.strings = some ss) :
    ss ≠ [] ∧ ∃ k, q.tokens =
      List.replicate k .lparen ++ ss.map .str ++ List.replicate k .rparen := by
  induction q with
  | terms t ts =>
    have htokens := tokens_of_mapM h
    refine ⟨fun hnil => ?_, 0, by rw [Query.tokens, htokens]; simp⟩
    rw [Query.strings, List.mapM_cons] at h
    obtain ⟨s, -, h⟩ := Option.bind_eq_some_iff.mp h
    obtain ⟨ss', -, h⟩ := Option.bind_eq_some_iff.mp h
    simp [hnil] at h
  | group filter q ih =>
    cases filter with
    | some f => simp [Query.strings] at h
    | none =>
      obtain ⟨hne, k, hk⟩ := ih h
      refine ⟨hne, k + 1, ?_⟩
      rw [Query.tokens, hk, List.replicate_succ, List.replicate_succ']
      simp
  | and a b => simp [Query.strings] at h
  | or a b => simp [Query.strings] at h
  | not a b => simp [Query.strings] at h

/-- Every such list of tokens is that of a query. -/
theorem exists_query {ts : List Token} (h : OnlyStrings ts) : ∃ q : Query, q.tokens = ts := by
  obtain ⟨k, ss, hne, rfl⟩ := h
  obtain ⟨s, ss, rfl⟩ := List.exists_cons_of_ne_nil hne
  let term (s : Str) : Term := ⟨none, .phrase false (.string s false)⟩
  have hterms : (Query.terms (term s) (ss.map term)).tokens = (s :: ss).map .str := by
    rw [Query.tokens, ← List.map_cons, List.flatMap_map]
    exact List.map_eq_flatMap.symm
  induction k with
  | zero => exact ⟨_, by simpa using hterms⟩
  | succ k ih =>
    obtain ⟨q, hq⟩ := ih
    refine ⟨.group none q, ?_⟩
    rw [Query.tokens, hq, List.replicate_succ (n := k) (a := Token.lparen), List.replicate_succ']
    simp

/-- Only strings and parentheses, and no string in front of an opening one. -/
def Flat (ts : List Token) : Prop :=
  (∀ t ∈ ts, t = .lparen ∨ t = .rparen ∨ ∃ s, t = .str s) ∧
    ts.Pairwise fun a b => b = .lparen → a = .lparen

theorem Flat.sublist {ts us : List Token} (h : Flat us) (hs : ts.Sublist us) : Flat ts :=
  ⟨fun t ht => h.1 t (hs.subset ht), h.2.sublist hs⟩

theorem flat_of_onlyStrings {ts : List Token} (h : OnlyStrings ts) : Flat ts := by
  obtain ⟨k, ss, -, rfl⟩ := h
  refine ⟨fun t ht => ?_, ?_⟩
  · rw [List.mem_append, List.mem_append] at ht
    rcases ht with (ht | ht) | ht
    · exact .inl (List.eq_of_mem_replicate ht)
    · obtain ⟨s, -, rfl⟩ := List.mem_map.mp ht
      exact .inr (.inr ⟨s, rfl⟩)
    · exact .inr (.inl (List.eq_of_mem_replicate ht))
  · have hlast : ∀ t ∈ ss.map Token.str ++ List.replicate k .rparen, t ≠ .lparen := by
      intro t ht
      rw [List.mem_append] at ht
      rcases ht with ht | ht
      · obtain ⟨s, -, rfl⟩ := List.mem_map.mp ht
        simp
      · rw [List.eq_of_mem_replicate ht]
        simp
    rw [List.append_assoc, List.pairwise_append]
    refine ⟨?_, ?_, ?_⟩
    · exact List.pairwise_of_forall_mem_list fun a ha _ _ _ => List.eq_of_mem_replicate ha
    · exact List.pairwise_of_forall_mem_list fun _ _ b hb heq => absurd heq (hlast b hb)
    · exact fun a ha b hb heq => absurd heq (hlast b hb)

theorem string_of_flat {t : Term} (h : Flat t.tokens) : (t.string).isSome := by
  obtain ⟨filter, body⟩ := t
  cases filter with
  | some f =>
    have hmem := h.1 .colon (by simp [Term.tokens, Filter.tokens])
    simp at hmem
  | none =>
    cases body with
    | near p ps within =>
      have hpair := h.2
      simp [Term.tokens, Body.tokens, List.pairwise_cons] at hpair
    | phrase first p =>
      cases first with
      | true =>
        have hmem := h.1 .caret (by simp [Term.tokens, Body.tokens])
        simp at hmem
      | false =>
        cases p with
        | plus a b =>
          have hmem := h.1 .plus (by simp [Term.tokens, Body.tokens, Phrase.tokens])
          simp at hmem
        | string s begins =>
          cases begins with
          | false => rfl
          | true =>
            have hmem := h.1 .star (by simp [Term.tokens, Body.tokens, Phrase.tokens])
            simp at hmem

theorem isSome_mapM {ts : List Term} (h : ∀ t ∈ ts, (t.string).isSome) :
    (ts.mapM Term.string).isSome := by
  induction ts with
  | nil => rfl
  | cons t ts ih =>
    obtain ⟨s, hs⟩ := Option.isSome_iff_exists.mp (h t List.mem_cons_self)
    obtain ⟨ss, hss⟩ := Option.isSome_iff_exists.mp (ih fun t ht => h t (List.mem_cons_of_mem _ ht))
    rw [List.mapM_cons, hs, hss]
    rfl

/-- Nothing but strings is read from such tokens. -/
theorem strings_of_flat {q : Query} (h : Flat q.tokens) : (q.strings).isSome := by
  induction q with
  | terms t ts =>
    refine isSome_mapM fun t' ht => string_of_flat (h.sublist ?_)
    rw [Query.tokens, List.flatMap_def]
    exact List.sublist_flatten_of_mem (List.mem_map_of_mem ht)
  | group filter q ih =>
    cases filter with
    | some f =>
      have hmem := h.1 .colon (by simp [Query.tokens, Filter.tokens])
      simp at hmem
    | none =>
      refine ih (h.sublist ?_)
      exact ((List.sublist_append_left _ _).trans (List.sublist_cons_self _ _))
  | and a b =>
    have hmem := h.1 .and (by simp [Query.tokens])
    simp at hmem
  | or a b =>
    have hmem := h.1 .or (by simp [Query.tokens])
    simp at hmem
  | not a b =>
    have hmem := h.1 .not (by simp [Query.tokens])
    simp at hmem

/-- A list of tokens is read as strings and nothing else exactly if it is one of strings. -/
theorem onlyStrings_iff (ts : List Token) :
    ((∃ q : Query, q.tokens = ts) ∧ ∀ q : Query, q.tokens = ts → (q.strings).isSome) ↔
      OnlyStrings ts := by
  constructor
  · rintro ⟨⟨q, hq⟩, hall⟩
    obtain ⟨ss, hss⟩ := Option.isSome_iff_exists.mp (hall q hq)
    obtain ⟨hne, k, hk⟩ := tokens_of_strings hss
    exact ⟨k, ss, hne, hq ▸ hk⟩
  · intro h
    exact ⟨exists_query h, fun q hq => strings_of_flat (hq ▸ flat_of_onlyStrings h)⟩

/-! ### Words -/

/-- What the words of a text are taken from. -/
def Token.text : Token → Bytes
  | .str s => s.text
  | .and => utf8 "AND"
  | .or => utf8 "OR"
  | .not => utf8 "NOT"
  | _ => []

theorem text_wordToken (w : Bytes) : (wordToken w).text = w := by
  unfold wordToken
  split_ifs with h₁ h₂ h₃
  · exact h₁.symm
  · exact h₂.symm
  · exact h₃.symm
  · rfl

/-- What was read and is in no token yet. -/
def Mode.pending : Mode → Bytes
  | .outside => []
  | .word w => w
  | .quoted s => s
  | .closing s => s ++ [quote]

theorem isWordByte_of_not_bare {c : UInt8} (h : isBare c = false) : isWordByte c = false := by
  rw [isBare, Bool.or_eq_false_iff, Bool.or_eq_false_iff] at h
  exact h.1.1

theorem isWordByte_of_isSpace {c : UInt8} (h : isSpace c = true) : isWordByte c = false := by
  have hall : (([0x20, 0x09, 0x0A, 0x0D] : Bytes).all fun c => !isWordByte c) = true := by decide
  simpa using List.all_eq_true.mp hall c (of_decide_eq_true h)

section
variable {words : Bytes → List Bytes} (hnil : words [] = [])
  (happend : ∀ u c v, isWordByte c = false → words (u ++ c :: v) = words u ++ words v)
include hnil happend

theorem words_skip {c : UInt8} (hc : isWordByte c = false) (cs : Bytes) :
    words (c :: cs) = words cs := by
  have hskip := happend [] c cs hc
  rwa [hnil, List.nil_append, List.nil_append] at hskip

theorem words_start {c : UInt8} {r : List Token × Mode} (h : start c = some r) (cs : Bytes) :
    words (c :: cs) = words (r.2.pending ++ cs) := by
  unfold start at h
  split_ifs at h with hspace hquote hbare
  · rw [← Option.some.inj h]
    exact words_skip hnil happend (isWordByte_of_isSpace hspace) cs
  · rw [← Option.some.inj h]
    exact words_skip hnil happend (by rw [hquote]; decide) cs
  · rw [← Option.some.inj h]
    rfl
  · obtain ⟨t, -, rfl⟩ := Option.map_eq_some_iff.mp h
    exact words_skip hnil happend (isWordByte_of_not_bare (Bool.eq_false_of_not_eq_true hbare)) cs

/-- A word goes into a token or is still to be read. -/
theorem words_step {m : Mode} {c : UInt8} {r : List Token × Mode} (h : m.step c = some r)
    (cs : Bytes) : ∀ w ∈ words (m.pending ++ c :: cs),
      (∃ t ∈ r.1, w ∈ words t.text) ∨ w ∈ words (r.2.pending ++ cs) := by
  intro w hw
  have hquote : isWordByte quote = false := by decide
  cases m with
  | outside =>
    rw [← words_start hnil happend h]
    exact .inr hw
  | word u =>
    rw [Mode.step] at h
    split_ifs at h with hbare
    · rw [← Option.some.inj h]
      exact .inr (by simpa [Mode.pending] using hw)
    · obtain ⟨r', hr, rfl⟩ := Option.map_eq_some_iff.mp h
      have hc := isWordByte_of_not_bare (Bool.eq_false_of_not_eq_true hbare)
      rw [Mode.pending, happend u c cs hc, List.mem_append] at hw
      refine hw.imp (fun hw => ⟨_, List.mem_cons_self, ?_⟩) fun hw => ?_
      · rwa [text_wordToken]
      · rwa [← words_start hnil happend hr, words_skip hnil happend hc]
  | quoted s =>
    rw [Mode.step] at h
    split_ifs at h with heq
    · rw [← Option.some.inj h]
      exact .inr (by simpa [Mode.pending, heq] using hw)
    · rw [← Option.some.inj h]
      exact .inr (by simpa [Mode.pending] using hw)
  | closing s =>
    rw [Mode.step] at h
    have hbehind : ∀ v, words (s ++ [quote] ++ v) = words s ++ words v := fun v => by
      rw [List.append_assoc]
      exact happend s quote v hquote
    rw [Mode.pending, hbehind] at hw
    split_ifs at h with heq
    · rw [← Option.some.inj h]
      refine .inr ?_
      rw [heq, words_skip hnil happend hquote] at hw
      rw [Mode.pending, heq, hbehind]
      exact hw
    · obtain ⟨r', hr, rfl⟩ := Option.map_eq_some_iff.mp h
      rw [List.mem_append] at hw
      refine hw.imp (fun hw => ⟨_, List.mem_cons_self, hw⟩) fun hw => ?_
      rwa [← words_start hnil happend hr]

/-- A word of a query is a word of one of its tokens. -/
theorem words_lex {m : Mode} {cs : Bytes} {ts : List Token} (h : lex m cs = some ts) :
    ∀ w ∈ words (m.pending ++ cs), ∃ t ∈ ts, w ∈ words t.text := by
  intro w hw
  induction cs generalizing m ts with
  | nil =>
    rw [List.append_nil] at hw
    cases m with
    | outside => simp [Mode.pending, hnil] at hw
    | word u =>
      rw [← Option.some.inj h]
      exact ⟨_, List.mem_cons_self, by rwa [text_wordToken]⟩
    | quoted s => simp [lex, Mode.finish] at h
    | closing s =>
      rw [Mode.pending, happend s quote [] (by decide), hnil, List.append_nil] at hw
      rw [← Option.some.inj h]
      exact ⟨_, List.mem_cons_self, hw⟩
  | cons c cs ih =>
    rw [lex] at h
    obtain ⟨r, hr, h⟩ := Option.bind_eq_some_iff.mp h
    obtain ⟨us, hus, h⟩ := Option.bind_eq_some_iff.mp h
    rw [← Option.some.inj h]
    rcases words_step hnil happend hr cs w hw with ⟨t, ht, hwt⟩ | hrest
    · exact ⟨t, List.mem_append_left us ht, hwt⟩
    · obtain ⟨t, ht, hwt⟩ := ih hus hrest
      exact ⟨t, List.mem_append_right r.1 ht, hwt⟩

end

end Mdock.Store.Match
