import Mdock.Editor.Commands
import Mdock.Search.Frontmatter

/-! The lists of tags and aliases in the three notations in use, and what the indexer reads
back of them. -/
namespace Mdock.Search
open Mdock.Go

def dquote : UInt8 := 0x22

/-- The two lists of a block. -/
inductive Field
  | aliases
  | tags
  deriving DecidableEq

namespace Field

def key : Field → Bytes
  | aliases => utf8 "aliases"
  | tags => utf8 "tags"

/-- The key as the editor is given it. -/
def name : Field → Js.Text
  | aliases => Js.units "aliases"
  | tags => Js.units "tags"

def get (m : Fields) : Field → List Bytes
  | aliases => m.aliases
  | tags => m.tags

def add (m : Fields) (items : List Bytes) : Field → Fields
  | aliases => { m with aliases := m.aliases ++ items }
  | tags => { m with tags := m.tags ++ items }

def entry (val : Bytes) : Field → Entry
  | aliases => .aliases val
  | tags => .tags val

/-- The list is open. -/
def opened (m : Fields) : Field → Reading
  | aliases => ⟨m, true, false⟩
  | tags => ⟨m, false, true⟩

def isOpen (r : Reading) : Field → Bool
  | aliases => r.inAliases
  | tags => r.inTags

variable (f : Field)

theorem get_add (m : Fields) (items : List Bytes) : f.get (f.add m items) = f.get m ++ items := by
  cases f <;> rfl

theorem readEntry_entry (m : Fields) (val : Bytes) :
    readEntry m (f.entry val) = f.opened (f.add m (inlineItems val)) := by
  cases f <;> rfl

theorem fields_opened (m : Fields) : (f.opened m).fields = m := by
  cases f <;> rfl

end Field

/-- A tag or an alias: words with single spaces or hyphens inside. -/
structure IsItem (b : Bytes) : Prop where
  trimmed : IsTrimmed b
  bytes : ∀ c ∈ b, c ≠ newline ∧ c ≠ comma ∧ c ∉ quotes ∧ c ∉ brackets
  hyphens : ¬ fence <:+: b

/-- How a list stands in a block: lines with a hyphen, brackets, brackets with quoted items. -/
inductive Style
  | block
  | plain
  | quoted
  deriving DecidableEq

/-- `parts.join(", ")`. -/
def commas (parts : List Bytes) : Bytes := (utf8 ", ").intercalate parts

def quote (item : Bytes) : Bytes := dquote :: (item ++ [dquote])

/-- `key: [a, b]`. -/
def inlineLine (f : Field) (parts : List Bytes) : Bytes :=
  f.key ++ colon :: space :: 0x5B :: (commas parts ++ [0x5D])

namespace Style

/-- The lines that hold a list. -/
def write (f : Field) (items : List Bytes) : Style → List Bytes
  | block => (f.key ++ [colon]) :: items.map (utf8 "- " ++ ·)
  | plain => [inlineLine f items]
  | quoted => [inlineLine f (items.map quote)]

/-- The lists that come back. -/
def Reads (items : List Bytes) : Style → Prop
  | block => True
  | plain => items ≠ []
  | quoted => items.length = 1

end Style

/-! ### Values in brackets -/

@[simp] theorem commas_singleton (p : Bytes) : commas [p] = p := List.intercalate_singleton

theorem commas_cons_cons (p q : Bytes) (ps : List Bytes) :
    commas (p :: q :: ps) = p ++ (comma :: space :: commas (q :: ps)) := by
  rw [commas, List.intercalate_cons_cons, List.append_assoc]
  rfl

theorem commas_cons (p : Bytes) (ps : List Bytes) :
    commas (p :: ps) = [comma].intercalate (p :: ps.map (space :: ·)) := by
  induction ps generalizing p with
  | nil => rfl
  | cons q ps ih =>
    rw [commas_cons_cons, ih, List.map_cons, List.intercalate_cons_cons,
      List.intercalate_cons_cons_left, List.append_assoc, List.singleton_append]

theorem mem_commas {parts : List Bytes} {c : UInt8} (h : c ∈ commas parts) :
    c = comma ∨ c = space ∨ ∃ p ∈ parts, c ∈ p := by
  cases parts with
  | nil => cases h
  | cons p ps =>
    induction ps generalizing p with
    | nil => exact .inr (.inr ⟨p, by simp, by simpa using h⟩)
    | cons q ps ih =>
      rw [commas_cons_cons, List.mem_append, List.mem_cons, List.mem_cons] at h
      rcases h with h | h | h | h
      · exact .inr (.inr ⟨p, by simp, h⟩)
      · exact .inl h
      · exact .inr (.inl h)
      · exact (ih q h).imp_right fun h => h.imp_right fun ⟨r, hr, hc⟩ =>
          ⟨r, List.mem_cons_of_mem p hr, hc⟩

/-- The items of a value in brackets are its parts, each trimmed. -/
theorem inlineItems_commas {p : Bytes} {ps : List Bytes}
    (hparts : ∀ q ∈ p :: ps, ∀ c ∈ q, c ≠ comma ∧ c ∉ brackets) :
    inlineItems (0x5B :: (commas (p :: ps) ++ [0x5D])) =
      trimSpace (trim quotes p) :: ps.map fun q => trimSpace (trim quotes (space :: q)) := by
  have hbytes : ∀ c ∈ commas (p :: ps), c ∉ brackets := by
    intro c hc
    rcases mem_commas hc with rfl | rfl | ⟨q, hq, hc⟩
    · decide
    · decide
    · exact (hparts q hq c hc).2
  have hopen : (0x5B : UInt8) :: (commas (p :: ps) ++ [0x5D]) ≠ utf8 "[" := fun h => by
    have := congrArg List.length h
    simp [show (utf8 "[").length = 1 from rfl] at this
  have hclose : (0x5B : UInt8) :: (commas (p :: ps) ++ [0x5D]) ≠ utf8 "]" := fun h =>
    absurd (List.cons.inj h).1 (by decide)
  have htrim : trim brackets (0x5B :: (commas (p :: ps) ++ [0x5D])) = commas (p :: ps) := by
    rw [trim_cons (by decide), trim_concat (by decide)]
    exact trim_of_not (fun a ha => hbytes a (List.mem_of_head? ha))
      fun a ha => hbytes a (List.mem_of_getLast? ha)
  have hsplit : (commas (p :: ps)).splitOn comma = p :: ps.map (space :: ·) := by
    rw [commas_cons]
    refine List.splitOn_intercalate comma ?_ (by simp)
    intro q hq hc
    rcases List.mem_cons.mp hq with rfl | hq
    · exact (hparts q (by simp) comma hc).1 rfl
    · obtain ⟨r, hr, rfl⟩ := List.mem_map.mp hq
      rcases List.mem_cons.mp hc with hc | hc
      · exact absurd hc (by decide)
      · exact (hparts r (List.mem_cons_of_mem p hr) comma hc).1 rfl
  rw [inlineItems, if_neg (by simp [hopen, hclose]), htrim, hsplit, List.map_cons, List.map_map]
  rfl

example : inlineItems (utf8 "[]") = [[]] := by decide

section Items
variable {i : Bytes}

theorem IsItem.trim_quotes (h : IsItem i) : trim quotes i = i :=
  trim_of_not (fun a ha => (h.bytes a (List.mem_of_head? ha)).2.2.1)
    fun a ha => (h.bytes a (List.mem_of_getLast? ha)).2.2.1

theorem IsItem.trim_first (h : IsItem i) : trimSpace (trim quotes i) = i := by
  rw [h.trim_quotes, h.trimmed.trimSpace]

theorem IsItem.getLast (h : IsItem i) (b : UInt8) :
    ∀ a, (b :: i).getLast? = some a → a ∉ quotes := by
  intro a ha
  rw [List.getLast?_cons, List.getLast?_eq_some_getLast h.trimmed.ne_nil] at ha
  obtain rfl : i.getLast h.trimmed.ne_nil = a := by simpa using ha
  exact (h.bytes _ (List.getLast_mem _)).2.2.1

theorem IsItem.trim_next (h : IsItem i) : trimSpace (trim quotes (space :: i)) = i := by
  have hhead : ∀ a, (space :: i).head? = some a → a ∉ quotes := by
    intro a ha
    obtain rfl := Option.some.inj ha
    decide
  rw [trim_of_not hhead (h.getLast space)]
  exact h.trimmed.trimSpace_space

theorem IsItem.trim_quoted (h : IsItem i) : trimSpace (trim quotes (quote i)) = i := by
  rw [quote, trim_cons (by decide), trim_concat (by decide), h.trim_first]

/-- A quoted item that is not the first keeps its opening quote. -/
theorem IsItem.trim_next_quoted (h : IsItem i) :
    trimSpace (trim quotes (space :: quote i)) = dquote :: i := by
  have hlast : ∀ a, (space :: dquote :: i).getLast? = some a → a ∉ quotes := by
    intro a ha
    exact h.getLast dquote a (by rwa [List.getLast?_cons_cons] at ha)
  have hhead : ∀ a, (space :: dquote :: i).head? = some a → a ∉ quotes := by
    intro a ha
    obtain rfl := Option.some.inj ha
    decide
  have hq : space :: quote i = (space :: dquote :: i) ++ [dquote] := by simp [quote]
  rw [hq, trim_concat (by decide), trim_of_not hhead hlast]
  exact (h.trimmed.cons (by decide)).trimSpace_space

end Items

theorem inlineItems_plain {i : Bytes} {is : List Bytes} (h : ∀ j ∈ i :: is, IsItem j) :
    inlineItems (0x5B :: (commas (i :: is) ++ [0x5D])) = i :: is := by
  rw [inlineItems_commas fun q hq c hc => ⟨((h q hq).bytes c hc).2.1, ((h q hq).bytes c hc).2.2.2⟩,
    (h i (by simp)).trim_first]
  congr 1
  exact (List.map_congr_left fun j hj => (h j (List.mem_cons_of_mem i hj)).trim_next).trans
    (List.map_id _)

theorem inlineItems_quoted {i : Bytes} {is : List Bytes} (h : ∀ j ∈ i :: is, IsItem j) :
    inlineItems (0x5B :: (commas ((i :: is).map quote) ++ [0x5D])) =
      i :: is.map (dquote :: ·) := by
  have hparts : ∀ q ∈ (i :: is).map quote, ∀ c ∈ q, c ≠ comma ∧ c ∉ brackets := by
    intro q hq c hc
    obtain ⟨j, hj, rfl⟩ := List.mem_map.mp hq
    rw [quote, List.mem_cons, List.mem_append, List.mem_singleton] at hc
    rcases hc with rfl | hc | rfl
    · decide
    · exact ⟨((h j hj).bytes c hc).2.1, ((h j hj).bytes c hc).2.2.2⟩
    · decide
  rw [List.map_cons] at hparts ⊢
  rw [inlineItems_commas hparts, (h i (by simp)).trim_quoted, List.map_map]
  congr 1
  exact List.map_congr_left fun j hj => (h j (List.mem_cons_of_mem i hj)).trim_next_quoted

/-! ### The lines of a list -/

theorem entry_key (f : Field) (v : Bytes) :
    entry (f.key ++ colon :: v) = f.entry (trim quotes (trimSpace v)) := by
  have hcut : cut colon (f.key ++ colon :: v) = (f.key, some v) :=
    cut_append (by cases f <;> decide) v
  rw [entry, hcut]
  cases f with
  | aliases =>
    simp only [show lower (trimSpace Field.aliases.key) = "aliases".toList by decide]
    rfl
  | tags =>
    simp only [show lower (trimSpace Field.tags.key) = "tags".toList by decide]
    rfl

theorem isTrimmed_key (f : Field) {m : Bytes} {b : UInt8} (hb : IsInk b) :
    IsTrimmed (f.key ++ (m ++ [b])) := by
  cases f with
  | aliases =>
    exact isTrimmed_ends (a := 0x61) (by decide) hb (utf8 "liases" ++ m)
  | tags =>
    exact isTrimmed_ends (a := 0x74) (by decide) hb (utf8 "ags" ++ m)

/-- A line with the key of a list opens the list. -/
theorem readLine_key (f : Field) (r : Reading) {v : Bytes} (h : IsTrimmed (f.key ++ colon :: v)) :
    readLine r (f.key ++ colon :: v) =
      f.opened (f.add r.fields (inlineItems (trim quotes (trimSpace v)))) := by
  have hdash : ¬ utf8 "- " <+: f.key ++ colon :: v := by
    rintro ⟨t, ht⟩
    have hhead := congrArg List.head? ht
    cases f <;> exact absurd (Option.some.inj hhead) (by decide)
  rw [readLine, h.trimSpace]
  simp only
  rw [if_neg h.ne_nil, if_neg (fun hi => hdash hi.1), entry_key, f.readEntry_entry]

/-- A line with a hyphen adds its item to the open list. -/
theorem readLine_item (f : Field) (m : Fields) {i : Bytes} (h : IsItem i) :
    readLine (f.opened m) (utf8 "- " ++ i) = f.opened (f.add m [i]) := by
  have htrim : trimSpace (utf8 "- " ++ i) = utf8 "- " ++ i :=
    (h.trimmed.cons_space (c := 0x2D) (by decide)).trimSpace
  have hdrop : (utf8 "- " ++ i).drop 2 = i := rfl
  have hopen : (f.opened m).inAliases = true ∨ (f.opened m).inTags = true := by
    cases f
    · exact .inl rfl
    · exact .inr rfl
  rw [readLine, htrim]
  simp only
  rw [if_neg (by simp [show utf8 "- " = [0x2D, 0x20] from rfl]),
    if_pos ⟨List.prefix_append _ i, hopen⟩, hdrop, h.trimmed.trimSpace, h.trim_quotes]
  cases f <;> rfl

theorem foldl_readLine_items (f : Field) (m : Fields) {items : List Bytes}
    (h : ∀ i ∈ items, IsItem i) : (items.map (utf8 "- " ++ ·)).foldl readLine (f.opened m) =
      f.opened (f.add m items) := by
  induction items generalizing m with
  | nil => cases f <;> simp [Field.add]
  | cons i items ih =>
    rw [List.map_cons, List.foldl_cons, readLine_item f m (h i (by simp)),
      ih _ fun j hj => h j (List.mem_cons_of_mem i hj)]
    cases f <;> simp [Field.add]

/-- What comes back of a list. -/
def readBack (items : List Bytes) : Style → List Bytes
  | .block => items
  | .plain => if items = [] then [[]] else items
  | .quoted =>
    match items with
    | [] => [[]]
    | i :: is => i :: is.map (dquote :: ·)

theorem readBack_eq_iff (items : List Bytes) (st : Style) :
    readBack items st = items ↔ st.Reads items := by
  cases st with
  | block => simp [readBack, Style.Reads]
  | plain => cases items <;> simp [readBack, Style.Reads]
  | quoted =>
    cases items with
    | nil => simp [readBack, Style.Reads]
    | cons i is =>
      cases is with
      | nil => simp [readBack, Style.Reads]
      | cons j is =>
        have hne : dquote :: j ≠ j := fun h => by simpa using congrArg List.length h
        simp [readBack, Style.Reads, hne]

theorem readLine_inline (f : Field) (r : Reading) (parts : List Bytes) :
    readLine r (inlineLine f parts) =
      f.opened (f.add r.fields (inlineItems (0x5B :: (commas parts ++ [0x5D])))) := by
  have hinner : IsTrimmed (0x5B :: (commas parts ++ [0x5D])) :=
    isTrimmed_ends (by decide) (by decide) _
  have htrim : trim quotes (0x5B :: (commas parts ++ [0x5D])) = 0x5B :: (commas parts ++ [0x5D]) := by
    refine trim_of_not (fun a ha => ?_) fun a ha => ?_
    · obtain rfl := Option.some.inj ha
      decide
    · rw [← List.cons_append, List.getLast?_concat] at ha
      obtain rfl := Option.some.inj ha
      decide
  have hline : IsTrimmed (f.key ++ colon :: space :: 0x5B :: (commas parts ++ [0x5D])) := by
    have h := isTrimmed_key f (m := colon :: space :: 0x5B :: commas parts) (b := 0x5D) (by decide)
    simpa using h
  have hspace : trimSpace (space :: 0x5B :: (commas parts ++ [0x5D])) = _ := hinner.trimSpace_space
  rw [inlineLine, readLine_key f r hline, hspace, htrim]

/-- The lines of a list leave the list open, with what comes back of it added. -/
theorem foldl_readLine_write (f : Field) (r : Reading) (st : Style) {items : List Bytes}
    (h : ∀ i ∈ items, IsItem i) : (st.write f items).foldl readLine r =
      f.opened (f.add r.fields (readBack items st)) := by
  cases st with
  | block =>
    have hhead : readLine r (f.key ++ [colon]) = f.opened r.fields := by
      have hline : IsTrimmed (f.key ++ colon :: []) := isTrimmed_key f (m := []) (by decide)
      rw [readLine_key f r hline]
      cases f <;> simp [show inlineItems (trim quotes (trimSpace [])) = [] by decide, Field.add]
    rw [Style.write, List.foldl_cons, hhead, foldl_readLine_items f _ h, readBack]
  | plain =>
    rw [Style.write, List.foldl_cons, List.foldl_nil, readLine_inline, readBack]
    cases items with
    | nil => rfl
    | cons i is => rw [inlineItems_plain h, if_neg (by simp)]
  | quoted =>
    rw [Style.write, List.foldl_cons, List.foldl_nil, readLine_inline]
    cases items with
    | nil => rfl
    | cons i is =>
      rw [inlineItems_quoted h]
      rfl

/-! ### Around a list -/

/-- The other lines of a block: they hold no such list, and what follows the list ends it. -/
structure Around (f : Field) (before after : List Bytes) : Prop where
  lines : ∀ l ∈ before ++ after, newline ∉ l ∧ ¬ fence <:+: l
  keys : ∀ l ∈ before ++ after, ∀ val, entry (trimSpace l) ≠ f.entry val
  ends : ∀ l, (after.map trimSpace).find? (· ≠ []) = some l → ¬ utf8 "- " <+: l

theorem readEntry_other (f : Field) (m : Fields) {e : Entry} (h : ∀ val, e ≠ f.entry val) :
    f.get (readEntry m e).fields = f.get m ∧ f.isOpen (readEntry m e) = false := by
  cases f <;> cases e <;> first | exact ⟨rfl, rfl⟩ | exact absurd rfl (h _)

/-- A closed list stays as it is. -/
theorem readLine_closed (f : Field) {r : Reading} (hr : f.isOpen r = false) {line : Bytes}
    (h : ∀ val, entry (trimSpace line) ≠ f.entry val) :
    f.get (readLine r line).fields = f.get r.fields ∧ f.isOpen (readLine r line) = false := by
  unfold readLine
  simp only
  split
  · exact ⟨rfl, hr⟩
  · split
    · rename_i hi
      split
      · rename_i ha
        cases f with
        | aliases => exact absurd (ha.symm.trans hr) (by decide)
        | tags => exact ⟨rfl, hr⟩
      · rename_i ha
        cases f with
        | aliases => exact ⟨rfl, hr⟩
        | tags =>
          rcases hi.2 with h | h
          · exact absurd h ha
          · exact absurd (h.symm.trans hr) (by decide)
    · exact readEntry_other f _ h

theorem foldl_readLine_closed (f : Field) {lines : List Bytes} {r : Reading}
    (hr : f.isOpen r = false) (h : ∀ l ∈ lines, ∀ val, entry (trimSpace l) ≠ f.entry val) :
    f.get (lines.foldl readLine r).fields = f.get r.fields ∧
      f.isOpen (lines.foldl readLine r) = false := by
  induction lines generalizing r with
  | nil => exact ⟨rfl, hr⟩
  | cons l lines ih =>
    obtain ⟨hg, ho⟩ := readLine_closed f hr (h l (by simp))
    obtain ⟨hg', ho'⟩ := ih ho fun m hm => h m (List.mem_cons_of_mem l hm)
    exact ⟨hg'.trans hg, ho'⟩

/-- What follows an open list closes it and adds nothing. -/
theorem foldl_readLine_after (f : Field) (m : Fields) {after : List Bytes}
    (hkeys : ∀ l ∈ after, ∀ val, entry (trimSpace l) ≠ f.entry val)
    (hends : ∀ l, (after.map trimSpace).find? (· ≠ []) = some l → ¬ utf8 "- " <+: l) :
    f.get (after.foldl readLine (f.opened m)).fields = f.get m := by
  induction after with
  | nil => exact congrArg f.get (f.fields_opened m)
  | cons l after ih =>
    have hrest : ∀ l' ∈ after, ∀ val, entry (trimSpace l') ≠ f.entry val :=
      fun l' hl => hkeys l' (List.mem_cons_of_mem l hl)
    rw [List.foldl_cons]
    rw [List.map_cons] at hends
    by_cases hblank : trimSpace l = []
    · rw [readLine, if_pos hblank]
      rw [List.find?_cons_of_neg (by simpa using hblank)] at hends
      exact ih hrest hends
    · have hno := hends (trimSpace l) (List.find?_cons_of_pos (by simpa using hblank))
      have hstep : readLine (f.opened m) l = readEntry m (entry (trimSpace l)) := by
        rw [readLine, if_neg hblank, if_neg (fun hi => hno hi.1), f.fields_opened]
      obtain ⟨hg, ho⟩ := readEntry_other f m (hkeys l (by simp))
      rw [hstep, (foldl_readLine_closed f ho hrest).1, hg]

/-! ### Lists in a page -/

theorem not_fence_append {a b : Bytes} {c : UInt8} (hc : c ∉ fence) (ha : ¬ fence <:+: a)
    (hb : ¬ fence <:+: b) : ¬ fence <:+: a ++ c :: b := fun h =>
  (infix_of_append_cons hc h).elim ha hb

theorem not_fence_cons {b : Bytes} {c : UInt8} (hc : c ∉ fence) (hb : ¬ fence <:+: b) :
    ¬ fence <:+: c :: b := not_fence_append (a := []) hc (by decide) hb

theorem not_fence_commas {parts : List Bytes} (h : ∀ p ∈ parts, ¬ fence <:+: p) :
    ¬ fence <:+: commas parts := by
  cases parts with
  | nil => decide
  | cons p ps =>
    induction ps generalizing p with
    | nil => simpa using h p (by simp)
    | cons q ps ih =>
      rw [commas_cons_cons]
      exact not_fence_append (by decide) (h p (by simp))
        (not_fence_cons (by decide) (ih q fun r hr => h r (List.mem_cons_of_mem p hr)))

/-- An inline list is a line without a fence if its parts are. -/
theorem inlineLine_line (f : Field) {parts : List Bytes}
    (h : ∀ p ∈ parts, newline ∉ p ∧ ¬ fence <:+: p) :
    newline ∉ inlineLine f parts ∧ ¬ fence <:+: inlineLine f parts := by
  have hkey : newline ∉ f.key ∧ ¬ fence <:+: f.key := by cases f <;> decide
  have hcommas : newline ∉ commas parts := by
    intro hm
    rcases mem_commas hm with hm | hm | ⟨p, hp, hm⟩
    · exact absurd hm (by decide)
    · exact absurd hm (by decide)
    · exact (h p hp).1 hm
  constructor
  · intro hm
    simp only [inlineLine, List.mem_append, List.mem_cons, List.not_mem_nil, or_false] at hm
    rcases hm with hm | hm | hm | hm | hm | hm
    · exact hkey.1 hm
    · exact absurd hm (by decide)
    · exact absurd hm (by decide)
    · exact absurd hm (by decide)
    · exact hcommas hm
    · exact absurd hm (by decide)
  · exact not_fence_append (by decide) hkey.2 (not_fence_cons (by decide)
      (not_fence_cons (by decide) (not_fence_append (by decide)
        (not_fence_commas fun p hp => (h p hp).2) (by decide))))

theorem write_lines (f : Field) (st : Style) {items : List Bytes} (h : ∀ i ∈ items, IsItem i) :
    ∀ l ∈ st.write f items, newline ∉ l ∧ ¬ fence <:+: l := by
  have hitem : ∀ i ∈ items, newline ∉ i ∧ ¬ fence <:+: i := fun i hi =>
    ⟨fun hm => ((h i hi).bytes newline hm).1 rfl, (h i hi).hyphens⟩
  cases st with
  | block =>
    intro l hl
    rcases List.mem_cons.mp hl with rfl | hl
    · cases f <;> decide
    · obtain ⟨i, hi, rfl⟩ := List.mem_map.mp hl
      refine ⟨?_, not_fence_append (a := [0x2D]) (by decide) (by decide) (hitem i hi).2⟩
      rw [List.mem_append]
      exact fun hm => hm.elim (by decide) (hitem i hi).1
  | plain =>
    intro l hl
    rw [List.mem_singleton.mp hl]
    exact inlineLine_line f hitem
  | quoted =>
    intro l hl
    rw [List.mem_singleton.mp hl]
    refine inlineLine_line f fun p hp => ?_
    obtain ⟨i, hi, rfl⟩ := List.mem_map.mp hp
    refine ⟨?_, not_fence_cons (by decide)
      (not_fence_append (by decide) (hitem i hi).2 (by decide))⟩
    rw [quote, List.mem_cons, List.mem_append, List.mem_singleton]
    rintro (hm | hm | hm)
    · exact absurd hm (by decide)
    · exact (hitem i hi).1 hm
    · exact absurd hm (by decide)

/-- What the indexer returns for a list of tags or aliases of a page. -/
theorem get_extractFrontmatter (f : Field) (st : Style) {items before after : List Bytes}
    (hitems : ∀ i ∈ items, IsItem i) (h : Around f before after) (rest : Bytes) :
    f.get (extractFrontmatter (page (before ++ st.write f items ++ after) rest)) =
      readBack items st := by
  have hlines : ∀ l ∈ before ++ st.write f items ++ after, newline ∉ l ∧ ¬ fence <:+: l := by
    intro l hl
    rw [List.mem_append, List.mem_append] at hl
    rcases hl with (hl | hl) | hl
    · exact h.lines l (List.mem_append_left _ hl)
    · exact write_lines f st hitems l hl
    · exact h.lines l (List.mem_append_right _ hl)
  have hstart : f.isOpen {} = false ∧ f.get ({} : Reading).fields = [] := by
    cases f <;> exact ⟨rfl, rfl⟩
  obtain ⟨hbefore, -⟩ := foldl_readLine_closed f hstart.1
    fun l hl => h.keys l (List.mem_append_left after hl)
  rw [extractFrontmatter_page (fun l hl => (hlines l hl).1) fun l hl => (hlines l hl).2, readLines,
    List.foldl_append, List.foldl_append, foldl_readLine_write f _ st hitems,
    foldl_readLine_after f _ (fun l hl => h.keys l (List.mem_append_right before hl)) h.ends,
    f.get_add, hbefore, hstart.2, List.nil_append]

/-! ### What the editor writes -/

/-- UTF-8 of one code unit; a surrogate that stands alone is sent as U+FFFD. -/
def encodeUnit (c : UInt16) : Bytes :=
  String.utf8EncodeChar (if Js.isHigh c || Js.isLow c then Char.ofNat 0xFFFD else Char.ofNat c.toNat)

/-- The UTF-8 in which the browser sends a text. -/
def encode : Js.Text → Bytes
  | c :: d :: s =>
    if Js.isHigh c && Js.isLow d then
      String.utf8EncodeChar (Char.ofNat (0x10000 + (c.toNat - 0xD800) * 0x400 + (d.toNat - 0xDC00)))
        ++ encode s
    else encodeUnit c ++ encode (d :: s)
  | [c] => encodeUnit c
  | [] => []

theorem encode_cons {c : UInt16} (hc : Js.isHigh c = false) (s : Js.Text) :
    encode (c :: s) = encodeUnit c ++ encode s := by
  cases s with
  | nil => simp [encode]
  | cons d s => simp [encode, hc]

/-- Texts are encoded apart where no pair of surrogates is torn. -/
theorem encode_append (s : Js.Text) {d : UInt16} (hd : Js.isLow d = false) (t : Js.Text) :
    encode (s ++ d :: t) = encode s ++ encode (d :: t) := by
  fun_induction encode s with
  | case1 c e s hpair ih => simp [encode, hpair, ih]
  | case2 c e s hpair ih =>
    rw [List.cons_append, List.cons_append, encode, if_neg hpair, ← List.cons_append, ih,
      List.append_assoc]
  | case3 c => simp [encode, hd]
  | case4 => rfl

theorem encode_stringify {s : Js.Text} (h : Js.quoteUnits s = s) :
    encode (Js.stringify s) = quote (encode s) := by
  rw [Js.stringify, h, show Js.units "\"" = [0x22] from rfl, List.singleton_append,
    List.cons_append, encode_cons (by decide), encode_append s (by decide)]
  rfl

/-- ASCII is encoded byte by byte. -/
theorem encode_ascii {p : Js.Text} (h : ∀ c ∈ p, c < 0x80) (s : Js.Text) :
    encode (p ++ s) = p.map (fun c => UInt8.ofNat c.toNat) ++ encode s := by
  have unit : ∀ n < 128, Js.isHigh (UInt16.ofNat n) = false ∧
      encodeUnit (UInt16.ofNat n) = [UInt8.ofNat n] := by decide +kernel
  induction p with
  | nil => rfl
  | cons c p ih =>
    have hc : c.toNat < 128 := UInt16.lt_iff_toNat_lt.mp (h c (by simp))
    obtain ⟨hhigh, hbyte⟩ := unit c.toNat hc
    rw [UInt16.ofNat_toNat] at hhigh hbyte
    rw [List.cons_append, encode_cons hhigh, hbyte,
      ih fun d hd => h d (List.mem_cons_of_mem c hd)]
    rfl

theorem encode_join {items : List Js.Text} (h : ∀ s ∈ items, Js.quoteUnits s = s) :
    encode (Js.join (Js.units ", ") (items.map Js.stringify)) =
      commas (items.map fun s => quote (encode s)) := by
  cases items with
  | nil => rfl
  | cons s items =>
    induction items generalizing s with
    | nil =>
      simpa [Js.join] using encode_stringify (h s (by simp))
    | cons t items ih =>
      have hj : Js.join (Js.units ", ") ((s :: t :: items).map Js.stringify) =
          Js.stringify s ++ 0x2C :: 0x20 :: Js.join (Js.units ", ") ((t :: items).map Js.stringify) := by
        simp [Js.join, List.intercalate, show Js.units ", " = [0x2C, 0x20] from rfl]
      have hc : commas ((s :: t :: items).map fun s => quote (encode s)) =
          quote (encode s) ++ comma :: space :: commas ((t :: items).map fun s => quote (encode s)) :=
        commas_cons_cons _ _ _
      rw [hj, hc, encode_append _ (by decide), encode_cons (by decide), encode_cons (by decide),
        encode_stringify (h s (by simp)), ih t fun u hu => h u (List.mem_cons_of_mem s hu)]
      rfl

open Editor.Commands in
/-- The block the editor writes for one list is a page with the list in quotes. -/
theorem encode_frontmatterBlock (f : Field) {items : List Js.Text} {value : Value}
    (hshape : value.shape = .array (items.map some)) (h : ∀ s ∈ items, Js.quoteUnits s = s) :
    (frontmatterBlock [(f.name, value)]).map encode =
      some (page (Style.quoted.write f (items.map encode)) [newline]) := by
  have hitems : ∀ texts : List Js.Text, (texts.map some).mapM id = some texts := by
    intro texts
    induction texts with
    | nil => rfl
    | cons s texts ih => simp [ih]
  have hblock : frontmatterBlock [(f.name, value)] = some (Js.units "---\n" ++ f.name ++
      Js.units ": [" ++ (Js.join (Js.units ", ") (items.map Js.stringify) ++
        0x5D :: Js.units "\n---\n")) := by
    have hone : ∀ s : Js.Text, Js.join [Js.newline] [s] = s := fun s => by
      simp [Js.join, List.intercalate]
    simp [frontmatterBlock, formatYamlValue, hshape, hitems, hone]
    rfl
  have hascii : ∀ c ∈ Js.units "---\n" ++ f.name ++ Js.units ": [", c < 0x80 := by
    have hall : (Js.units "---\n" ++ f.name ++ Js.units ": [").all (fun c => c < 0x80) = true := by
      cases f <;> decide
    exact fun c hc => of_decide_eq_true (List.all_eq_true.mp hall c hc)
  rw [hblock, Option.map_some, encode_ascii hascii, encode_append _ (by decide), encode_join h]
  have hend : encode (0x5D :: Js.units "\n---\n") = 0x5D :: newline :: (fence ++ [newline]) := by
    decide
  have hstart : (Js.units "---\n" ++ f.name ++ Js.units ": [").map (fun c => UInt8.ofNat c.toNat) =
      fence ++ newline :: (f.key ++ [colon, space, 0x5B]) := by cases f <;> decide
  rw [hend, hstart]
  simp [page, Style.write, inlineLine, unlines, List.map_map, Function.comp_def]

/-- The indexer reads a list of tags or aliases back exactly in block form, in plain brackets
if it is not empty, and in quotes if it has one item. -/
theorem list_read_back_iff (f : Field) (st : Style) {items before after : List Bytes}
    {rest : Bytes} (hitems : ∀ i ∈ items, IsItem i) (h : Around f before after)
    (_ : IsRest rest) :
    f.get (extractFrontmatter (page (before ++ st.write f items ++ after) rest)) = items ↔
      st.Reads items := by
  rw [get_extractFrontmatter f st hitems h]
  exact readBack_eq_iff items st

theorem isItem_home : IsItem (utf8 "дом") :=
  ⟨⟨by decide, by decide, by decide⟩, by decide +kernel, by decide⟩

theorem isItem_words : IsItem (utf8 "a-b c/d_1") :=
  ⟨⟨by decide, by decide, by decide⟩, by decide +kernel, by decide⟩

/-- Two tags in block form, between a title and another key. -/
theorem list_read_back_block : Field.tags.get (extractFrontmatter (page ([utf8 "title: x"] ++
    Style.block.write .tags [utf8 "дом", utf8 "a-b c/d_1"] ++ [utf8 "draft: true"]) [newline])) =
      [utf8 "дом", utf8 "a-b c/d_1"] := by
  have hother : Around .tags [utf8 "title: x"] [utf8 "draft: true"] := by
    refine ⟨by decide, fun l hl val => ?_, fun l hl => ?_⟩
    · rcases List.mem_cons.mp hl with rfl | hl
      · rw [show entry (trimSpace (utf8 "title: x")) = .title (utf8 "x") by decide]
        exact Entry.noConfusion
      · rw [List.mem_singleton.mp hl, show entry (trimSpace (utf8 "draft: true")) = .other by decide]
        exact Entry.noConfusion
    · rw [show ([utf8 "draft: true"].map trimSpace).find? (· ≠ []) = some (utf8 "draft: true")
        by decide] at hl
      rw [← Option.some.inj hl]
      decide
  exact (list_read_back_iff .tags .block
    (by simpa using ⟨isItem_home, isItem_words⟩) hother (.inr rfl)).mpr trivial

/-- The editor writes two tags, and the second comes back with its opening quote; of no tags
comes an empty one. -/
theorem second_tag_quoted :
    (∃ block, Editor.Commands.frontmatterBlock [(Js.units "tags", ⟨true, none, none, some 2, none,
        .array [some (Js.units "work"), some (Js.units "home")]⟩)] = some block ∧
      (extractFrontmatter (encode block)).tags = [utf8 "work", utf8 "\"home"]) ∧
    (extractFrontmatter (page (Style.quoted.write .tags []) [newline])).tags = [[]] :=
  ⟨⟨_, rfl, by decide +kernel⟩, by decide +kernel⟩

end Mdock.Search
