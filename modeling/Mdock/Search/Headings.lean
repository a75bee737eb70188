import Mdock.Lib.Feed
import Mdock.Search.Frontmatter

/-! `ParsePage`, its title and headings. The frontmatter is read in one pass, and goldmark
looks for headings in another, over the whole page. Goldmark is taken for a parser that
follows CommonMark; block references are left out. -/
namespace Mdock.Search
open Mdock.Go Mdock.Lib

/-- What a line completes: a heading that began `back` lines before, in a column of that line,
or a link definition. -/
inductive Block
  | heading (level back col : Nat) (source : Bytes)
  | definition (text : Bytes)

/-- A line that can only be text: it begins with a letter. -/
def IsText (l : Bytes) : Prop :=
  ∃ c s, l = c :: s ∧ (0x41 ≤ c ∧ c ≤ 0x5A ∨ 0x61 ≤ c ∧ c ≤ 0x7A)

/-- The block structure of CommonMark, found line by line: what is open after a line, and what
the line completes. Where only the document is open, a line of three dashes is a thematic
break; below a paragraph it makes the paragraph a heading. -/
structure BlockParser where
  Open : Type
  document : Open
  paragraph : List Bytes → Open
  step : Open → Bytes → Open × List Block
  /-- The definitions found at the end of the document. -/
  close : Open → List Bytes
  /-- The lines of what is open. -/
  lines : Open → Nat
  lines_document : lines document = 0
  lines_step : ∀ o l, lines (step o l).1 ≤ lines o + 1
  back_le : ∀ o l level back col source,
    .heading level back col source ∈ (step o l).2 → back ≤ lines o
  blank : step document [] = (document, [])
  dashes : step document fence = (document, [])
  text_document : ∀ l, IsText l → step document l = (paragraph [l], [])
  text_paragraph : ∀ ls l, IsText l → step (paragraph ls) l = (paragraph (ls ++ [l]), [])
  blank_paragraph : ∀ ls, (∀ l ∈ ls, IsText l) → step (paragraph ls) [] = (document, [])
  setext : ∀ ls, ls ≠ [] → (∀ l ∈ ls, IsText l) →
    ∃ source, step (paragraph ls) fence = (document, [.heading 2 ls.length 0 source])

/-- The text of a heading, which may use the definitions of the document, and the ids of its
headings. -/
structure Inlines where
  text : List Bytes → Bytes → Bytes
  ids : List Bytes → List Bytes
  ids_length : ∀ sources, (ids sources).length = sources.length

structure Heading where
  level : Nat
  text : Bytes
  anchor : Bytes
  line : Nat
  deriving DecidableEq

structure PageMetadata where
  title : Bytes
  aliases : List Bytes
  tags : List Bytes
  headings : List Heading
  deriving DecidableEq

/-- A heading as a block; lines are counted from 0. -/
structure Raw where
  level : Nat
  line : Nat
  col : Nat
  source : Bytes
  deriving DecidableEq

def raws (events : List (Nat × Block)) : List Raw := events.filterMap fun (i, b) =>
  match b with
  | .heading level back col source => some ⟨level, i - back, col, source⟩
  | .definition _ => none

def definitions (events : List (Nat × Block)) : List Bytes := events.filterMap fun (_, b) =>
  match b with
  | .heading .. => none
  | .definition text => some text

/-- What is found from the line `i` on, up to the end of the document. -/
def BlockParser.events (P : BlockParser) (o : P.Open) (i : Nat) (ls : List Bytes) :
    List (Nat × Block) :=
  let r := feed P.step o i ls
  r.2 ++ (P.close r.1).map fun d => (i + ls.length, .definition d)

/-- `n.Pos()`. -/
def Raw.pos (lines : List Bytes) (r : Raw) : Nat :=
  (unlines (lines.take r.line)).length + min r.col (lines.getD r.line []).length

def headingLine (source : Bytes) (pos : Nat) : Nat := ((source.take pos).splitOn newline).length

def fallbackTitle (headings : List Heading) : Bytes := (headings.head?.map Heading.text).getD []

def parsePage (P : BlockParser) (I : Inlines) (content : Bytes) : PageMetadata :=
  let fields := extractFrontmatter content
  let lines := content.splitOn newline
  let doc := P.events P.document 0 lines
  let headings := ((raws doc).zip (I.ids ((raws doc).map Raw.source))).map fun (r, id) =>
    { level := r.level, text := trimSpace (I.text (definitions doc) r.source), anchor := id,
      line := headingLine content (r.pos lines) }
  ⟨if fields.title = [] then fallbackTitle headings else fields.title, fields.aliases, fields.tags,
    headings⟩

/-! ### Lines and positions -/

theorem headingLine_pos {content : Bytes} {r : Raw}
    (h : r.line < (content.splitOn newline).length) :
    headingLine content (r.pos (content.splitOn newline)) = r.line + 1 := by
  generalize hlines : content.splitOn newline = lines at h ⊢
  have hno : ∀ l ∈ lines, newline ∉ l := hlines ▸ Lib.not_mem_of_mem_splitOn newline content
  have hparts : lines = lines.take r.line ++ lines[r.line] :: lines.drop (r.line + 1) := by
    rw [List.getElem_cons_drop, List.take_append_drop]
  obtain ⟨t, ht⟩ := eq_unlines_append (hlines.trans hparts)
  have hget : lines.getD r.line [] = lines[r.line] := by simp [h]
  have hcut : content.take (r.pos lines) =
      unlines (lines.take r.line) ++ lines[r.line].take (min r.col lines[r.line].length) := by
    rw [Raw.pos, hget, ht, List.take_length_add_append, List.take_append_of_le_length
      (Nat.min_le_right _ _)]
  rw [headingLine, hcut, splitOn_unlines (fun l hl => hno l (List.mem_of_mem_take hl))
    fun hm => hno _ (List.getElem_mem h) (List.mem_of_mem_take hm)]
  simp
  omega

/-- Headings as `ParsePage` returns them. -/
def rendered (I : Inlines) (defs : List Bytes) (rs : List Raw) : List Heading :=
  (rs.zip (I.ids (rs.map Raw.source))).map fun (r, id) =>
    ⟨r.level, trimSpace (I.text defs r.source), id, r.line + 1⟩

variable {P : BlockParser} {I : Inlines} {body : List Bytes} {rest : Bytes}

theorem raws_append (a b : List (Nat × Block)) : raws (a ++ b) = raws a ++ raws b :=
  List.filterMap_append ..

theorem definitions_append (a b : List (Nat × Block)) :
    definitions (a ++ b) = definitions a ++ definitions b := List.filterMap_append ..

/-- A heading begins no earlier than its paragraph. -/
theorem feed_document_spec (P : BlockParser) (i : Nat) (ls : List Bytes) {j : Nat} {b : Block}
    (h : (j, b) ∈ (feed P.step P.document i ls).2) : i ≤ j ∧ j < i + ls.length ∧
      ∀ level back col source, b = .heading level back col source → i + back ≤ j := by
  refine feed_spec (fun o k => i + P.lines o ≤ k)
    (fun k b => ∀ level back col source, b = .heading level back col source → i + back ≤ k)
    ?_ ?_ ?_ ls j b h
  · intro o k l ho
    have hstep := P.lines_step o l
    omega
  · rintro o k l ho b hb level back col source rfl
    have hback := P.back_le o l level back col source hb
    omega
  · rw [P.lines_document]
    omega

theorem raws_close (P : BlockParser) (o : P.Open) (n : Nat) :
    raws ((P.close o).map fun d => (n, Block.definition d)) = [] := by
  simp [raws]

theorem raws_events (o : P.Open) (i : Nat) (ls : List Bytes) :
    raws (P.events o i ls) = raws (feed P.step o i ls).2 := by
  rw [BlockParser.events, raws_append, raws_close, List.append_nil]

theorem mem_raws {events : List (Nat × Block)} {r : Raw} : r ∈ raws events ↔
    ∃ j back, (j, Block.heading r.level back r.col r.source) ∈ events ∧ r.line = j - back := by
  rw [raws, List.mem_filterMap]
  constructor
  · rintro ⟨⟨j, b⟩, hb, he⟩
    cases b with
    | heading level back col source =>
      obtain rfl := Option.some.inj he
      exact ⟨j, back, hb, rfl⟩
    | definition => cases he
  · rintro ⟨j, back, hb, he⟩
    exact ⟨_, hb, by simp only [← he]⟩

theorem parsePage_headings (P : BlockParser) (I : Inlines) (content : Bytes) :
    (parsePage P I content).headings =
      rendered I (definitions (P.events P.document 0 (content.splitOn newline)))
        (raws (P.events P.document 0 (content.splitOn newline))) := by
  unfold parsePage rendered
  simp only
  refine List.map_congr_left ?_
  rintro ⟨r, id⟩ hmem
  have hr := (List.of_mem_zip hmem).1
  rw [raws_events] at hr
  obtain ⟨j, back, hj, hline⟩ := mem_raws.mp hr
  obtain ⟨-, hlt, -⟩ := feed_document_spec P 0 _ hj
  have hin : r.line < (content.splitOn newline).length := by omega
  rw [headingLine_pos hin]

/-! ### A page with frontmatter -/

/-- What the parser makes of the block. -/
def BlockParser.block (P : BlockParser) (body : List Bytes) : P.Open × List (Nat × Block) :=
  feed P.step P.document 0 (fence :: body ++ [fence])

/-- The lines after the block. -/
def afterLines (rest : Bytes) : List Bytes :=
  if rest = [] then [] else rest.tail.splitOn newline

theorem splitOn_page (hbody : IsBody body) (hrest : IsRest rest) :
    (page body rest).splitOn newline = fence :: body ++ [fence] ++ afterLines rest := by
  have hlines : ∀ l ∈ fence :: body, newline ∉ l := by
    intro l hl
    rcases List.mem_cons.mp hl with rfl | hl
    · decide
    · exact (hbody l hl).1
  have hpage : page body rest = unlines (fence :: body) ++ (fence ++ rest) := by
    rw [page, unlines_cons]
    simp
  have hfence : (fence ++ rest).splitOn newline = fence :: afterLines rest := by
    have hno : newline ∉ fence := by decide
    rcases hrest with rfl | hhead
    · rw [List.append_nil, List.splitOn_eq_singleton hno]
      rfl
    · obtain ⟨c, text, rfl⟩ := List.exists_cons_of_ne_nil (l := rest) (by rintro rfl; cases hhead)
      obtain rfl : c = newline := by simpa using hhead
      rw [List.splitOn_append_cons_self, List.splitOn_eq_singleton hno]
      rfl
  rw [hpage, splitOn_unlines_append hlines, hfence]
  simp

theorem events_append (o : P.Open) (i : Nat) (as bs : List Bytes) :
    P.events o i (as ++ bs) = (feed P.step o i as).2 ++
      P.events (feed P.step o i as).1 (i + as.length) bs := by
  simp [BlockParser.events, feed_append, Nat.add_assoc]

/-- The block, and then what follows it. -/
theorem events_page (hbody : IsBody body) (hrest : IsRest rest) :
    P.events P.document 0 ((page body rest).splitOn newline) = (P.block body).2 ++
      P.events (P.block body).1 (body.length + 2) (afterLines rest) := by
  rw [splitOn_page hbody hrest, events_append]
  simp [BlockParser.block]

/-- Read as a document of its own, the text has the same headings as after `k` lines. -/
theorem raws_shift (P : BlockParser) (k : Nat) (ls : List Bytes) :
    raws (P.events P.document k ls) =
      (raws (P.events P.document 0 ls)).map fun r => { r with line := r.line + k } := by
  have hshift : feed P.step P.document (0 + k) ls = _ := feed_shift P.document 0 k ls
  rw [Nat.zero_add] at hshift
  rw [raws_events, raws_events, hshift]
  simp only [raws, List.filterMap_map, List.map_filterMap]
  refine List.filterMap_congr ?_
  rintro ⟨j, b⟩ hj
  cases b with
  | definition => rfl
  | heading level back col source =>
    obtain ⟨-, -, hback⟩ := feed_document_spec P 0 ls hj
    have hle := hback level back col source rfl
    simp only [Function.comp_apply, Option.map_some, Option.some.injEq, Raw.mk.injEq, true_and,
      and_true]
    omega

theorem definitions_shift (o : P.Open) (i k : Nat) (ls : List Bytes) :
    definitions (P.events o (i + k) ls) = definitions (P.events o i ls) := by
  simp only [BlockParser.events, feed_shift, definitions, List.filterMap_append, List.filterMap_map]
  rfl

/-- The text after the block, as a document. -/
theorem events_tail (hrest : IsRest rest) :
    raws (P.events P.document 0 (rest.tail.splitOn newline)) =
      raws (P.events P.document 0 (afterLines rest)) ∧
    definitions (P.events P.document 0 (rest.tail.splitOn newline)) =
      definitions (P.events P.document 0 (afterLines rest)) := by
  by_cases h : rest = []
  · subst h
    simp [afterLines, BlockParser.events, feed, P.blank, raws, definitions]
  · simp [afterLines, h]

/-! ### Which pages keep their headings -/

theorem rendered_lines (I : Inlines) (defs : List Bytes) (rs : List Raw) :
    (rendered I defs rs).map Heading.line = rs.map fun r => r.line + 1 := by
  have hlen : rs.length ≤ (I.ids (rs.map Raw.source)).length := by
    rw [I.ids_length, List.length_map]
  rw [rendered, List.map_map]
  conv_rhs => rw [← List.map_fst_zip hlen, List.map_map]
  rfl

theorem rendered_shift (I : Inlines) (defs : List Bytes) (rs : List Raw) (k : Nat) :
    rendered I defs (rs.map fun r => { r with line := r.line + k }) =
      (rendered I defs rs).map fun h => { h with line := h.line + k } := by
  have hsource : (rs.map fun r => { r with line := r.line + k }).map Raw.source =
      rs.map Raw.source := by
    rw [List.map_map]
    rfl
  rw [rendered, hsource, List.zip_map_left, List.map_map, rendered, List.map_map]
  refine List.map_congr_left ?_
  rintro ⟨r, id⟩ -
  simp only [Function.comp_apply, Prod.map_apply, id_eq, Heading.mk.injEq, true_and]
  omega

/-- The same headings have the same texts, or are not the same. -/
theorem rendered_eq_iff (I : Inlines) (d d' : List Bytes) (rs : List Raw) :
    rendered I d rs = rendered I d' rs ↔
      ∀ r ∈ rs, trimSpace (I.text d r.source) = trimSpace (I.text d' r.source) := by
  have hlen : rs.length ≤ (I.ids (rs.map Raw.source)).length := by
    rw [I.ids_length, List.length_map]
  rw [rendered, rendered, List.map_inj_left]
  constructor
  · intro h r hr
    rw [← List.map_fst_zip hlen] at hr
    obtain ⟨⟨r', id⟩, hmem, rfl⟩ := List.mem_map.mp hr
    exact congrArg Heading.text (h _ hmem)
  · rintro h ⟨r, id⟩ hmem
    simp only [h r (List.of_mem_zip hmem).1]

/-- The headings of a page are those of the text after its block, in their lines, and so is
the title it falls back on. -/
def KeepsHeadings (P : BlockParser) (I : Inlines) (body : List Bytes) (rest : Bytes) : Prop :=
  (parsePage P I (page body rest)).headings = (parsePage P I rest.tail).headings.map
      (fun h => { h with line := h.line + (body.length + 2) }) ∧
    ((extractFrontmatter (page body rest)).title = [] →
      (parsePage P I (page body rest)).title = fallbackTitle (parsePage P I rest.tail).headings)

/-- The block has no effect on the text after it: its definitions change no heading's text; and
what it leaves open, if anything, no heading. -/
def Unaffected (P : BlockParser) (I : Inlines) (body : List Bytes) (rest : Bytes) : Prop :=
  let r := P.block body
  let seen := P.events r.1 (body.length + 2) (afterLines rest)
  let own := P.events P.document (body.length + 2) (afterLines rest)
  (r.1 = P.document → ∀ h ∈ raws own,
    trimSpace (I.text (definitions r.2 ++ definitions own) h.source) =
      trimSpace (I.text (definitions own) h.source)) ∧
  (r.1 ≠ P.document →
    rendered I (definitions r.2 ++ definitions seen) (raws seen) =
      rendered I (definitions own) (raws own))

theorem block_line_lt {r : Raw} (h : r ∈ raws (P.block body).2) : r.line < body.length + 2 := by
  obtain ⟨j, back, hj, hline⟩ := mem_raws.mp h
  obtain ⟨-, hlt, -⟩ := feed_document_spec P 0 _ hj
  simp only [List.length_append, List.length_cons, List.length_nil] at hlt
  omega

theorem own_line_le {k : Nat} {ls : List Bytes} {r : Raw}
    (h : r ∈ raws (P.events P.document k ls)) : k ≤ r.line := by
  rw [raws_shift] at h
  obtain ⟨r, -, rfl⟩ := List.mem_map.mp h
  exact Nat.le_add_left k r.line

/-- A page keeps its headings exactly where none is found in its block and the block has no
effect on the text after it. -/
theorem headings_exact_iff (P : BlockParser) (I : Inlines) {body : List Bytes} {rest : Bytes}
    (hbody : IsBody body) (hrest : IsRest rest) :
    KeepsHeadings P I body rest ↔ raws (P.block body).2 = [] ∧ Unaffected P I body rest := by
  let seen := P.events (P.block body).1 (body.length + 2) (afterLines rest)
  let own := P.events P.document (body.length + 2) (afterLines rest)
  have hpage : (parsePage P I (page body rest)).headings =
      rendered I (definitions (P.block body).2 ++ definitions seen)
        (raws (P.block body).2 ++ raws seen) := by
    rw [parsePage_headings, events_page hbody hrest, definitions_append, raws_append]
  have hdefs := definitions_shift (P := P) P.document 0 (body.length + 2) (afterLines rest)
  rw [Nat.zero_add] at hdefs
  have htext : (parsePage P I rest.tail).headings.map
      (fun h => { h with line := h.line + (body.length + 2) }) =
      rendered I (definitions own) (raws own) := by
    obtain ⟨hraws, hdefs'⟩ := events_tail (P := P) hrest
    rw [parsePage_headings, hraws, hdefs', ← rendered_shift, ← raws_shift, ← hdefs]
  have hmain : (parsePage P I (page body rest)).headings = (parsePage P I rest.tail).headings.map
      (fun h => { h with line := h.line + (body.length + 2) }) ↔
      raws (P.block body).2 = [] ∧ Unaffected P I body rest := by
    rw [hpage, htext]
    have hnone : rendered I (definitions (P.block body).2 ++ definitions seen)
        (raws (P.block body).2 ++ raws seen) = rendered I (definitions own) (raws own) →
        raws (P.block body).2 = [] := by
      intro he
      have hlines := congrArg (List.map Heading.line) he
      rw [rendered_lines, rendered_lines] at hlines
      by_contra hne
      obtain ⟨r, hr⟩ := List.exists_mem_of_ne_nil _ hne
      have hmem : r.line + 1 ∈ (raws own).map fun r => r.line + 1 := by
        rw [← hlines]
        exact List.mem_map.mpr ⟨r, List.mem_append_left _ hr, rfl⟩
      obtain ⟨r', hr', hline⟩ := List.mem_map.mp hmem
      have hlt := block_line_lt hr
      have hle := own_line_le hr'
      omega
    constructor
    · intro he
      have hnil := hnone he
      rw [hnil, List.nil_append] at he
      refine ⟨hnil, fun hclosed => ?_, fun _ => he⟩
      have hseen : seen = own := by
        simp only [seen, own, hclosed]
      rw [hseen] at he
      exact (rendered_eq_iff I _ _ _).mp he
    · rintro ⟨hnil, hclosed, hopen⟩
      rw [hnil, List.nil_append]
      by_cases hdoc : (P.block body).1 = P.document
      · have hseen : seen = own := by
          simp only [seen, own, hdoc]
        rw [hseen]
        exact (rendered_eq_iff I _ _ _).mpr (hclosed hdoc)
      · exact hopen hdoc
  refine (and_iff_left_of_imp fun he htitle => ?_).trans hmain
  have hfall : (parsePage P I (page body rest)).title =
      fallbackTitle (parsePage P I (page body rest)).headings := if_pos htitle
  rw [hfall, he]
  cases (parsePage P I rest.tail).headings <;> rfl

/-! ### A parser for lines of text -/

/-- Text in paragraphs, headings with one number sign and underlined ones: what goldmark finds
where nothing else is in a page. -/
def plainStep (open_ : List Bytes) (l : Bytes) : List Bytes × List Block :=
  if l = [] then ([], [])
  else if l = fence then
    ([], if open_ = [] then [] else [.heading 2 open_.length 0 ([newline].intercalate open_)])
  else if utf8 "# " <+: l then ([], [.heading 1 0 0 (l.drop 2)])
  else (open_ ++ [l], [])

theorem plainStep_text {l : Bytes} (h : IsText l) (ms : List Bytes) :
    plainStep ms l = (ms ++ [l], []) := by
  obtain ⟨c, s, rfl, hc⟩ := h
  have hfence : c :: s ≠ fence := by
    intro he
    obtain rfl : c = 0x2D := (List.cons.inj he).1
    exact absurd hc (by decide)
  have hhash : ¬ utf8 "# " <+: c :: s := by
    rw [show utf8 "# " = [0x23, 0x20] by decide, List.cons_prefix_cons]
    rintro ⟨rfl, -⟩
    exact absurd hc (by decide)
  rw [plainStep, if_neg (List.cons_ne_nil c s), if_neg hfence, if_neg hhash]

theorem plainStep_length (ms : List Bytes) (l : Bytes) :
    (plainStep ms l).1.length ≤ ms.length + 1 := by
  unfold plainStep
  split
  · exact Nat.zero_le _
  · split
    · exact Nat.zero_le _
    · split
      · exact Nat.zero_le _
      · simp

theorem plainStep_back {ms : List Bytes} {l : Bytes} {level back col : Nat} {source : Bytes}
    (h : Block.heading level back col source ∈ (plainStep ms l).2) : back ≤ ms.length := by
  unfold plainStep at h
  split at h
  · cases h
  · split at h
    · split at h
      · cases h
      · obtain ⟨-, rfl, -⟩ := Block.heading.inj (List.mem_singleton.mp h)
        exact Nat.le_refl _
    · split at h
      · obtain ⟨-, rfl, -⟩ := Block.heading.inj (List.mem_singleton.mp h)
        exact Nat.zero_le _
      · cases h

def plainParser : BlockParser where
  Open := List Bytes
  document := []
  paragraph := id
  step := plainStep
  close _ := []
  lines := List.length
  lines_document := rfl
  lines_step := plainStep_length
  back_le _ _ _ _ _ _ h := plainStep_back h
  blank := rfl
  dashes := rfl
  text_document _ h := plainStep_text h []
  text_paragraph ms _ h := plainStep_text h ms
  blank_paragraph _ _ := rfl
  setext ms hne _ := by
    refine ⟨[newline].intercalate ms, ?_⟩
    rw [plainStep, if_neg (by decide), if_pos rfl]
    simp [hne]

/-- Headings without links, and ids as goldmark makes them of different words in lower case. -/
def plainInlines : Inlines where
  text _ source := source
  ids sources := sources.map fun s =>
    (s.filter fun c => 0x61 ≤ c ∧ c ≤ 0x7A ∨ c = space).map fun c => if c = space then 0x2D else c
  ids_length _ := List.length_map _

theorem headings_exact_iff_plain :
    KeepsHeadings plainParser plainInlines [utf8 "tags: x", []] (utf8 "\n# note\n") ↔
      raws (plainParser.block [utf8 "tags: x", []]).2 = [] ∧
        Unaffected plainParser plainInlines [utf8 "tags: x", []] (utf8 "\n# note\n") :=
  headings_exact_iff plainParser plainInlines (by unfold IsBody; decide +kernel) (.inr (by decide))

/-- The tags of a page become its first heading, and its title. -/
theorem tags_become_title :
    (parsePage plainParser plainInlines (page [utf8 "tags: x"] (utf8 "\n# note\n"))).headings =
      [⟨2, utf8 "tags: x", utf8 "tags-x", 2⟩, ⟨1, utf8 "note", utf8 "note", 4⟩] ∧
    (parsePage plainParser plainInlines (page [utf8 "tags: x"] (utf8 "\n# note\n"))).title =
      utf8 "tags: x" ∧
    ¬ ∀ (P : BlockParser) (I : Inlines) (body : List Bytes) (rest : Bytes), IsBody body →
      IsRest rest → KeepsHeadings P I body rest := by
  refine ⟨by decide +kernel, by decide +kernel, fun h => ?_⟩
  have hkeep := h plainParser plainInlines [utf8 "tags: x"] (utf8 "\n# note\n")
    (by unfold IsBody; decide +kernel) (.inr (by decide))
  exact absurd hkeep.1 (by decide +kernel)

/-! ### Blocks of text -/

theorem IsText.ne_nil {l : Bytes} (h : IsText l) : l ≠ [] := by
  obtain ⟨c, s, rfl, -⟩ := h
  exact List.cons_ne_nil c s

/-- What is open after lines of text. -/
def BlockParser.openText (P : BlockParser) (ms : List Bytes) : P.Open :=
  if ms = [] then P.document else P.paragraph ms

theorem step_openText {ms : List Bytes} (hms : ∀ m ∈ ms, IsText m) :
    (∀ l, IsText l → P.step (P.openText ms) l = (P.openText (ms ++ [l]), [])) ∧
      P.step (P.openText ms) [] = (P.document, []) := by
  by_cases h : ms = []
  · subst h
    exact ⟨fun l hl => P.text_document l hl, P.blank⟩
  · refine ⟨fun l hl => ?_, ?_⟩
    · simp only [BlockParser.openText, if_neg h, P.text_paragraph ms l hl,
        List.append_ne_nil_of_left_ne_nil h, if_false]
    · rw [BlockParser.openText, if_neg h]
      exact P.blank_paragraph ms hms

/-- A paragraph is open after lines of text exactly if the last of them is not blank. -/
theorem feed_openText {ls : List Bytes} (hls : ∀ l ∈ ls, IsText l ∨ l = []) {ms : List Bytes}
    (hms : ∀ m ∈ ms, IsText m) (i : Nat) :
    ∃ ms', (∀ m ∈ ms', IsText m) ∧ feed P.step (P.openText ms) i ls = (P.openText ms', []) ∧
      (ms' = [] ↔ (ms ++ ls).getLast?.getD [] = []) := by
  induction ls generalizing ms i with
  | nil =>
    refine ⟨ms, hms, rfl, ?_⟩
    rcases List.eq_nil_or_concat' ms with rfl | ⟨ms, m, rfl⟩
    · simp
    · simp [(hms m (by simp)).ne_nil]
  | cons l ls ih =>
    obtain ⟨htext, hblank⟩ := step_openText (P := P) hms
    have hls' : ∀ l ∈ ls, IsText l ∨ l = [] := fun m hm => hls m (List.mem_cons_of_mem l hm)
    rcases hls l (by simp) with hl | rfl
    · have hms' : ∀ m ∈ ms ++ [l], IsText m := by
        intro m hm
        rcases List.mem_append.mp hm with hm | hm
        · exact hms m hm
        · rwa [List.mem_singleton.mp hm]
      obtain ⟨ms', h1, h2, h3⟩ := ih hls' hms' (i + 1)
      refine ⟨ms', h1, ?_, by simpa using h3⟩
      rw [feed, htext l hl]
      simp only [h2]
      rfl
    · have hnone : ∀ m ∈ ([] : List Bytes), IsText m := by simp
      obtain ⟨ms', h1, h2, h3⟩ := ih hls' hnone (i + 1)
      refine ⟨ms', h1, ?_, ?_⟩
      · rw [feed, hblank]
        rw [BlockParser.openText, if_pos rfl] at h2
        simp only [h2]
        rfl
      · rw [h3]
        cases ls <;> simp [List.getLast?_cons]

/-- A block of text and blank lines is closed by its last line, and it has a heading exactly if
the line before is not blank. -/
theorem block_openText (h : ∀ l ∈ body, IsText l ∨ l = []) :
    (P.block body).1 = P.document ∧ definitions (P.block body).2 = [] ∧
      (raws (P.block body).2 = [] ↔ body.getLast?.getD [] = []) := by
  have hnone : ∀ m ∈ ([] : List Bytes), IsText m := by simp
  obtain ⟨ms, hms, hfeed, hnil⟩ := feed_openText (P := P) h hnone 1
  rw [BlockParser.openText, if_pos rfl] at hfeed
  have hblock : P.block body =
      ((P.step (P.openText ms) fence).1,
        (P.step (P.openText ms) fence).2.map fun b => (1 + body.length, b)) := by
    rw [BlockParser.block, List.cons_append, feed, P.dashes]
    simp only [feed_append, hfeed, Nat.zero_add]
    simp [feed]
  rw [List.nil_append] at hnil
  rw [hblock, ← hnil]
  by_cases hempty : ms = []
  · simp [hempty, BlockParser.openText, P.dashes, raws, definitions]
  · obtain ⟨source, hs⟩ := P.setext ms hempty hms
    simp [hempty, BlockParser.openText, hs, raws, definitions]

/-- With a block of text and blank lines, a page keeps its headings exactly if the block is
empty or ends in a blank line. -/
theorem text_page_iff (hbody : IsBody body) (hrest : IsRest rest)
    (h : ∀ l ∈ body, IsText l ∨ l = []) :
    KeepsHeadings P I body rest ↔ body.getLast?.getD [] = [] := by
  obtain ⟨hdoc, hdefs, hraws⟩ := block_openText (P := P) h
  rw [headings_exact_iff P I hbody hrest, hraws]
  refine and_iff_left ⟨fun _ r _ => ?_, fun hno => absurd hdoc hno⟩
  rw [hdefs, List.nil_append]

end Mdock.Search
