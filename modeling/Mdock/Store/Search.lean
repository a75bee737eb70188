import Mathlib.Data.List.Sort
import Mdock.Store.FullText
import Mdock.Store.Match

/-! The search for pages, and the queries that it takes for text. -/
namespace Mdock.Store
open Mdock.Go Mdock.Lib Match

/-- What the database makes of a query: how it parses, which rows of the full-text table match, how
they rank, and the words in a text. -/
structure Engine where
  parse : Bytes → Option Query
  matched : PageText → Query → Bool
  rank : PageRow → Query → Int
  words : Bytes → List Bytes

/-- A result of `SearchPageIndex`. -/
structure Item where
  vaultSlug : Bytes
  path : Bytes
  title : Bytes
  aliases : Bytes
  tags : Bytes
  headings : Bytes
  blocks : Bytes
  contentHash : Bytes
  updatedAt : Int

/-- A row is scanned into strings; `NULL` goes into no title and no hash. -/
def PageRow.scan (p : PageRow) : Option Item := do
  let title ← p.text.title
  let contentHash ← p.contentHash
  return ⟨p.vaultSlug, p.path, title, p.text.aliases.getD [], p.text.tags.getD [],
    p.text.headings.getD [], p.text.blocks.getD [], contentHash, p.updatedAt⟩

inductive SearchErr
  | argsRequired | syntaxError | scan
  deriving DecidableEq

/-- `SearchPageIndex`. -/
def searchPageIndex (e : Engine) (d : PageIndex) (vaultSlug query : Bytes) (limit : Int) :
    Except SearchErr (List Item) :=
  match d.searchPageIndex (fun x query => (e.parse query).any (e.matched x)) vaultSlug query with
  | none => .error .argsRequired
  | some rows =>
    match e.parse query with
    | none => .error .syntaxError
    | some q =>
      let limit := if limit ≤ 0 then 20 else limit
      match ((rows.mergeSort fun a b => e.rank a q ≤ e.rank b q).take limit.toNat).mapM
        PageRow.scan with
      | none => .error .scan
      | some items => .ok items

/-- The indexed columns. -/
def PageText.columns (x : PageText) : List Bytes :=
  [x.title, x.aliases, x.tags, x.headings, x.blocks].map (·.getD [])

def Item.columns (i : Item) : List Bytes := [i.title, i.aliases, i.tags, i.headings, i.blocks]

/-- What the documentation says of a query: it parses by the grammar; where it has only strings, the
words of each stand one after the other in a column; and texts are cut into words at what is
neither a letter nor a digit. -/
structure Engine.Documented (e : Engine) (query : Bytes) : Prop where
  sound : ∀ q, e.parse query = some q → tokens query = some q.tokens
  complete : ∀ q : Query, tokens query = some q.tokens → (e.parse query).isSome
  strings : ∀ x q ss, q.strings = some ss → e.matched x q = true →
    ∀ s ∈ ss, ∃ column ∈ x.columns, e.words s.text <:+: e.words column
  words_nil : e.words [] = []
  words_append : ∀ u c v, isWordByte c = false → e.words (u ++ c :: v) = e.words u ++ e.words v

/-- A search for a query takes it for text, in every database the server can have. -/
structure SearchesText (e : Engine) (query : Bytes) : Prop where
  parses : ∀ d vaultSlug limit, searchPageIndex e d vaultSlug query limit ≠ .error .syntaxError
  strings : ∀ q, e.parse query = some q → (q.strings).isSome
  found : ∀ d, history.Reach d → ∀ (calls : List IndexCall) vaultSlug limit items,
    searchPageIndex e (calls.foldl IndexCall.run d.migrate.index) vaultSlug query limit = .ok items →
      ∀ i ∈ items, i.vaultSlug = vaultSlug ∧
        ∀ w ∈ e.words query, ∃ column ∈ i.columns, w ∈ e.words column

variable {e : Engine} {query : Bytes}

theorem mem_mapM {α β : Type*} {f : α → Option β} {xs : List α} {ys : List β}
    (h : xs.mapM f = some ys) : ∀ y ∈ ys, ∃ x ∈ xs, f x = some y := by
  induction xs generalizing ys with
  | nil =>
    obtain rfl : [] = ys := by simpa using h
    simp
  | cons x xs ih =>
    rw [List.mapM_cons] at h
    obtain ⟨y, hy, h⟩ := Option.bind_eq_some_iff.mp h
    obtain ⟨ys', hys, h⟩ := Option.bind_eq_some_iff.mp h
    rw [← Option.some.inj h]
    intro z hz
    rcases List.mem_cons.mp hz with rfl | hz
    · exact ⟨x, List.mem_cons_self, hy⟩
    · obtain ⟨x', hx', hz⟩ := ih hys z hz
      exact ⟨x', List.mem_cons_of_mem x hx', hz⟩

theorem sound_calls {d : PageIndex} (h : d.Sound) (calls : List IndexCall) :
    (calls.foldl IndexCall.run d).Sound := by
  induction calls generalizing d with
  | nil => exact h
  | cons c calls ih => exact ih (run_sound h c)

theorem scan_columns {p : PageRow} {i : Item} (h : p.scan = some i) :
    i.vaultSlug = p.vaultSlug ∧ i.columns = p.text.coalesce.columns := by
  unfold PageRow.scan at h
  obtain ⟨title, htitle, h⟩ := Option.bind_eq_some_iff.mp h
  obtain ⟨hash, -, h⟩ := Option.bind_eq_some_iff.mp h
  rw [← Option.some.inj h]
  simp [Item.columns, PageText.columns, PageText.coalesce, htitle]

/-- A result is a page of the vault whose own columns match. -/
theorem mem_searchPageIndex {d : PageIndex} (hd : d.Sound) {vaultSlug : Bytes} {limit : Int}
    {items : List Item} (h : searchPageIndex e d vaultSlug query limit = .ok items) :
    ∃ q, e.parse query = some q ∧ ∀ i ∈ items, i.vaultSlug = vaultSlug ∧
      ∃ x : PageText, i.columns = x.columns ∧ e.matched x q = true := by
  unfold searchPageIndex at h
  cases hrows : d.searchPageIndex (fun x query => (e.parse query).any (e.matched x)) vaultSlug
      query with
  | none => simp [hrows] at h
  | some rows =>
    cases hq : e.parse query with
    | none => simp [hrows, hq] at h
    | some q =>
      refine ⟨q, rfl, fun i hi => ?_⟩
      simp only [hrows, hq] at h
      split at h
      · simp at h
      · rename_i items' hitems
        rw [Except.ok.inj h] at hitems
        obtain ⟨p, hp, hscan⟩ := mem_mapM hitems i hi
        obtain ⟨hslug, hcolumns⟩ := scan_columns hscan
        have hmem : p ∈ rows := List.mem_mergeSort.mp (List.mem_of_mem_take hp)
        unfold PageIndex.searchPageIndex at hrows
        split at hrows
        · simp at hrows
        · rw [← Option.some.inj hrows, List.mem_filter, Bool.and_eq_true, decide_eq_true_iff,
            List.any_eq_true] at hmem
          obtain ⟨hpage, hvault, f, hf, hmatch⟩ := hmem
          rw [Bool.and_eq_true, decide_eq_true_iff] at hmatch
          simp only [hq, Option.any_some] at hmatch
          obtain ⟨p', hp', hid, htext⟩ := hd f hf
          obtain rfl := d.pages.inj p' hp' p hpage (hid.trans hmatch.1)
          exact ⟨hslug.trans hvault, p'.text.coalesce, hcolumns, htext ▸ hmatch.2⟩

/-- The words of a query that has only strings are those of the strings. -/
theorem words_of_onlyStrings (h : e.Documented query) {q : Query} {ss : List Str}
    (hq : tokens query = some q.tokens) (hss : q.strings = some ss) :
    ∀ w ∈ e.words query, ∃ s ∈ ss, w ∈ e.words s.text := by
  intro w hw
  obtain ⟨-, k, hk⟩ := tokens_of_strings hss
  obtain ⟨t, ht, hwt⟩ := words_lex h.words_nil h.words_append (m := .outside) hq w hw
  rw [hk, List.mem_append, List.mem_append] at ht
  have hparen : t.text = [] → False := fun htext => by
    rw [htext, h.words_nil] at hwt
    simp at hwt
  rcases ht with (ht | ht) | ht
  · exact (hparen (by rw [List.eq_of_mem_replicate ht]; rfl)).elim
  · obtain ⟨s, hs, rfl⟩ := List.mem_map.mp ht
    exact ⟨s, hs, hwt⟩
  · exact (hparen (by rw [List.eq_of_mem_replicate ht]; rfl)).elim

/-- The words of an ASCII text, in small letters. -/
def asciiWords (s : Bytes) : List Bytes :=
  ((s.splitOnP fun c => !isWordByte c).filter (· ≠ [])).map
    (List.map fun c => if 0x41 ≤ c ∧ c ≤ 0x5A then c + 0x20 else c)

theorem asciiWords_append (u : Bytes) (c : UInt8) (v : Bytes) (hc : isWordByte c = false) :
    asciiWords (u ++ c :: v) = asciiWords u ++ asciiWords v := by
  rw [asciiWords, List.splitOnP_append_cons _ _ (by simp [hc]), List.filter_append, List.map_append]
  rfl

/-- An engine that matches strings only, for queries that all parse the same. -/
def asciiEngine (parsed : Option Query) : Engine where
  parse _ := parsed
  matched x q := q.strings.any fun ss => ss.all fun s =>
    x.columns.any fun column => decide (asciiWords s.text <:+: asciiWords column)
  rank _ _ := 0
  words := asciiWords

theorem asciiEngine_documented {parsed : Option Query}
    (hsound : ∀ q, parsed = some q → tokens query = some q.tokens)
    (hcomplete : ∀ q : Query, tokens query = some q.tokens → parsed.isSome) :
    (asciiEngine parsed).Documented query where
  sound := hsound
  complete := hcomplete
  strings x q ss hss hmatch s hs := by
    simp only [asciiEngine, hss, Option.any_some, List.all_eq_true, List.any_eq_true,
      decide_eq_true_iff] at hmatch
    exact hmatch s hs
  words_nil := rfl
  words_append := asciiWords_append

def noteQuery : Query := .terms ⟨none, .phrase false (.string (.bare (utf8 "note")) false)⟩ []

end Mdock.Store
