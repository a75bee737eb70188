import Mdock.Editor.Renames
import Mdock.Lib.Passes

/-! Links to renamed headings: how they are rewritten, and what becomes of the other links. -/
namespace Mdock.Editor.Headings
open Mdock.Js Mdock.Lib Mdock.Editor.Commands Mdock.Editor.Blocks

/-! ### Rewriting -/

structure UpdateResult where
  content : Text
  updated : Bool
  deriving DecidableEq

/-- `(\|[^\]]+)?`. -/
def aliasPart : Pattern UInt16 := .optional (.seq (lit "|") (.plus (· ≠ unit ']')))

/-- `(page)#oldSlug(\|[^\]]+)?\]\]` is replaced by its groups and the new slug, with one bracket. -/
def linkPass (page : Pattern UInt16) (oldSlug newSlug : Text) : Pass UInt16 where
  parts := [page, lit "#", .literal oldSlug, aliasPart, lit "]]"]
  proper := List.any_eq_true.mpr ⟨lit "#", by simp, rfl⟩
  image groups := groups.getD 0 [] ++ units "#" ++ newSlug ++ groups.getD 3 [] ++ units "]"

/-- The loop of both functions. -/
def updateLinks (page : Pattern UInt16) (content : Text) (changes : List HeadingChange) :
    UpdateResult :=
  changes.foldl (fun result change =>
    let newContent := (linkPass page change.oldSlug change.newSlug).apply result.content
    if newContent ≠ result.content then ⟨newContent, true⟩ else result) ⟨content, false⟩

/-- `\[\[[^\|\]]+`. -/
def anyPage : Pattern UInt16 := .seq (lit "[[") (.plus (· ∉ units "|]"))

/-- `\[\[pagePath`. -/
def onePage (pagePath : Text) : Pattern UInt16 := .seq (lit "[[") (.literal pagePath)

def updateWikilinksForHeadingChanges (content : Text) (changes : List HeadingChange) :
    UpdateResult :=
  if changes = [] then ⟨content, false⟩ else updateLinks anyPage content changes

def updateWikilinksInPage (pageContent pagePath : Text) (headingChanges : List HeadingChange) :
    UpdateResult :=
  updateLinks (onePage pagePath) pageContent headingChanges

structure RenameResult extends UpdateResult where
  changes : List HeadingChange

/-- The path of the page is not looked at. -/
def processHeadingRename (u : Unicode) (oldRandom newRandom : Nat → Text)
    (oldContent newContent _pagePath : Text) : RenameResult :=
  let result := detectHeadingChanges u oldRandom newRandom oldContent newContent
  if result.changes = [] then ⟨⟨newContent, false⟩, []⟩
  else ⟨updateWikilinksForHeadingChanges newContent result.changes, result.changes⟩

/-! ### Links -/

/-- `[[page#slug]]`, with what stands between the slug and the brackets. -/
def link (page slug aliasText : Text) : Text :=
  units "[[" ++ page ++ units "#" ++ slug ++ aliasText ++ units "]]"

/-- Nothing, or a bar and a text. -/
def IsAlias (aliasText : Text) : Prop :=
  aliasText = [] ∨ ∃ shown, shown ≠ [] ∧ unit ']' ∉ shown ∧ aliasText = unit '|' :: shown

/-- What the path of a page in a link can be. -/
structure IsPage (page : Text) : Prop where
  ne_nil : page ≠ []
  bar : unit '|' ∉ page
  bracket : unit ']' ∉ page

/-- One of the old slugs. -/
def oldSlugs (changes : List HeadingChange) : Pattern UInt16 :=
  changes.foldr (fun change rest => .alt (.literal change.oldSlug) rest)
    (.run (fun _ => false) 1 none true)

def newSlugOf (changes : List HeadingChange) (slug : Text) : Text :=
  match changes.find? (·.oldSlug = slug) with
  | some change => change.newSlug
  | none => slug

/-- Every link to a page with an old slug is given its new slug, all of them at once. -/
def renamePass (page : Text) (changes : List HeadingChange) : Pass UInt16 where
  parts := [onePage page, lit "#", oldSlugs changes, aliasPart, lit "]]"]
  proper := List.any_eq_true.mpr ⟨lit "#", by simp, rfl⟩
  image groups := groups.getD 0 [] ++ units "#" ++ newSlugOf changes (groups.getD 2 []) ++
    groups.getD 3 [] ++ units "]]"

def renameLinks (text page : Text) (changes : List HeadingChange) : Text :=
  (renamePass page changes).apply text

/-! ### Slugs -/

/-- What the slug of a heading can be. -/
def IsSlug (u : Unicode) (slug : Text) : Prop :=
  ∃ text count, slug = numberedSlug (slugifyHeading u text) count

variable {u : Unicode} {slugCounts : Text → Nat} {blocks : List SplitBlock}
  {changes : List HeadingChange} {page slug aliasText w s t : Text} {c : UInt16}

theorem of_mem_filterPoints {f : Nat → Bool} (hc : c ∈ filterPoints f s) :
    f c.toNat = true ∨ isHigh c = true ∨ isLow c = true := by
  induction s using filterPoints.induct f with
  | case1 => simp [filterPoints] at hc
  | case2 d hd =>
    rw [filterPoints, if_pos hd, List.mem_singleton] at hc
    exact .inl (hc ▸ hd)
  | case3 d hd => simp [filterPoints, hd] at hc
  | case4 d e s hpair ih =>
    rw [filterPoints, if_pos hpair] at hc
    rcases List.mem_append.mp hc with hc | hc
    · rw [Bool.and_eq_true] at hpair
      split_ifs at hc
      · rcases List.mem_pair.mp hc with rfl | rfl
        · exact .inr (.inl hpair.1)
        · exact .inr (.inr hpair.2)
      · simp at hc
    · exact ih hc
  | case5 d e s hpair ih =>
    rw [filterPoints, if_neg hpair] at hc
    rcases List.mem_append.mp hc with hc | hc
    · split_ifs at hc with hd
      · rw [List.mem_singleton.mp hc]
        exact .inl hd
      · simp at hc
    · exact ih hc

theorem of_mem_hyphenate {begun : Bool} (hc : c ∈ hyphenate begun s) : c = unit '-' ∨ c ∈ s := by
  induction s generalizing begun with
  | nil => simp [hyphenate] at hc
  | cons d s ih =>
    rw [hyphenate] at hc
    split_ifs at hc
    · exact (ih hc).imp_right (List.mem_cons_of_mem d)
    · rcases List.mem_append.mp hc with hc | hc
      · exact .inl (List.mem_singleton.mp hc)
      · exact (ih hc).imp_right (List.mem_cons_of_mem d)
    · rcases List.mem_cons.mp hc with rfl | hc
      · exact .inr List.mem_cons_self
      · exact (ih hc).imp_right (List.mem_cons_of_mem d)

theorem mem_of_mem_trimHyphens (hc : c ∈ trimHyphens s) : c ∈ s := by
  have htail := (List.dropWhile_suffix _).subset (List.mem_reverse.mp hc)
  exact (List.dropWhile_suffix _).subset (List.mem_reverse.mp htail)

/-- A slug has no bracket and no bar. -/
theorem IsSlug.not_mem (h : IsSlug u slug) (hc : c = unit ']' ∨ c = unit '|') : c ∉ slug := by
  obtain ⟨text, count, rfl⟩ := h
  have hword : isSlugPoint u c.toNat = false := by
    have hlt : c.toNat < 128 := by rcases hc with rfl | rfl <;> decide
    rw [isSlugPoint, u.isWord_ascii _ hlt]
    rcases hc with rfl | rfl <;> decide
  have hbase : c ∉ slugifyHeading u text := fun hmem => by
    rcases of_mem_hyphenate (mem_of_mem_trimHyphens (List.mem_of_mem_take hmem)) with rfl | hmem
    · rcases hc with hc | hc <;> simp [unit] at hc
    · rcases of_mem_filterPoints hmem with hpoint | hhigh | hlow
      · rw [hword] at hpoint
        simp at hpoint
      · rcases hc with rfl | rfl <;> simp [isHigh, unit] at hhigh
      · rcases hc with rfl | rfl <;> simp [isLow, unit] at hlow
  rw [numberedSlug]
  split_ifs
  · exact hbase
  · intro hmem
    rcases List.mem_append.mp hmem with hmem | hmem
    · rcases List.mem_append.mp hmem with hmem | hmem
      · exact hbase hmem
      · rcases hc with rfl | rfl <;> simp [units, unit] at hmem
    · have hdigit := isDigit_of_mem_decimal hmem
      rcases hc with rfl | rfl <;> simp [isDigit, unit] at hdigit

theorem isSlug_of_mem {h : HeadingInfo} (hmem : h ∈ headingsFrom u slugCounts blocks) :
    IsSlug u h.slug := by
  induction blocks generalizing slugCounts with
  | nil => simp [headingsFrom] at hmem
  | cons b blocks ih =>
    rw [headingsFrom] at hmem
    split at hmem
    · exact ih hmem
    · rcases List.mem_cons.mp hmem with rfl | hmem
      · exact ⟨_, _, rfl⟩
      · exact ih hmem

/-- The slugs of the changes that are detected are slugs of headings. -/
theorem isSlug_of_changes {oldRandom newRandom : Nat → Text} {oldContent newContent : Text}
    {change : HeadingChange}
    (hmem : change ∈ (detectHeadingChanges u oldRandom newRandom oldContent newContent).changes) :
    IsSlug u change.oldSlug ∧ IsSlug u change.newSlug := by
  obtain ⟨h, hold, hchange⟩ := List.mem_filterMap.mp hmem
  rw [changeOf] at hchange
  split at hchange
  · next n hfind =>
    simp only at hchange
    split_ifs at hchange
    obtain rfl := Option.some.inj hchange
    exact ⟨isSlug_of_mem hold, isSlug_of_mem (List.mem_of_find?_eq_some hfind)⟩
  · simp at hchange

/-! ### What is found -/

theorem matches_aliasPart : aliasPart.Matches aliasText ↔ IsAlias aliasText := by
  rw [aliasPart, Pattern.matches_optional, Pattern.matches_seq, or_comm, IsAlias]
  refine or_congr_right ⟨?_, ?_⟩
  · rintro ⟨u, v, rfl, hu, hv⟩
    obtain ⟨hall, -, hlen⟩ := Pattern.matches_run.mp hv
    refine ⟨v, List.ne_nil_of_length_pos hlen, fun hmem => by simpa using hall _ hmem, ?_⟩
    rw [Pattern.matches_literal.mp hu]
    rfl
  · rintro ⟨v, hne, hv, rfl⟩
    refine ⟨units "|", v, rfl, Pattern.matches_literal.mpr rfl, Pattern.matches_run.mpr
      ⟨fun c hc => decide_eq_true fun h => hv (h ▸ hc), by simp, List.length_pos_iff.mpr hne⟩⟩

theorem matches_onePage : (onePage page).Matches s ↔ s = units "[[" ++ page := by
  rw [onePage, Pattern.matches_seq]
  constructor
  · rintro ⟨u, v, rfl, hu, hv⟩
    rw [Pattern.matches_literal.mp hu, Pattern.matches_literal.mp hv]
  · rintro rfl
    exact ⟨_, _, rfl, Pattern.matches_literal.mpr rfl, Pattern.matches_literal.mpr rfl⟩

theorem matches_anyPage : anyPage.Matches s ↔ ∃ page, IsPage page ∧ s = units "[[" ++ page := by
  rw [anyPage, Pattern.matches_seq]
  constructor
  · rintro ⟨u, v, rfl, hu, hv⟩
    obtain ⟨hall, -, hlen⟩ := Pattern.matches_run.mp hv
    refine ⟨v, ⟨List.ne_nil_of_length_pos hlen, fun hmem => ?_, fun hmem => ?_⟩, ?_⟩
    · exact absurd (hall _ hmem) (by decide)
    · exact absurd (hall _ hmem) (by decide)
    · rw [Pattern.matches_literal.mp hu]
  · rintro ⟨page, hpage, rfl⟩
    refine ⟨_, _, rfl, Pattern.matches_literal.mpr rfl, Pattern.matches_run.mpr
      ⟨fun c hc => decide_eq_true fun h => ?_, by simp, List.length_pos_iff.mpr hpage.ne_nil⟩⟩
    rcases List.mem_pair.mp h with rfl | rfl
    · exact hpage.bar hc
    · exact hpage.bracket hc

theorem matches_oldSlugs :
    (oldSlugs changes).Matches s ↔ ∃ change ∈ changes, change.oldSlug = s := by
  induction changes with
  | nil =>
    refine iff_of_false (fun h => ?_) (by simp)
    obtain ⟨hall, -, hlen⟩ := Pattern.matches_run.mp h
    obtain ⟨c, s, rfl⟩ := List.exists_cons_of_length_pos hlen
    simpa using hall c List.mem_cons_self
  | cons change changes ih =>
    rw [oldSlugs, List.foldr_cons, Pattern.matches_alt, Pattern.matches_literal, ← oldSlugs, ih]
    simp [eq_comm]

/-- A match is a link, cut into its parts. -/
theorem forall₂_parts {pagePart slugPart : Pattern UInt16} {groups : List Text} :
    List.Forall₂ Pattern.Matches [pagePart, lit "#", slugPart, aliasPart, lit "]]"] groups ↔
      ∃ opening slug aliasText, pagePart.Matches opening ∧ slugPart.Matches slug ∧
        IsAlias aliasText ∧ groups = [opening, units "#", slug, aliasText, units "]]"] := by
  constructor
  · rintro (_ | ⟨hpage, (_ | ⟨hmark, (_ | ⟨hslug, (_ | ⟨halias, (_ | ⟨hclose, (_ | _)⟩)⟩)⟩)⟩)⟩)
    rw [Pattern.matches_literal.mp hmark, Pattern.matches_literal.mp hclose]
    exact ⟨_, _, _, hpage, hslug, matches_aliasPart.mp halias, rfl⟩
  · rintro ⟨opening, slug, aliasText, hpage, hslug, halias, rfl⟩
    exact .cons hpage (.cons (Pattern.matches_literal.mpr rfl) (.cons hslug
      (.cons (matches_aliasPart.mpr halias) (.cons (Pattern.matches_literal.mpr rfl) .nil))))

theorem finds_linkPass {pagePart : Pattern UInt16} {oldSlug newSlug : Text} :
    (linkPass pagePart oldSlug newSlug).Finds w ↔ ∃ opening aliasText, pagePart.Matches opening ∧
      IsAlias aliasText ∧ w = opening ++ units "#" ++ oldSlug ++ aliasText ++ units "]]" := by
  constructor
  · rintro ⟨groups, hall, rfl⟩
    obtain ⟨opening, slug, aliasText, hpage, hslug, halias, rfl⟩ := forall₂_parts.mp hall
    obtain rfl := Pattern.matches_literal.mp hslug
    exact ⟨opening, aliasText, hpage, halias, by simp⟩
  · rintro ⟨opening, aliasText, hpage, halias, rfl⟩
    exact ⟨_, forall₂_parts.mpr ⟨opening, oldSlug, aliasText, hpage,
      Pattern.matches_literal.mpr rfl, halias, rfl⟩, by simp⟩

theorem finds_onePage {oldSlug newSlug : Text} : (linkPass (onePage page) oldSlug newSlug).Finds w ↔
    ∃ aliasText, IsAlias aliasText ∧ w = link page oldSlug aliasText := by
  rw [finds_linkPass]
  constructor
  · rintro ⟨opening, aliasText, hpage, halias, rfl⟩
    exact ⟨aliasText, halias, by rw [matches_onePage.mp hpage, link]⟩
  · rintro ⟨aliasText, halias, rfl⟩
    exact ⟨_, aliasText, matches_onePage.mpr rfl, halias, rfl⟩

theorem finds_anyPage {oldSlug newSlug : Text} : (linkPass anyPage oldSlug newSlug).Finds w ↔
    ∃ page aliasText, IsPage page ∧ IsAlias aliasText ∧ w = link page oldSlug aliasText := by
  rw [finds_linkPass]
  constructor
  · rintro ⟨opening, aliasText, hopening, halias, rfl⟩
    obtain ⟨page, hpage, rfl⟩ := matches_anyPage.mp hopening
    exact ⟨page, aliasText, hpage, halias, rfl⟩
  · rintro ⟨page, aliasText, hpage, halias, rfl⟩
    exact ⟨_, aliasText, matches_anyPage.mpr ⟨page, hpage, rfl⟩, halias, rfl⟩

theorem IsAlias.bracket (h : IsAlias aliasText) : unit ']' ∉ aliasText := by
  rcases h with rfl | ⟨shown, -, hshown, rfl⟩
  · simp
  · rw [List.mem_cons, not_or]
    exact ⟨by decide, hshown⟩

theorem IsAlias.head (h : IsAlias aliasText) :
    ∀ c ∈ (aliasText ++ units "]]" ++ t).head?, c = unit ']' ∨ c = unit '|' := by
  rcases h with rfl | ⟨shown, -, -, rfl⟩
  · rintro c ⟨⟩
    exact .inl rfl
  · rintro c ⟨⟩
    exact .inr rfl

/-- A link is read in one way. -/
theorem link_unique {oldSlug slug aliasText aliasText' t t' : Text} (hold : IsSlug u oldSlug)
    (hslug : IsSlug u slug) (halias : IsAlias aliasText) (halias' : IsAlias aliasText')
    (h : oldSlug ++ (aliasText ++ units "]]" ++ t) = slug ++ (aliasText' ++ units "]]" ++ t')) :
    oldSlug = slug ∧ aliasText = aliasText' := by
  have htake : ∀ slug aliasText t, IsSlug u slug → IsAlias aliasText →
      (slug ++ (aliasText ++ units "]]" ++ t)).takeWhile (· ∉ units "|]") = slug := by
    intro slug aliasText t hslug halias
    refine Pattern.takeWhile_append_head (fun c hc => decide_eq_true fun hmem => ?_) fun c hc => ?_
    · rcases List.mem_pair.mp hmem with rfl | rfl
      · exact hslug.not_mem (.inr rfl) hc
      · exact hslug.not_mem (.inl rfl) hc
    · rcases halias.head c hc with rfl | rfl <;> decide
  have hshown : ∀ aliasText t, IsAlias aliasText →
      (aliasText ++ (units "]]" ++ t)).takeWhile (· ≠ unit ']') = aliasText := by
    intro aliasText t halias
    refine Pattern.takeWhile_append_head (fun c hc => decide_eq_true fun heq => ?_) fun c hc => ?_
    · exact halias.bracket (heq ▸ hc)
    · obtain rfl : unit ']' = c := Option.some.inj hc
      decide
  have heq := congrArg (List.takeWhile (· ∉ units "|]")) h
  rw [htake _ _ _ hold halias, htake _ _ _ hslug halias'] at heq
  subst heq
  have hrest := congrArg (List.takeWhile (· ≠ unit ']')) (List.append_cancel_left h)
  rw [List.append_assoc, List.append_assoc, hshown _ _ halias, hshown _ _ halias'] at hrest
  exact ⟨rfl, hrest⟩

/-! ### All links at once -/

/-- The changes are those of slugs of headings. -/
def AreSlugs (u : Unicode) (changes : List HeadingChange) : Prop :=
  ∀ change ∈ changes, IsSlug u change.oldSlug ∧ IsSlug u change.newSlug

theorem newSlugOf_eq {change : HeadingChange} (hdistinct : (changes.map (·.oldSlug)).Nodup)
    (hmem : change ∈ changes) : newSlugOf changes change.oldSlug = change.newSlug := by
  induction changes with
  | nil => simp at hmem
  | cons first changes ih =>
    rw [List.map_cons, List.nodup_cons] at hdistinct
    rcases List.mem_cons.mp hmem with rfl | hmem
    · simp [newSlugOf]
    · have hne : first.oldSlug ≠ change.oldSlug := fun heq =>
        hdistinct.1 (heq ▸ List.mem_map_of_mem hmem)
      rw [newSlugOf, List.find?_cons_of_neg (by simpa using hne)]
      exact ih hdistinct.2 hmem

/-- A link is given its new slug, and nothing else of it changes. -/
theorem renameLinks_link {change : HeadingChange} (hslugs : AreSlugs u changes)
    (hdistinct : (changes.map (·.oldSlug)).Nodup) (hmem : change ∈ changes)
    (halias : IsAlias aliasText) (t : Text) :
    renameLinks (link page change.oldSlug aliasText ++ t) page changes =
      link page change.newSlug aliasText ++ renameLinks t page changes := by
  have hall : List.Forall₂ Pattern.Matches (renamePass page changes).parts
      [units "[[" ++ page, units "#", change.oldSlug, aliasText, units "]]"] :=
    forall₂_parts.mpr ⟨_, _, _, matches_onePage.mpr rfl, matches_oldSlugs.mpr ⟨change, hmem, rfl⟩,
      halias, rfl⟩
  have hlink : [units "[[" ++ page, units "#", change.oldSlug, aliasText, units "]]"].flatten =
      link page change.oldSlug aliasText := by simp [link]
  obtain ⟨groups, hgroups⟩ := Option.isSome_iff_exists.mp (Pattern.groups_isSome hall t)
  obtain ⟨hfound, t', ht'⟩ := Pattern.groups_sound hgroups
  obtain ⟨opening, slug, aliasText', hpage, hslug, halias', rfl⟩ := forall₂_parts.mp hfound
  obtain rfl := matches_onePage.mp hpage
  obtain ⟨other, hother, rfl⟩ := matches_oldSlugs.mp hslug
  have hparts : other.oldSlug ++ (aliasText' ++ units "]]" ++ t') =
      change.oldSlug ++ (aliasText ++ units "]]" ++ t) := by simpa using ht'
  obtain ⟨heq, rfl⟩ := link_unique (hslugs other hother).1 (hslugs change hmem).1 halias' halias
    hparts
  rw [heq] at hgroups
  rw [hlink] at hgroups
  rw [renameLinks, Pass.apply, Search.replace_match hgroups hlink]
  simp [renamePass, newSlugOf_eq hdistinct hmem, link, renameLinks, Pass.apply]

/-- What no link begins at stays. -/
theorem renameLinks_cons (h : ∀ change ∈ changes, ∀ aliasText, IsAlias aliasText →
    ¬ link page change.oldSlug aliasText <+: c :: s) :
    renameLinks (c :: s) page changes = c :: renameLinks s page changes := by
  refine Search.replace_none (Option.eq_none_iff_forall_ne_some.mpr fun groups hgroups => ?_)
  obtain ⟨hall, hprefix⟩ := Pattern.groups_sound hgroups
  obtain ⟨opening, slug, aliasText, hpage, hslug, halias, rfl⟩ := forall₂_parts.mp hall
  obtain ⟨change, hmem, rfl⟩ := matches_oldSlugs.mp hslug
  refine h change hmem aliasText halias ?_
  simpa [link, matches_onePage.mp hpage] using hprefix

/-! ### One after the other -/

/-- The replacements of a list of changes. -/
def passes (page : Pattern UInt16) (changes : List HeadingChange) : List (Pass UInt16) :=
  changes.map fun change => linkPass page change.oldSlug change.newSlug

theorem content_updateLinks (pagePart : Pattern UInt16) (content : Text)
    (changes : List HeadingChange) :
    (updateLinks pagePart content changes).content =
      Pass.run (passes pagePart changes) content := by
  have hloop : ∀ result : UpdateResult, (changes.foldl (fun result change =>
      let newContent := (linkPass pagePart change.oldSlug change.newSlug).apply result.content
      if newContent ≠ result.content then ⟨newContent, true⟩ else result) result).content =
        Pass.run (passes pagePart changes) result.content := by
    induction changes with
    | nil => exact fun _ => rfl
    | cons change changes ih =>
      intro result
      rw [List.foldl_cons, passes, List.map_cons, Pass.run_cons, ih, ← passes]
      simp only
      split_ifs with hne
      · rfl
      · rw [not_not.mp hne]
  exact hloop ⟨content, false⟩

theorem content_updateWikilinks (content : Text) (changes : List HeadingChange) :
    (updateWikilinksForHeadingChanges content changes).content =
      Pass.run (passes anyPage changes) content := by
  rw [updateWikilinksForHeadingChanges]
  split_ifs with hnil
  · rw [hnil]
    rfl
  · exact content_updateLinks anyPage content changes

theorem content_processHeadingRename (u : Unicode) (oldRandom newRandom : Nat → Text)
    (oldContent newContent pagePath : Text) :
    (processHeadingRename u oldRandom newRandom oldContent newContent pagePath).content =
      Pass.run (passes anyPage (detectHeadingChanges u oldRandom newRandom oldContent
        newContent).changes) newContent := by
  rw [processHeadingRename]
  split_ifs with hnil
  · rw [hnil]
    rfl
  · exact content_updateWikilinks newContent _

theorem forall_mem_passes {pagePart : Pattern UInt16} {motive : Pass UInt16 → Prop} :
    (∀ p ∈ passes pagePart changes, motive p) ↔
      ∀ change ∈ changes, motive (linkPass pagePart change.oldSlug change.newSlug) :=
  List.forall_mem_map

/-- A bracket is lost with every link. -/
theorem count_image {pagePart : Pattern UInt16} {oldSlug newSlug : Text} (hold : IsSlug u oldSlug)
    (hnew : IsSlug u newSlug) (groups : List Text)
    (hall : List.Forall₂ Pattern.Matches (linkPass pagePart oldSlug newSlug).parts groups) :
    ((linkPass pagePart oldSlug newSlug).image groups).count (unit ']') <
      groups.flatten.count (unit ']') := by
  obtain ⟨opening, slug, aliasText, -, hslug, -, rfl⟩ := forall₂_parts.mp hall
  obtain rfl := Pattern.matches_literal.mp hslug
  have hmark : (units "#").count (unit ']') = 0 := by decide
  have hone : (units "]").count (unit ']') = 1 := by decide
  have htwo : (units "]]").count (unit ']') = 2 := by decide
  simp [linkPass, List.count_eq_zero_of_not_mem (hold.not_mem (.inl rfl)),
    List.count_eq_zero_of_not_mem (hnew.not_mem (.inl rfl)), hmark, hone, htwo]

theorem count_renameLinks (hslugs : AreSlugs u changes) (text page : Text) :
    (renameLinks text page changes).count (unit ']') = text.count (unit ']') := by
  refine Search.count_replace_eq (fun groups hall => ?_) text
  obtain ⟨opening, slug, aliasText, -, hslug, -, rfl⟩ := forall₂_parts.mp hall
  obtain ⟨change, hmem, rfl⟩ := matches_oldSlugs.mp hslug
  have hnew : unit ']' ∉ newSlugOf changes change.oldSlug := by
    rw [newSlugOf]
    split
    · next found hfound =>
      exact (hslugs found (List.mem_of_find?_eq_some hfound)).2.not_mem (.inl rfl)
    · exact (hslugs change hmem).1.not_mem (.inl rfl)
  simp [renamePass, List.count_eq_zero_of_not_mem hnew,
    List.count_eq_zero_of_not_mem ((hslugs change hmem).1.not_mem (.inl rfl))]

/-- The links to a page are renamed as they are to be if and only if there is none to rename. -/
theorem updateWikilinksInPage_iff (hslugs : AreSlugs u changes) (text page : Text) :
    (updateWikilinksInPage text page changes).content = renameLinks text page changes ↔
      ∀ change ∈ changes, ∀ aliasText, IsAlias aliasText →
        ¬ link page change.oldSlug aliasText <:+: text := by
  rw [updateWikilinksInPage, content_updateLinks]
  constructor
  · intro heq change hmem aliasText halias hin
    have hlt := (Pass.count_run_lt (forall_mem_passes.mpr fun other hother =>
      count_image (hslugs other hother).1 (hslugs other hother).2) text).2 _
        (List.mem_map_of_mem hmem) _ (finds_onePage.mpr ⟨aliasText, halias, rfl⟩) hin
    rw [heq, count_renameLinks hslugs] at hlt
    exact Nat.lt_irrefl _ hlt
  · intro h
    rw [Pass.run_eq_self (forall_mem_passes.mpr fun change hmem w hw hin => ?_)]
    · refine (Search.replace_eq_self fun w ⟨groups, hall, hw⟩ hin => ?_).symm
      obtain ⟨opening, slug, aliasText, hpage, hslug, halias, rfl⟩ := forall₂_parts.mp hall
      obtain ⟨change, hmem, rfl⟩ := matches_oldSlugs.mp hslug
      refine h change hmem aliasText halias ?_
      rw [← hw] at hin
      simpa [link, matches_onePage.mp hpage] using hin
    · obtain ⟨aliasText, halias, rfl⟩ := finds_onePage.mp hw
      exact h change hmem aliasText halias hin

/-! ### Links to other pages -/

/-- A link as it stands in a text; `rest` is its heading and its alias. -/
structure PageLink where
  page : Text
  rest : Text
  page_ends : unit '#' ∉ page ∧ unit '|' ∉ page
  rest_begins : ∀ c ∈ rest.head?, c = unit '#' ∨ c = unit '|'
  inner : unit ']' ∉ page ++ rest

def PageLink.text (l : PageLink) : Text := units "[[" ++ l.page ++ l.rest ++ units "]]"

theorem closes_linkPass {oldSlug newSlug : Text} (hold : IsSlug u oldSlug)
    (hnew : IsSlug u newSlug) : (linkPass anyPage oldSlug newSlug).Closes (unit ']') where
  found groups hall := by
    obtain ⟨page, aliasText, hpage, halias, hw⟩ := finds_anyPage.mp ⟨groups, hall, rfl⟩
    refine ⟨units "[[" ++ page ++ units "#" ++ oldSlug ++ aliasText, by simp [units], ?_, hw⟩
    simp [hpage.bracket, halias.bracket, hold.not_mem (.inl rfl)]
    decide
  left groups hall := by
    obtain ⟨opening, slug, aliasText, hopening, -, halias, rfl⟩ := forall₂_parts.mp hall
    obtain ⟨page, hpage, rfl⟩ := matches_anyPage.mp hopening
    refine ⟨units "[[" ++ page ++ units "#" ++ newSlug ++ aliasText, by simp [units], ?_, rfl⟩
    simp [hpage.bracket, halias.bracket, hnew.not_mem (.inl rfl)]
    decide

/-- A link is kept, and what is around it is rewritten on its own, if and only if no link with an
old slug ends where it does. -/
theorem run_keeps_link_iff (hslugs : AreSlugs u changes) (l : PageLink) (x y : Text) :
    Pass.run (passes anyPage changes) (x ++ l.text ++ y) =
        Pass.run (passes anyPage changes) x ++ l.text ++ Pass.run (passes anyPage changes) y ↔
      ∀ change ∈ changes, ∀ page aliasText, IsPage page → IsAlias aliasText →
        ¬ link page change.oldSlug aliasText <:+ x ++ l.text := by
  have htext : l.text = units "[[" ++ l.page ++ l.rest ++ [unit ']', unit ']'] := rfl
  have hinner : unit ']' ∉ units "[[" ++ l.page ++ l.rest := by
    rw [List.append_assoc, List.mem_append, not_or]
    exact ⟨by decide, l.inner⟩
  rw [htext, Pass.run_keeps_iff (forall_mem_passes.mpr fun change hmem =>
    closes_linkPass (hslugs change hmem).1 (hslugs change hmem).2) (by simp [units]) hinner,
    forall_mem_passes]
  refine forall₂_congr fun change _ => ?_
  constructor
  · intro h page aliasText hpage halias hsuffix
    exact h ⟨_, finds_anyPage.mpr ⟨page, aliasText, hpage, halias, rfl⟩, hsuffix⟩
  · rintro h ⟨w, hw, hsuffix⟩
    obtain ⟨page, aliasText, hpage, halias, rfl⟩ := finds_anyPage.mp hw
    exact h page aliasText hpage halias hsuffix

/-- The links to a page are renamed as they are to be if and only if there is none to rename, and a
link to another page is kept if and only if no link with an old slug ends where it does. -/
theorem headingLinks_iff (u : Unicode) (oldRandom newRandom : Nat → Text) :
    (∀ text page changes, AreSlugs u changes →
      ((updateWikilinksInPage text page changes).content = renameLinks text page changes ↔
        ∀ change ∈ changes, ∀ aliasText, IsAlias aliasText →
          ¬ link page change.oldSlug aliasText <:+: text)) ∧
    ∀ oldContent newContent pagePath x y, ∀ l : PageLink, l.page ≠ pagePath →
      newContent = x ++ l.text ++ y →
        let changes := (detectHeadingChanges u oldRandom newRandom oldContent newContent).changes
        let update text := (updateWikilinksForHeadingChanges text changes).content
        (processHeadingRename u oldRandom newRandom oldContent newContent pagePath).content =
            update x ++ l.text ++ update y ↔
          ∀ change ∈ changes, ∀ page aliasText, IsPage page → IsAlias aliasText →
            ¬ link page change.oldSlug aliasText <:+ x ++ l.text := by
  refine ⟨fun text page changes hslugs => updateWikilinksInPage_iff hslugs text page,
    fun oldContent newContent pagePath x y l _ hnew => ?_⟩
  simp only [content_processHeadingRename, content_updateWikilinks]
  subst hnew
  exact run_keeps_link_iff (fun _ hmem => isSlug_of_changes hmem) l x y

theorem isSlug_self {slug : Text} (h : slugifyHeading u slug = slug) : IsSlug u slug :=
  ⟨slug, 0, by rw [numberedSlug, if_pos rfl, h]⟩

/-- A link to a heading of the page `q`. -/
def exampleLink : PageLink where
  page := units "q"
  rest := units "#a"
  page_ends := by decide
  rest_begins := by simp [units, unit]
  inner := by decide

/-- The heading `a` is renamed to `b`. -/
theorem headingLinks_renamed :
    (updateWikilinksInPage (units "[[p#a]]") (units "p")
      [⟨units "a", units "b", units "a", units "b"⟩]).content ≠
        renameLinks (units "[[p#a]]") (units "p")
          [⟨units "a", units "b", units "a", units "b"⟩] ∧
    (processHeadingRename ascii (fun _ => []) (fun _ => []) (units "# a\n[[q#a]]")
      (units "# b\n[[q#a]]") (units "p")).content ≠ units "# b\n[[q#a]]" := by
  have hchanges : (detectHeadingChanges ascii (fun _ => []) (fun _ => []) (units "# a\n[[q#a]]")
      (units "# b\n[[q#a]]")).changes = [⟨units "a", units "b", units "a", units "b"⟩] := by
    decide +kernel
  obtain ⟨hpage, hother⟩ := headingLinks_iff ascii (fun _ => []) (fun _ => [])
  constructor
  · refine fun heq => (hpage (units "[[p#a]]") (units "p") _ ?_).mp heq
      ⟨units "a", units "b", units "a", units "b"⟩ List.mem_cons_self [] (.inl rfl) List.infix_rfl
    intro change hmem
    rw [List.mem_singleton.mp hmem]
    exact ⟨isSlug_self (by decide), isSlug_self (by decide)⟩
  · intro heq
    have hkept := hother (units "# a\n[[q#a]]") (units "# b\n[[q#a]]") (units "p")
      (units "# b\n") [] exampleLink (by decide) rfl
    rw [hchanges] at hkept
    exact hkept.mp (heq.trans (by decide)) _ List.mem_cons_self (units "q") []
      ⟨by decide, by decide, by decide⟩ (.inl rfl) (List.suffix_append _ _)

/-- A link to the page loses a bracket, and a link to another page is rewritten with it. -/
theorem rewritten_links :
    (updateWikilinksInPage (units "[[p#a|x]]") (units "p")
      [⟨units "a", units "b", units "a", units "b"⟩]).content = units "[[p#b|x]" ∧
    renameLinks (units "[[p#a|x]]") (units "p")
      [⟨units "a", units "b", units "a", units "b"⟩] = units "[[p#b|x]]" ∧
    (processHeadingRename ascii (fun _ => []) (fun _ => []) (units "# a\n[[q#a]]")
      (units "# b\n[[q#a]]") (units "p")).content = units "# b\n[[q#b]" := by
  decide +kernel

end Mdock.Editor.Headings
