import Mdock.WebDAV.Paths

/-! Hrefs read back. The text an href decodes to goes through `parsePath`, which strips
the route and decodes once more; `webdavHref_roundTrip` says when that does no harm. -/
namespace Mdock.WebDAV
open Mdock.Go Mdock.Vault Mdock.Store

/-- A slash in front of what follows, nothing in front of nothing. -/
def slashed : List Bytes → Bytes
  | [] => []
  | ns => slash :: join ns

theorem join_cons_slashed (s : Bytes) (ns : List Bytes) : join (s :: ns) = s ++ slashed ns := by
  cases ns with
  | nil => simp [slashed, join]
  | cons n ns => rfl

/-- The path an href stands for, and the slash a collection's href ends with. -/
def tail (isDir : Bool) : Bytes := if isDir then [slash] else []

theorem pathEscape_no_slash (s : Bytes) : slash ∉ pathEscape s := by
  have h : ∀ n : Fin 256, slash ∉ escapeByte (UInt8.ofFin n) := by decide +kernel
  intro hm
  obtain ⟨c, -, hc⟩ := List.mem_flatMap.mp hm
  exact h c.toFin (by simpa using hc)

theorem pathEscape_ne_nil {s : Bytes} (h : s ≠ []) : pathEscape s ≠ [] := by
  cases s with
  | nil => exact absurd rfl h
  | cons c s =>
    have hc : escapeByte c ≠ [] := by
      unfold escapeByte
      split <;> simp
    simp [pathEscape, hc]

theorem not_slash_suffix {parts : List Bytes} (hne : parts ≠ [])
    (h : ∀ p ∈ parts, p ≠ [] ∧ slash ∉ p) (s : Bytes) : ¬ [slash] <:+ s ++ join parts := by
  have hlast {q : Bytes} (hq : q ≠ []) (s : Bytes) : [slash] <:+ s ++ q ↔ [slash] <:+ q := by
    rw [List.singleton_suffix_iff_getLast?_eq_some, List.singleton_suffix_iff_getLast?_eq_some,
      List.getLast?_append_of_ne_nil _ hq]
  induction parts generalizing s with
  | nil => exact absurd rfl hne
  | cons p parts ih =>
    cases parts with
    | nil =>
      rw [join, hlast (h p (by simp)).1]
      exact fun hs => (h p (by simp)).2 (hs.subset (by simp))
    | cons q parts =>
      rw [join, List.append_cons, ← List.append_assoc]
      exact ih (by simp) (fun e he => h e (List.mem_cons_of_mem p he)) _

theorem names_filter {rel : Bytes} (h : CleanRel rel) :
    (if rel ≠ dot ∧ rel ≠ [] then
      (split (clean rel)).filter fun part => part ≠ [] ∧ part ≠ dot else []) = names rel := by
  rcases h.cases with ⟨rfl, hn⟩ | ⟨-, hn, -, hd⟩
  · rw [hn]
    rfl
  · rw [if_pos ⟨hd, h.ne_nil⟩, h.clean_eq, names, if_neg hd]
    rw [names, if_neg hd] at hn
    refine List.filter_eq_self.mpr fun n hn' => ?_
    simp [(hn n hn').1, (hn n hn').2.1]

theorem names_ne_nil {rel : Bytes} (h : CleanRel rel) : ∀ n ∈ names rel, n ≠ [] := by
  rcases h.cases with ⟨-, hn⟩ | ⟨-, hn, -, -⟩
  · simp [hn]
  · exact fun n hn' => (hn n hn').1

theorem webdavHref_eq {slug rel : Bytes} (hs : slug ≠ []) (h : CleanRel rel) (isDir : Bool) :
    webdavHref slug rel isDir =
      slash :: (join ((webdav :: slug :: names rel).map pathEscape) ++ tail isDir) := by
  have hparts : ∀ p ∈ (webdav :: slug :: names rel).map pathEscape,
      p ≠ [] ∧ slash ∉ p := by
    intro p hp
    obtain ⟨n, hn, rfl⟩ := List.mem_map.mp hp
    refine ⟨pathEscape_ne_nil ?_, pathEscape_no_slash n⟩
    simp only [List.mem_cons] at hn
    rcases hn with rfl | rfl | hn
    · decide
    · exact hs
    · exact names_ne_nil h n hn
  have hend := not_slash_suffix (by simp) hparts [slash]
  rw [webdavHref, names_filter h]
  have hjoin : join ([] :: (webdav :: slug :: names rel).map pathEscape) =
      [slash] ++ join ((webdav :: slug :: names rel).map pathEscape) := rfl
  rw [hjoin]
  cases isDir <;> simp only [hend, tail] <;> simp

theorem unescape_webdavHref {slug rel : Bytes} (hs : slug ≠ []) (h : CleanRel rel)
    (isDir : Bool) : unescape (webdavHref slug rel isDir) =
      some (webdavPrefix ++ slash :: (slug ++ (slashed (names rel) ++ tail isDir))) := by
  have ht : unescape (tail isDir) = some (tail isDir) := by
    cases isDir <;> decide
  rw [webdavHref_eq hs h, unescape_cons_of_ne (by decide), unescape_join_pathEscape, ht,
    join_cons (by simp), join_cons_slashed, webdavPrefix_eq]
  simp

/-- Decoding an href and stripping it leaves the slug, the names and perhaps a slash. -/
theorem lookup_webdavHref {slug rel : Bytes} (hs : slug ≠ []) (h : CleanRel rel) (isDir : Bool) :
    lookup (webdavHref slug rel isDir) =
      (parsePath (slash :: (slug ++ (slashed (names rel) ++ tail isDir)))).toOption := by
  rw [lookup, unescape_webdavHref hs h]
  simp [stripPrefix]

/-- A text that starts with the prefix loses it a second time. -/
theorem trimPrefix_webdav {slug rest : Bytes} (hrest : rest = [] ∨ ∃ r, rest = slash :: r) :
    trimPrefix (slash :: (slug ++ rest)) webdavPrefix =
      if webdav <+: slug then slug.drop webdav.length ++ rest else slash :: (slug ++ rest) := by
  have hpre : webdavPrefix <+: slash :: (slug ++ rest) ↔ webdav <+: slug := by
    rw [webdavPrefix_eq, List.prefix_cons_inj]
    constructor
    · intro hp
      rcases List.prefix_or_prefix_of_prefix hp (List.prefix_append slug rest) with h | h
      · exact h
      · obtain ⟨t, ht⟩ := h
        rw [← ht, List.prefix_append_right_inj] at hp
        have hno : slash ∉ webdav := by decide
        cases t with
        | nil =>
          rw [List.append_nil] at ht
          rw [ht]
        | cons b t =>
          obtain ⟨u, hu⟩ := hp
          rcases hrest with rfl | ⟨r, rfl⟩
          · simp at hu
          · obtain rfl : b = slash := by simpa using congrArg List.head? hu
            exact absurd (ht ▸ by simp) hno
    · exact fun hp => hp.trans (List.prefix_append slug rest)
  by_cases hp : webdav <+: slug
  · rw [if_pos hp, trimPrefix, if_pos (List.isPrefixOf_iff_prefix.mpr (hpre.mpr hp))]
    obtain ⟨t, rfl⟩ := hp
    simp [webdavPrefix_eq]
  · rw [if_neg hp, trimPrefix_of_not fun h => hp (hpre.mp h)]

theorem slashed_names {rel : Bytes} (h : CleanRel rel) :
    slashed (names rel) = if rel = dot then [] else slash :: rel := by
  rcases h.cases with ⟨rfl, hn⟩ | ⟨hne, -, hj, hd⟩
  · rw [hn, if_pos rfl]
    rfl
  · rw [if_neg hd]
    conv_rhs => rw [hj]
    cases hn : names rel with
    | nil => exact absurd hn hne
    | cons n ns => rfl

theorem rest_cases (rel : Bytes) (isDir : Bool) : slashed (names rel) ++ tail isDir = [] ∨
    ∃ r, slashed (names rel) ++ tail isDir = slash :: r := by
  cases names rel <;> cases isDir <;> simp [slashed, tail]

theorem cut_slug {slug : Bytes} (hslash : slash ∉ slug) (rel : Bytes) (isDir : Bool) :
    (cut slash (slug ++ (slashed (names rel) ++ tail isDir))).1 = slug := by
  rcases rest_cases rel isDir with hr | ⟨r, hr⟩
  · rw [hr, List.append_nil, cut_of_not_mem hslash]
  · rw [hr, cut_append hslash]

theorem tail_length (isDir : Bool) : (tail isDir).length ≤ 1 := by
  cases isDir <;> simp [tail]

theorem clean_append_tail {rel : Bytes} (h : CleanRel rel) (hd : rel ≠ dot) (isDir : Bool) :
    clean (rel ++ tail isDir) = rel := by
  rcases h.cases with ⟨he, -⟩ | ⟨hne, hn, hj, -⟩
  · exact absurd he hd
  · cases isDir with
    | false => simpa [tail] using h.clean_eq
    | true =>
      rw [hj]
      exact clean_names_slash hne hn

/-- What follows the slug determines the path. -/
theorem clean_rest {rel : Bytes} (h : CleanRel rel) (isDir : Bool) :
    clean ((slashed (names rel) ++ tail isDir).drop 1) = rel := by
  rw [slashed_names h]
  by_cases hd : rel = dot
  · subst hd
    cases isDir <;> decide
  · rw [if_neg hd]
    exact clean_append_tail h hd isDir

section RoundTrip
variable {slug rel : Bytes} (hs : slug ≠ []) (hslash : slash ∉ slug) (hpercent : percent ∉ slug)
  (h : CleanRel rel) (isDir : Bool)

theorem trimmed_of_not_webdav (hw : ¬ webdav <+: slug) :
    trimmed (slash :: (slug ++ (slashed (names rel) ++ tail isDir))) =
      slug ++ (slashed (names rel) ++ tail isDir) := by
  rw [trimmed, trimPrefix_webdav (rest_cases rel isDir), if_neg hw]
  exact trimPrefix_append [slash] _

include hs hslash hpercent h in
/-- Slugs that do not resemble the route and names without a percent sign are read back. -/
theorem parsePath_reads (hw : ¬ webdav <+: slug) (hp : percent ∉ rel) :
    parsePath (slash :: (slug ++ (slashed (names rel) ++ tail isDir))) = .ok (slug, rel) := by
  have hne : slug ++ (slashed (names rel) ++ tail isDir) ≠ [] := by simp [hs]
  rw [parsePath, trimmed_of_not_webdav isDir hw, if_neg hne, slashed_names h]
  by_cases hd : rel = dot
  · subst hd
    cases isDir with
    | false => simp [tail, cut_of_not_mem hslash, unescape_of_not_mem hpercent, hs]
    | true => simp [tail, cut_append hslash, unescape_of_not_mem hpercent, hs]
  · have hcut : cut slash (slug ++ (slash :: rel ++ tail isDir)) =
        (slug, some (rel ++ tail isDir)) := cut_append hslash _
    have hraw : rel ++ tail isDir ≠ [] := by simp [h.ne_nil]
    have hun : unescape (rel ++ tail isDir) = some (rel ++ tail isDir) := by
      apply unescape_of_not_mem
      rw [List.mem_append, not_or]
      exact ⟨hp, by cases isDir <;> decide⟩
    rw [if_neg hd, hcut]
    simp only [unescape_of_not_mem hpercent, hs, if_false, hraw, hun, clean_append_tail h hd,
      h.ne_nil]

include hslash h in
/-- A name with a percent sign is decoded once more, and comes out shorter. -/
theorem parsePath_percent (hw : ¬ webdav <+: slug) (hp : percent ∈ rel) :
    parsePath (slash :: (slug ++ (slashed (names rel) ++ tail isDir))) ≠ .ok (slug, rel) := by
  intro hok
  have hd : rel ≠ dot := by
    rintro rfl
    exact absurd hp (by decide)
  obtain ⟨-, -, hrel⟩ := parsePath_ok hok
  rw [trimmed_of_not_webdav isDir hw, slashed_names h, if_neg hd, List.cons_append,
    cut_append hslash] at hrel
  obtain ⟨raw, q, hraw, hne, hq, hrel⟩ := hrel.resolve_left hd
  obtain rfl := Option.some.inj hraw
  have hlen := (unescape_length hq).2 (List.mem_append_left _ hp)
  have hpos := List.length_pos_of_ne_nil (unescape_ne_nil hq hne)
  have hc := clean_length q
  have ht := tail_length isDir
  rw [← hrel] at hc
  rw [List.length_append] at hlen
  omega

include hslash hpercent h in
/-- A slug that starts like the route is cut short. -/
theorem parsePath_webdav (hw : webdav <+: slug) :
    parsePath (slash :: (slug ++ (slashed (names rel) ++ tail isDir))) ≠ .ok (slug, rel) := by
  intro hok
  obtain ⟨hslug, -, hrel⟩ := parsePath_ok hok
  have htrim := @trimPrefix_webdav slug _ (rest_cases rel isDir)
  rw [if_pos hw] at htrim
  obtain ⟨t, rfl⟩ := hw
  rw [List.drop_left] at htrim
  rw [trimmed, htrim] at hslug hrel
  simp only [List.mem_append, not_or] at hslash hpercent
  cases t with
  | cons b t =>
    have hb : slash ≠ b := fun hb => hslash.2 (by simp [hb])
    rw [trimPrefix_of_not (by simp [hb]), cut_slug hslash.2,
      unescape_of_not_mem hpercent.2] at hslug
    have hlen := congrArg List.length (Option.some.inj hslug)
    have hw : webdav.length = 6 := by decide
    rw [List.length_append] at hlen
    omega
  | nil =>
    by_cases hd : rel = dot
    · -- nothing is left to read a slug from
      have hnil : trimPrefix ([] ++ (slashed (names rel) ++ tail isDir)) [slash] = [] := by
        rw [slashed_names h, if_pos hd]
        cases isDir <;> rfl
      rw [hnil] at hslug
      exact absurd hslug (by decide)
    · -- the first name is read as the slug, and what is left is shorter than `rel`
      have hrest : trimPrefix ([] ++ (slashed (names rel) ++ tail isDir)) [slash] =
          rel ++ tail isDir := by
        rw [slashed_names h, if_neg hd]
        exact trimPrefix_append [slash] _
      rw [hrest] at hslug hrel
      obtain ⟨raw, q, hraw, -, hq, hrel⟩ := hrel.resolve_left hd
      have hsplit := congrArg List.length (cut_spec slash (rel ++ tail isDir)).2
      rw [hraw] at hsplit
      have hw : webdav.length = 6 := by decide
      have hl := (unescape_length hslug).1
      have hl' := (unescape_length hq).1
      have hc := clean_length q
      have ht := tail_length isDir
      rw [← hrel] at hc
      simp only [List.length_append, Option.map_some, Option.getD_some, List.length_cons] at *
      omega

end RoundTrip

/-- Every href names one slug and one path. -/
theorem webdavHref_injective {slug slug' rel rel' : Bytes} (hs : slug ≠ []) (hs' : slug' ≠ [])
    (hslash : slash ∉ slug) (hslash' : slash ∉ slug') (h : CleanRel rel) (h' : CleanRel rel')
    {isDir isDir' : Bool} (he : webdavHref slug rel isDir = webdavHref slug' rel' isDir') :
    slug = slug' ∧ rel = rel' := by
  have hu := congrArg unescape he
  rw [unescape_webdavHref hs h, unescape_webdavHref hs' h', Option.some.injEq,
    List.append_right_inj, List.cons.injEq] at hu
  have hslug : slug = slug' := by
    rw [← cut_slug hslash rel isDir, hu.2, cut_slug hslash']
  subst hslug
  have hrest := List.append_cancel_left hu.2
  refine ⟨rfl, ?_⟩
  rw [← clean_rest h isDir, hrest, clean_rest h']

theorem toOption_eq_some {ε α : Type} {e : Except ε α} {a : α} :
    e.toOption = some a ↔ e = .ok a := by
  cases e <;> simp [Except.toOption]

/-- An href leads back to what it describes exactly when the slug does not start like the
route and the path has no percent sign; and no two resources share an href. -/
theorem webdavHref_roundTrip (name : List Char) {rel : Bytes} (h : CleanRel rel) (isDir : Bool) :
    (lookup (webdavHref (slug name) rel isDir) = some (slug name, rel) ↔
      ¬ webdav <+: slug name ∧ percent ∉ rel) ∧
    ∀ name' rel' isDir', CleanRel rel' →
      webdavHref (slug name) rel isDir = webdavHref (slug name') rel' isDir' →
      slug name = slug name' ∧ rel = rel' := by
  have hs := slug_ne_nil name
  have hslash := slug_no_slash name
  have hpercent := slug_no_percent name
  constructor
  · rw [lookup_webdavHref hs h]
    constructor
    · intro hok
      have hp := toOption_eq_some.mp hok
      have hw : ¬ webdav <+: slug name := fun hw => parsePath_webdav hslash hpercent h isDir hw hp
      exact ⟨hw, fun hm => parsePath_percent hslash h isDir hw hm hp⟩
    · rintro ⟨hw, hp⟩
      rw [parsePath_reads hs hslash hpercent h isDir hw hp]
      rfl
  · intro name' rel' isDir' h' he
    exact webdavHref_injective hs (slug_ne_nil name') hslash (slug_no_slash name') h h' he

theorem webdavHref_roundTrip_plain :
    lookup (webdavHref (slug "My Notes".toList) (utf8 "docs/a b?#.md") false) =
      some (slug "My Notes".toList, utf8 "docs/a b?#.md") := by
  have hsafe : safeRelPath (utf8 "docs/a b?#.md") = .ok (utf8 "docs/a b?#.md") := by decide
  have hclean := cleanRel_of_safeRelPath hsafe
  rw [(webdavHref_roundTrip "My Notes".toList hclean false).1]
  decide

/-- The vault "WebDAV" is not found under its own href, and the href of `100%25.md` leads
to `100%.md`. -/
theorem webdavHref_misread :
    ¬ (∀ name rel isDir, CleanRel rel →
      lookup (webdavHref (slug name) rel isDir) = some (slug name, rel)) ∧
    lookup (webdavHref (slug "WebDAV".toList) (utf8 "a.md") false) = some (utf8 "a.md", dot) ∧
    lookup (webdavHref (slug "Notes".toList) (utf8 "100%25.md") false) =
      some (slug "Notes".toList, utf8 "100%.md") := by
  refine ⟨fun h => ?_, by decide +kernel, by decide +kernel⟩
  have hsafe : safeRelPath (utf8 "100%25.md") = .ok (utf8 "100%25.md") := by decide
  have hp := h "Notes".toList (utf8 "100%25.md") false (cleanRel_of_safeRelPath hsafe)
  exact absurd hp (by decide +kernel)

end Mdock.WebDAV
