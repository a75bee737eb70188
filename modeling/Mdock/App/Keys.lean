import Mdock.App.Files
import Mdock.Go.Path
import Mdock.WebDAV.Paths

/-! `SafeRelPath` as a canonical form: containment, and the keys under which the web and
the WebDAV side lock one file, rest on it. -/
namespace Mdock.Vault
open Mdock.Go

/-- `ensureInside`, on the texts of the paths. -/
def ensureInsidePath (wd root path : Bytes) : Except Err Unit :=
  let rel := relPath (absPath wd root) (absPath wd path)
  if rel = dotdot ∨ dotdot ++ [slash] <+: rel then .error .escapes else .ok ()

theorem not_upward {n : Bytes} (h : IsName n) (rest : List Bytes) :
    ¬ (join (n :: rest) = dotdot ∨ dotdot ++ [slash] <+: join (n :: rest)) := by
  rintro (he | he)
  · have hs := congrArg split he
    cases rest with
    | nil => exact h.2.2.1 he
    | cons m rest =>
      rw [join, split_slash, split_of_not_mem h.2.2.2, split_of_not_mem not_slash_dotdot] at hs
      exact h.2.2.1 (List.cons.inj hs).1
  · obtain ⟨tail, ht⟩ := he
    rw [List.append_assoc] at ht
    have hs := congrArg split ht
    rw [List.singleton_append, split_slash, split_of_not_mem not_slash_dotdot] at hs
    cases rest with
    | nil =>
      rw [join, split_of_not_mem h.2.2.2] at hs
      exact h.2.2.1 (List.cons.inj hs).1.symm
    | cons m rest =>
      rw [join, split_slash, split_of_not_mem h.2.2.2] at hs
      exact h.2.2.1 (List.cons.inj hs).1.symm

/-- The elements of an absolute clean path. -/
theorem isName_of_mem_cleanElems {p n : Bytes} (h : n ∈ cleanElems true p) : IsName n := by
  have names : ∀ {stack : List Bytes}, NormalStack true stack → ∀ e ∈ stack, IsName e := by
    intro stack
    induction stack with
    | nil => simp
    | cons e stack ih =>
      intro hs e' he'
      rcases hs with ⟨hn, hs⟩ | ⟨-, hr, -⟩
      · rcases List.mem_cons.mp he' with rfl | he'
        · exact hn
        · exact ih hs e' he'
      · cases hr
  exact names (cleanElems_normal true p) n (by simpa using h)

/-- The check on texts is the check on places. -/
theorem ensureInsidePath_eq (wd root path : Bytes) :
    ensureInsidePath wd root path =
      ensureInside (cleanElems true (absPath wd root)) (cleanElems true (absPath wd path)) := by
  obtain ⟨common, hb, ht, hp⟩ := dropCommon_spec (cleanElems true (absPath wd root))
    (cleanElems true (absPath wd path))
  unfold ensureInsidePath ensureInside relPath
  rw [← List.isPrefixOf_iff_prefix] at hp
  generalize dropCommon _ _ = rest at hb ht hp ⊢
  obtain ⟨up, down⟩ := rest
  simp only at hb ht hp ⊢
  cases up with
  | nil =>
    rw [if_pos (hp.mpr rfl)]
    refine if_neg ?_
    cases down with
    | nil => decide
    | cons n down =>
      have hn : IsName n := isName_of_mem_cleanElems (p := absPath wd path) (by rw [ht]; simp)
      simpa using not_upward hn down
  | cons b up =>
    have hrest : (b :: up, down) ≠ (([], []) : List Bytes × List Bytes) := by simp
    rw [if_neg hrest, if_neg (fun h => List.cons_ne_nil b up (hp.mp h))]
    exact if_pos (join_dotdot rfl)

theorem names_clean {p : Bytes} (h : p.head? ≠ some slash) :
    names (clean p) = cleanElems false p := by
  have hnormal := cleanElems_normal false p
  rw [clean_of_relative h]
  split
  · rename_i he
    rw [he, names_dot]
  · rename_i he
    have hsplit := split_join he fun e hm => hnormal.not_mem_slash e (by simpa using hm)
    have hdot : join (cleanElems false p) ≠ dot := by
      intro hd
      rw [hd] at hsplit
      have hone : cleanElems false p = [dot] := hsplit.symm
      rw [hone] at hnormal
      rcases hnormal with ⟨hn, -⟩ | ⟨hn, -⟩
      · exact hn.2.1 rfl
      · exact absurd hn (by decide)
    rw [names, if_neg hdot, hsplit]

/-- An accepted path leads to the place its canonical form names. -/
theorem lexical_of_safeRelPath {input rel : Bytes} (h : safeRelPath input = .ok rel) :
    lexical input = some (names rel) := by
  by_cases hin : input = [] ∨ input = dot ∨ input = [slash]
  · have hrel : rel = dot := by
      rw [safeRelPath, if_pos hin] at h
      exact (Except.ok.inj h).symm
    rw [hrel, names_dot]
    rcases hin with rfl | rfl | rfl <;> decide
  · have hhead : input.head? ≠ some slash := by
      intro hs
      rw [safeRelPath, if_neg hin, if_pos hs] at h
      cases h
    have hrel : rel = clean input := by
      rcases safeRelPath_ok h with rfl | ⟨hr, -⟩
      · exact (safeRelPath_root hhead (not_or.mp hin).1 h).symm
      · exact hr
    have hnames := (names_clean hhead).symm
    have hup : dotdot ∉ cleanElems false input := by
      rw [hnames, ← hrel]
      intro hm
      rcases (cleanRel_of_safeRelPath h).cases with ⟨-, hn⟩ | ⟨-, hn, -⟩
      · rw [hn] at hm
        cases hm
      · exact (hn _ hm).2.2.1 rfl
    rw [lexical_of_cleanElems hup, hnames, hrel]

theorem CleanRel.eq_of_names {rel rel' : Bytes} (h : CleanRel rel) (h' : CleanRel rel')
    (he : names rel = names rel') : rel = rel' := by
  rcases h.cases with ⟨hd, hn⟩ | ⟨hne, -, hj, -⟩
  · rcases h'.cases with ⟨hd', -⟩ | ⟨hne', -⟩
    · rw [hd, hd']
    · exact absurd (he.symm.trans hn) hne'
  · rcases h'.cases with ⟨-, hn'⟩ | ⟨-, -, hj', -⟩
    · exact absurd (he.trans hn') hne
    · rw [hj, hj', he]

theorem CleanRel.head? {rel : Bytes} (h : CleanRel rel) : rel.head? ≠ some slash := by
  rcases h with rfl | ⟨ns, hne, hn, rfl⟩
  · decide
  · exact head?_join hne fun e he => ⟨(hn e he).1, (hn e he).2.2.2⟩

theorem CleanRel.dotdot_not_mem {rel : Bytes} (h : CleanRel rel) : dotdot ∉ split rel := by
  rcases h with rfl | ⟨ns, hne, hn, rfl⟩
  · decide
  · rw [split_join hne fun e he => (hn e he).2.2.2]
    exact fun hm => (hn _ hm).2.2.1 rfl

theorem dotGit_not_mem {input rel : Bytes} (h : safeRelPath input = .ok rel) :
    dotGit ∉ split rel := by
  rcases safeRelPath_ok h with rfl | ⟨-, -, -, hgit⟩
  · decide
  · exact hgit

/-- `SafeRelPath` changes nothing about what it answered. -/
theorem safeRelPath_safeRelPath {input rel : Bytes} (h : safeRelPath input = .ok rel) :
    safeRelPath rel = .ok rel := by
  have hc := cleanRel_of_safeRelPath h
  have hclean := hc.clean_eq
  by_cases hd : rel = dot
  · rw [hd]
    decide
  · have hsl : rel ≠ [slash] := fun he => hc.head? (by rw [he]; rfl)
    have hup : ¬ (rel = dotdot ∨ dotdot ++ [slash] <+: rel) := by
      rintro (he | ⟨tail, ht⟩)
      · refine hc.dotdot_not_mem ?_
        rw [he]
        decide
      · refine hc.dotdot_not_mem ?_
        rw [← ht, List.append_assoc, List.singleton_append, split_slash,
          split_of_not_mem not_slash_dotdot]
        simp
    have hempty : ¬ (rel = [] ∨ rel = dot ∨ rel = [slash]) := by
      simp [hc.ne_nil, hd, hsl]
    rw [safeRelPath, if_neg hempty, if_neg hc.head?, hclean, if_neg hd, if_neg hup,
      if_neg (dotGit_not_mem h)]

theorem foldl_cleanStep_split {rel : Bytes} (h : CleanRel rel) (stack : List Bytes) :
    (split rel).foldl (cleanStep true) stack = (names rel).reverse ++ stack := by
  rcases h.cases with ⟨rfl, hn⟩ | ⟨-, hn, -, hd⟩
  · rw [hn]
    rfl
  · rw [names, if_neg hd] at hn ⊢
    exact foldl_cleanStep_names hn

/-- Joining an accepted path to any root stays inside. -/
theorem ensureInsidePath_joinPath {input rel wd : Bytes} (hwd : wd.head? = some slash)
    (root : Bytes) (h : safeRelPath input = .ok rel) :
    ensureInsidePath wd root (joinPath [root, rel]) = .ok () := by
  have hc := cleanRel_of_safeRelPath h
  rw [ensureInsidePath_eq, cleanElems_joinPath hwd root hc.ne_nil hc.head? hc.clean_eq
    (foldl_cleanStep_split hc), ensureInside, if_pos (by simp)]

end Mdock.Vault

namespace Mdock.App
open Mdock.Go Mdock.Vault Mdock.WebDAV

/-- The text behind the slug of a WebDAV path. -/
def davPath (input : Bytes) : Option Bytes :=
  match (cut slash (trimmed input)).2 with
  | none => some dot
  | some raw => if raw = [] then some dot else unescape raw

theorem clean_ne_nil (p : Bytes) : clean p ≠ [] := by
  by_cases h : p.head? = some slash
  · rw [clean, if_pos h]
    exact List.cons_ne_nil _ _
  · rw [clean_of_relative h]
    split
    · decide
    · rename_i hne
      exact join_ne_nil hne fun e he =>
        (cleanElems_normal false p).ne_nil e (by simpa using he)

/-- The key of a WebDAV path is what `path.Clean` makes of the text behind the slug. -/
theorem parsePath_davPath {input slug rel : Bytes} (h : parsePath input = .ok (slug, rel)) :
    ∃ q, davPath input = some q ∧ rel = clean q := by
  unfold parsePath at h
  unfold davPath
  split at h
  · cases h
  · split at h
    · cases h
    · split at h
      · cases h
      · cases hcut : (cut slash (trimmed input)).2 with
        | none =>
          rw [hcut] at h
          cases h
          exact ⟨dot, rfl, by decide⟩
        | some raw =>
          rw [hcut] at h
          by_cases hraw : raw = []
          · simp only [if_pos hraw] at h ⊢
            cases h
            exact ⟨dot, rfl, by decide⟩
          · simp only [if_neg hraw] at h ⊢
            cases hq : unescape raw with
            | none =>
              rw [hq] at h
              cases h
            | some q =>
              rw [hq] at h
              cases h
              exact ⟨q, rfl, if_neg (clean_ne_nil q)⟩

/-- The two sides lock one file under one key. -/
theorem key_eq {web key q r : Bytes} {allowRoot : Bool}
    (hweb : cleanFilePath web allowRoot = .ok key) (hdav : safeRelPath (clean q) = .ok r)
    (hsame : lexical q = lexical web) (hroot : lexical web ≠ some []) : clean q = key := by
  have hkey : safeRelPath web = .ok key := by
    unfold cleanFilePath at hweb
    split at hweb
    · cases hweb
    · rename_i rel hrel
      split at hweb
      · cases hweb
      · rw [hrel, Except.ok.inj hweb]
  have hloc := lexical_of_safeRelPath hkey
  rw [hloc] at hsame hroot
  have hne : names key ≠ [] := fun he => hroot (by rw [he])
  by_cases hq : q.head? = some slash
  · have hclean : clean q = slash :: join (names key) := by
      rw [clean, if_pos hq, cleanElems_of_lexical true hsame]
    have hjoin : join (names key) ≠ [] := by
      rcases (cleanRel_of_safeRelPath hkey).cases with ⟨-, hn⟩ | ⟨-, hn, -⟩
      · exact absurd hn hne
      · exact join_ne_nil hne fun e he => (hn e he).1
    have hdot : ¬ slash :: join (names key) = dot := fun he =>
      absurd (List.cons.inj he).1 (by decide)
    rw [hclean, safeRelPath, if_neg (by simp [hjoin, hdot]), if_pos (by rfl)] at hdav
    cases hdav
  · rw [clean_of_relative hq, cleanElems_of_lexical false hsame, if_neg hne]
    rcases (cleanRel_of_safeRelPath hkey).cases with ⟨-, hn⟩ | ⟨-, -, hj, -⟩
    · exact absurd hn hne
    · exact hj.symm

/-- `SafeRelPath` is a canonical form: clean, inside every root, left alone by itself, the
same for exactly the inputs that lead to the same place; and a file that both sides take a
path for is locked under the same key by both. -/
theorem safeRelPath_canonical {input rel : Bytes} (h : safeRelPath input = .ok rel) :
    (clean rel = rel ∧ rel ≠ [] ∧ rel.head? ≠ some slash ∧ dotdot ∉ split rel ∧
      dotGit ∉ split rel) ∧
    (∀ wd root, wd.head? = some slash →
      ensureInsidePath wd root (joinPath [root, rel]) = .ok ()) ∧
    safeRelPath rel = .ok rel ∧
    (∀ input' rel', safeRelPath input' = .ok rel' →
      (rel' = rel ↔ lexical input' = lexical input)) ∧
    ∀ allowRoot key dav slug davRel r, cleanFilePath input allowRoot = .ok key →
      parsePath dav = .ok (slug, davRel) → safeRelPath davRel = .ok r →
      (davPath dav).bind lexical = lexical input → lexical input ≠ some [] → davRel = key := by
  have hc := cleanRel_of_safeRelPath h
  refine ⟨⟨hc.clean_eq, hc.ne_nil, hc.head?, hc.dotdot_not_mem, dotGit_not_mem h⟩,
    fun wd root hwd => ensureInsidePath_joinPath hwd root h, safeRelPath_safeRelPath h, ?_, ?_⟩
  · intro input' rel' h'
    rw [lexical_of_safeRelPath h, lexical_of_safeRelPath h']
    constructor
    · intro he
      rw [he]
    · intro he
      exact (cleanRel_of_safeRelPath h').eq_of_names hc (Option.some.inj he)
  · intro allowRoot key dav slug davRel r hweb hdav hvault hsame hroot
    obtain ⟨q, hq, rfl⟩ := parsePath_davPath hdav
    rw [hq, Option.bind_some] at hsame
    exact key_eq hweb hvault hsame hroot

/-- Dots and repeated slashes on both sides of one note. -/
theorem safeRelPath_canonical_notes :
    safeRelPath (utf8 "notes//./x/../a.md") = .ok (utf8 "notes/a.md") ∧
      (∀ wd root, wd.head? = some slash →
        ensureInsidePath wd root (joinPath [root, utf8 "notes/a.md"]) = .ok ()) ∧
      parsePath (utf8 "/webdav/v/./notes/a.md/") = .ok (utf8 "v", utf8 "notes/a.md") := by
  have h : safeRelPath (utf8 "notes//./x/../a.md") = .ok (utf8 "notes/a.md") := by decide +kernel
  exact ⟨h, (safeRelPath_canonical h).2.1, by decide +kernel⟩

end Mdock.App
