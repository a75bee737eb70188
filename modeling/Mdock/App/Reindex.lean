import Mdock.App.Indexing
import Mdock.Vault.Walk

/-! `ReindexVault`, with which the owner of a vault rebuilds its page index. -/
namespace Mdock.App.Indexing
open Mdock.Go Mdock.Lib Mdock.Vault Mdock.Store

/-- `strings.ToLower`, as far as `.md` can tell: no other rune has a lower case there. -/
def toLower (b : UInt8) : UInt8 := if 0x41 ≤ b ∧ b ≤ 0x5A then b + 0x20 else b

/-- The files `ReindexVault` processes. -/
def isMarkdown (name : Bytes) : Bool := (utf8 ".md").isSuffixOf (name.map toLower)

/-- `filepath.Rel`, from the root of the walk. -/
def relPath (q : List Bytes) : Bytes := if q = [] then dot else join q

/-- `FileInfo.Name`. -/
def baseName (l : Loc) : Bytes := l.getLast?.getD [slash]

namespace Config
variable (c : Config)

/-- One page of the walk; one that fails is reported, and the walk goes on. -/
def reindexPage (t : Tree) (now : Bytes → Int) (st : List Bytes × PageIndex) (rel : Bytes) :
    List Bytes × PageIndex :=
  match c.service.vaultService.readFile t c.item.path rel with
  | .error _ => (st.1 ++ [rel], st.2)
  | .ok _ => (st.1, c.updatePageIndex t st.2 c.item.path c.item.slug rel (now rel))

/-- The pages that failed, and the index; `now` is the clock at each page. -/
def reindexVault (t : Tree) (d : PageIndex) (now : Bytes → Int) :
    Except Vault.Err (List Bytes × PageIndex) :=
  match c.service.vaultService.vaultRoot c.item.path with
  | .error e => .error e
  | .ok root =>
    match t.lstat root with
    | .error _ => .error .io
    | .ok (l, _) =>
      let files := t.walkFiles l (t.rows.length + 1) (baseName root) []
      let pages := files.filter fun q => isMarkdown (baseName (root ++ q))
      .ok ((pages.map relPath).foldl (c.reindexPage t now) ([], d))

/-- A page: a Markdown file of the vault that is text, outside `.git`. -/
structure IsPage (t : Tree) (q : List Bytes) (content : Bytes) : Prop where
  file : ∃ l, c.service.vaultService.place t c.item.path = some l ∧
    t.node (l ++ q) = some (.file content)
  outside : dotGit ∉ q
  markdown : isMarkdown (baseName q) = true
  text : utf8Valid content = true

/-- The row of a page has the hash and the metadata of the content. -/
def HasRow (d : PageIndex) (rel content : Bytes) : Prop :=
  ∃ p ∈ d.pages.table.rows, p.key = (c.item.slug, rel) ∧
    p.contentHash = some (c.contentHash content) ∧ p.text = (c.parsePage content).text

/-- Every row of the vault names a file. -/
def Files (t : Tree) (d : PageIndex) : Prop :=
  ∀ p ∈ d.pages.table.rows, p.vaultSlug = c.item.slug →
    c.service.vaultService.isFile t c.item.path p.path = true

/-- What an index is after a rebuild: every page has its row, and every row its file. -/
def Rebuilt (t : Tree) (d : PageIndex) : Prop :=
  (∀ q content, c.IsPage t q content → c.HasRow d (join q) content) ∧ c.Files t d

/-- Each row of the vault has the hash and the metadata of some content. -/
def Parsed (d : PageIndex) : Prop :=
  ∀ p ∈ d.pages.table.rows, p.vaultSlug = c.item.slug →
    ∃ content, p.contentHash = some (c.contentHash content) ∧ p.text = (c.parsePage content).text

/-! ### When an index is rebuilt -/

/-- The walk goes into the vault: its root is a directory, no link to one, and not `.git`. -/
def Entered (t : Tree) : Prop :=
  ∃ root l, c.service.vaultService.vaultRoot c.item.path = .ok root ∧
    t.lstat root = .ok (l, .dir) ∧ baseName root ≠ dotGit

/-- No row is left over, and a page either has its row or is found by the walk, with no row that
has the hash of its content. -/
def Rebuildable (t : Tree) (d : PageIndex) : Prop :=
  (∀ q content, c.IsPage t q content → c.HasRow d (join q) content ∨ c.Entered t ∧
    ∀ p ∈ d.pages.table.rows, p.key = (c.item.slug, join q) →
      p.contentHash ≠ some (c.contentHash content)) ∧
  c.Files t d

end Config

section Page
variable {c : Config} {t : Tree} {d : PageIndex} {p : PageRow} {rel content : Bytes} {now : Int}

/-- The row of another page is left alone. -/
theorem mem_update_other (hslug : p.vaultSlug = c.item.slug) (hrel : rel ≠ [])
    (hk : p.key ≠ (c.item.slug, rel)) :
    p ∈ (c.updatePageIndex t d c.item.path c.item.slug rel now).pages.table.rows ↔
      p ∈ d.pages.table.rows := by
  constructor
  · intro hp
    rcases mem_updatePageIndex (hslug ▸ c.slug_ne) hrel hp with ⟨hp, -⟩ | ⟨hk', -⟩
    · exact hp
    · exact absurd hk' hk
  · intro hp
    unfold Config.updatePageIndex
    split
    · exact hp
    · split
      · exact (PageIndex.mem_delete_pages ⟨c.slug_ne, hrel⟩).mpr ⟨hp, hk⟩
      · simp only
        split
        · split
          · exact hp
          · exact PageIndex.mem_upsert_pages.mpr (.inr ⟨hp, hk⟩)
        · exact PageIndex.mem_upsert_pages.mpr (.inr ⟨hp, hk⟩)

section Self
variable (hread : c.service.vaultService.readFile t c.item.path rel = .ok content)
  (hvalid : utf8Valid content = true)
include hread hvalid

/-- A row with the hash of the content is not written again. -/
theorem update_same (hrel : rel ≠ []) (hp : p ∈ d.pages.table.rows)
    (hk : p.key = (c.item.slug, rel)) (hh : p.contentHash = some (c.contentHash content))
    (ht : p.text.title.isSome) :
    c.updatePageIndex t d c.item.path c.item.slug rel now = d := by
  obtain ⟨hs, rfl⟩ := Prod.mk.inj hk
  obtain ⟨title, ht⟩ := Option.isSome_iff_exists.mp ht
  have hget := PageIndex.getPageIndex_of_mem hp ⟨hs ▸ c.slug_ne, hrel⟩ ht hh
  rw [hs] at hget
  simp only [Config.updatePageIndex, hread, hvalid, hget, Bool.true_eq_false, if_false, if_true]

/-- Without a row that has the hash, the page gets its row. -/
theorem hasRow_update (hno : ∀ p ∈ d.pages.table.rows, p.key = (c.item.slug, rel) →
      p.contentHash ≠ some (c.contentHash content)) :
    c.HasRow (c.updatePageIndex t d c.item.path c.item.slug rel now) rel content := by
  simp only [Config.updatePageIndex, hread, hvalid, Bool.true_eq_false, if_false]
  split
  · rename_i existing hget
    obtain ⟨-, q, hq, hk, -, hh⟩ := PageIndex.getPageIndex_some hget
    have hne : existing.contentHash ≠ c.contentHash content := fun he => hno q hq hk (he ▸ hh)
    rw [if_neg hne]
    exact ⟨_, PageIndex.mem_upsert_pages.mpr (.inl rfl), rfl, rfl, rfl⟩
  · exact ⟨_, PageIndex.mem_upsert_pages.mpr (.inl rfl), rfl, rfl, rfl⟩

end Self

theorem readable_update (hrel : rel ≠ []) (hslug : p.vaultSlug = c.item.slug)
    (hp : p ∈ (c.updatePageIndex t d c.item.path c.item.slug rel now).pages.table.rows) :
    p ∈ d.pages.table.rows ∨
      ∃ content, c.service.vaultService.readFile t c.item.path p.path = .ok content := by
  rcases mem_updatePageIndex (hslug ▸ c.slug_ne) hrel hp with ⟨hp, -⟩ | ⟨hk, h⟩
  · exact .inl hp
  · rcases h with ⟨-, hp⟩ | ⟨content, hread, -⟩
    · exact .inl hp
    · obtain ⟨-, rfl⟩ := Prod.mk.inj hk
      exact .inr ⟨content, hread⟩

/-- The row of a page that cannot be read is left alone. -/
theorem unreadable_update {e : Vault.Err} (hrel : rel ≠ []) (hslug : p.vaultSlug = c.item.slug)
    (hread : c.service.vaultService.readFile t c.item.path p.path = .error e)
    (hp : p ∈ d.pages.table.rows) :
    p ∈ (c.updatePageIndex t d c.item.path c.item.slug rel now).pages.table.rows := by
  by_cases hk : p.key = (c.item.slug, rel)
  · obtain ⟨-, rfl⟩ := Prod.mk.inj hk
    simp only [Config.updatePageIndex, hread, hp]
  · exact (mem_update_other hslug hrel hk).mpr hp

end Page

/-! ### A whole rebuild -/

section Rebuild
variable {c : Config} {t : Tree} {d d' : PageIndex} {now : Bytes → Int} {rels : List Bytes}
  {st : List Bytes × PageIndex}

theorem reindexPage_snd (rel : Bytes) : (c.reindexPage t now st rel).2 =
    c.updatePageIndex t st.2 c.item.path c.item.slug rel (now rel) := by
  unfold Config.reindexPage
  cases h : c.service.vaultService.readFile t c.item.path rel with
  | error e => simp only [Config.updatePageIndex, h]
  | ok content => rfl

/-- What every update keeps is kept by the whole rebuild. -/
theorem reindexed {P : PageIndex → Prop} (hrels : ∀ rel ∈ rels, rel ≠ [])
    (hstep : ∀ d rel now, rel ≠ [] → P d →
      P (c.updatePageIndex t d c.item.path c.item.slug rel now)) (h : P st.2) :
    P (rels.foldl (c.reindexPage t now) st).2 := by
  induction rels generalizing st with
  | nil => exact h
  | cons rel rels ih =>
    refine ih (fun rel hr => hrels rel (List.mem_cons_of_mem _ hr)) ?_
    rw [reindexPage_snd]
    exact hstep _ _ _ (hrels rel List.mem_cons_self) h

section Row
variable {rel content : Bytes}
  (hread : c.service.vaultService.readFile t c.item.path rel = .ok content)
  (hvalid : utf8Valid content = true) (hrel : rel ≠ [])
include hread hvalid hrel

/-- A row with the hash of the content is there after an update as well. -/
theorem keep_update {p : PageRow} (hk : p.key = (c.item.slug, rel))
    (hh : p.contentHash = some (c.contentHash content)) (ht : p.text.title.isSome)
    {rel' : Bytes} {now : Int} (hrel' : rel' ≠ []) (hp : p ∈ d.pages.table.rows) :
    p ∈ (c.updatePageIndex t d c.item.path c.item.slug rel' now).pages.table.rows := by
  by_cases he : rel = rel'
  · subst he
    rwa [update_same hread hvalid hrel hp hk hh ht]
  · refine (mem_update_other (Prod.mk.inj hk).1 hrel' fun hk' => he ?_).mpr hp
    exact (Prod.mk.inj (hk.symm.trans hk')).2

theorem hasRow_kept {rel' : Bytes} {now : Int} (hrel' : rel' ≠ []) (h : c.HasRow d rel content) :
    c.HasRow (c.updatePageIndex t d c.item.path c.item.slug rel' now) rel content := by
  obtain ⟨p, hp, hk, hh, ht⟩ := h
  exact ⟨p, keep_update hread hvalid hrel hk hh (by rw [ht]; rfl) hrel' hp, hk, hh, ht⟩

/-- A page the walk shows has its row in the end, unless one has its hash from before. -/
theorem hasRow_reindexed (hrels : ∀ rel ∈ rels, rel ≠ []) (hmem : rel ∈ rels)
    (hno : ∀ p ∈ st.2.pages.table.rows, p.key = (c.item.slug, rel) →
      p.contentHash ≠ some (c.contentHash content)) :
    c.HasRow (rels.foldl (c.reindexPage t now) st).2 rel content := by
  induction rels generalizing st with
  | nil => cases hmem
  | cons r rels ih =>
    have hr : r ≠ [] := hrels r List.mem_cons_self
    have hrels' : ∀ rel ∈ rels, rel ≠ [] := fun rel h => hrels rel (List.mem_cons_of_mem _ h)
    by_cases he : rel = r
    · subst he
      rw [List.foldl_cons]
      refine reindexed (P := fun d => c.HasRow d rel content) hrels'
        (fun d rel' now hr' h => hasRow_kept hread hvalid hrel hr' h) ?_
      rw [reindexPage_snd]
      exact hasRow_update hread hvalid hno
    · refine ih hrels' ((List.mem_cons.mp hmem).resolve_left he) fun p hp hk => ?_
      rw [reindexPage_snd] at hp
      have hk' : p.key ≠ (c.item.slug, r) := fun h => he (Prod.mk.inj (hk.symm.trans h)).2
      exact hno p ((mem_update_other (Prod.mk.inj hk).1 hr hk').mp hp) hk

end Row

/-- No update makes a row without a file, or takes one away. -/
theorem files_reindexed (hrels : ∀ rel ∈ rels, rel ≠ []) :
    c.Files t (rels.foldl (c.reindexPage t now) st).2 ↔ c.Files t st.2 := by
  constructor
  · intro h p hp hslug
    cases hread : c.service.vaultService.readFile t c.item.path p.path with
    | ok content => exact isFile_of_readFile hread
    | error e =>
      refine h p ?_ hslug
      exact reindexed (P := fun d => p ∈ d.pages.table.rows) hrels
        (fun d rel now hr hp => unreadable_update hr hslug hread hp) hp
  · refine reindexed hrels fun d rel now hr h p hp hslug => ?_
    rcases readable_update hr hslug hp with hp | ⟨content, hread⟩
    · exact h p hp hslug
    · exact isFile_of_readFile hread

/-! ### The walk -/

theorem relPath_ne_nil {q : List Bytes} (hq : ∀ n ∈ q, n ≠ []) : relPath q ≠ [] := by
  unfold relPath
  split
  · decide
  · rename_i hne
    exact join_ne_nil hne hq

/-- The paths a rebuild goes through. -/
def visited (t : Tree) (root l : Loc) : List Bytes :=
  ((t.walkFiles l (t.rows.length + 1) (baseName root) []).filter fun q =>
    isMarkdown (baseName (root ++ q))).map relPath

theorem visited_ne_nil (ht : t.Rooted) {root l : Loc} : ∀ rel ∈ visited t root l, rel ≠ [] := by
  intro rel hrel
  obtain ⟨q, hq, rfl⟩ := List.mem_map.mp hrel
  have hthere := Tree.node_of_walkFiles (List.mem_filter.mp hq).1
  exact relPath_ne_nil fun n hn => (ht.plain_of_mem hthere (List.mem_append_right l hn)).1

theorem reindexVault_ok {failed : List Bytes} (h : c.reindexVault t d now = .ok (failed, d')) :
    ∃ root l x, c.service.vaultService.vaultRoot c.item.path = .ok root ∧
      t.lstat root = .ok (l, x) ∧
      d' = ((visited t root l).foldl (c.reindexPage t now) ([], d)).2 := by
  unfold Config.reindexVault at h
  split at h
  · cases h
  · rename_i root hv
    split at h
    · cases h
    · rename_i l x hl
      exact ⟨root, l, x, hv, hl, (congrArg Prod.snd (Except.ok.inj h)).symm⟩

/-- Where the walk does not go into the vault, the index stays as it is. -/
theorem reindexed_of_not_entered {root l : Loc} {x : Node} (ht : t.Rooted)
    (hv : c.service.vaultService.vaultRoot c.item.path = .ok root)
    (hl : t.lstat root = .ok (l, x)) (hno : ¬ c.Entered t) :
    ((visited t root l).foldl (c.reindexPage t now) ([], d)).2 = d := by
  obtain ⟨-, hx⟩ := Tree.existing_eq_ok.mp hl
  obtain ⟨e, hdot⟩ := readFile_dot (v := c.item.path) c.plain ht
  have hself : ∀ st, (c.reindexPage t now st dot).2 = st.2 := fun st => by
    simp only [Config.reindexPage, hdot]
  cases x with
  | dir =>
    have hgit : baseName root = dotGit := by
      by_contra hne
      exact hno ⟨root, l, hv, hl, hne⟩
    simp [visited, Tree.walkFiles, hx, hgit]
  | file | link =>
    by_cases hm : isMarkdown (baseName root) = true
    · simp [visited, Tree.walkFiles, hx, hm, relPath, hself]
    · simp [visited, Tree.walkFiles, hx, hm]

end Rebuild

section Main
variable {c : Config} {t : Tree} {d d' : PageIndex} {now : Bytes → Int} {q : List Bytes}
  {content : Bytes}

/-- A page is shown by the walk, and read by its path. -/
theorem page_visited {root l : Loc} (ht : t.Rooted) (hslash : ∀ e ∈ t.rows, ∀ n ∈ e.1, slash ∉ n)
    (hv : c.service.vaultService.vaultRoot c.item.path = .ok root)
    (hl : t.lstat root = .ok (l, .dir)) (hgit : baseName root ≠ dotGit)
    (hpage : c.IsPage t q content) : join q ∈ visited t root l ∧ join q ≠ [] ∧
      c.service.vaultService.readFile t c.item.path (join q) = .ok content := by
  obtain ⟨⟨l', hplace, hf⟩, hout, hmd, -⟩ := hpage
  obtain ⟨hw, hplace'⟩ := place_of_lstat hv hl
  obtain rfl : l' = l := Option.some.inj (hplace.symm.trans hplace')
  have hd := (Tree.existing_eq_ok.mp hl).2
  have hne : q ≠ [] := by
    rintro rfl
    rw [List.append_nil, hd] at hf
    cases hf
  have hthere : (t.node (l' ++ q)).isSome := by rw [hf]; rfl
  have hnames : ∀ n ∈ q, IsName n := fun n hn => by
    obtain ⟨h₁, h₂, h₃⟩ := ht.plain_of_mem hthere (List.mem_append_right l' hn)
    have hrow := (Tree.node_eq_some (by simp [hne])).mp hf
    exact ⟨h₁, h₂, h₃, hslash _ hrow n (List.mem_append_right l' hn)⟩
  have hdepth : q.length < t.rows.length + 1 := by
    have hlen := Tree.length_le_rows ht hthere
    rw [List.length_append] at hlen
    omega
  have hwalk := Tree.mem_walkFiles (q := []) ht (by simpa using hf) hdepth hgit hout
  have hname : baseName (root ++ q) = baseName q := by
    rw [baseName, baseName, List.getLast?_append_of_ne_nil _ hne]
  refine ⟨List.mem_map.mpr ⟨q, List.mem_filter.mpr ⟨hwalk, hname ▸ hmd⟩, if_neg hne⟩,
    join_ne_nil hne fun n hn => (hnames n hn).1, readFile_join ht hv hw hd hf hnames hout⟩

/-- A page has its row in the end if it had it before, or if it is shown and no row has the hash
of its content. -/
theorem hasRow_iff {root l : Loc} {x : Node} (ht : t.Rooted)
    (hslash : ∀ e ∈ t.rows, ∀ n ∈ e.1, slash ∉ n) (hprior : c.Parsed d)
    (hv : c.service.vaultService.vaultRoot c.item.path = .ok root) (hl : t.lstat root = .ok (l, x))
    (hpage : c.IsPage t q content) :
    c.HasRow ((visited t root l).foldl (c.reindexPage t now) ([], d)).2 (join q) content ↔
      c.HasRow d (join q) content ∨ c.Entered t ∧ ∀ p ∈ d.pages.table.rows,
        p.key = (c.item.slug, join q) → p.contentHash ≠ some (c.contentHash content) := by
  by_cases hent : c.Entered t
  · obtain ⟨root', l', hv', hl', hgit⟩ := hent
    obtain rfl : root = root' := Except.ok.inj (hv.symm.trans hv')
    obtain ⟨rfl, rfl⟩ := Prod.mk.inj (Except.ok.inj (hl.symm.trans hl'))
    obtain ⟨hmem, hrel, hread⟩ := page_visited ht hslash hv hl hgit hpage
    have hrels : ∀ rel ∈ visited t root l, rel ≠ [] := visited_ne_nil ht
    constructor
    · intro hrow
      by_contra hno
      rw [not_or, not_and] at hno
      obtain ⟨hno, hstale⟩ := hno
      have hstale := hstale ⟨root, l, hv, hl, hgit⟩
      push Not at hstale
      obtain ⟨p, hp, hk, hh⟩ := hstale
      obtain ⟨content', -, htext⟩ := hprior p hp (Prod.mk.inj hk).1
      -- the old row stays, as it has the hash, and there is no other
      have hp' : p ∈ ((visited t root l).foldl (c.reindexPage t now) ([], d)).2.pages.table.rows :=
        reindexed (P := fun d => p ∈ d.pages.table.rows) hrels
          (fun d rel' now hr hp => keep_update hread hpage.text hrel hk hh
            (by rw [htext]; rfl) hr hp) hp
      obtain ⟨p', hq, hk', -, ht'⟩ := hrow
      obtain rfl := eq_of_key hp' hq (hk.trans hk'.symm)
      exact hno ⟨p, hp, hk, hh, ht'⟩
    · rintro (hrow | ⟨-, hno⟩)
      · exact reindexed (P := fun d => c.HasRow d (join q) content) hrels
          (fun d rel' now hr h => hasRow_kept hread hpage.text hrel hr h) hrow
      · exact hasRow_reindexed hread hpage.text hrel hrels hmem hno
  · rw [reindexed_of_not_entered ht hv hl hent]
    simp [hent]

/-- A rebuild that no page fails leaves the index as it should be just where no row of the vault
was left over, and no page was beyond it. -/
theorem reindexVault_rebuilds_iff (ht : t.Rooted) (hslash : ∀ e ∈ t.rows, ∀ n ∈ e.1, slash ∉ n)
    (hprior : c.Parsed d) (h : c.reindexVault t d now = .ok ([], d')) :
    c.Rebuilt t d' ↔ c.Rebuildable t d := by
  obtain ⟨root, l, x, hv, hl, rfl⟩ := reindexVault_ok h
  refine and_congr ?_ (files_reindexed (visited_ne_nil ht))
  exact forall₃_congr fun q content hpage => hasRow_iff ht hslash hprior hv hl hpage

end Main

/-! ### A page that was deleted -/

theorem notes_slashless : ∀ e ∈ notes.rows, ∀ n ∈ e.1, slash ∉ n := by decide +kernel

theorem notes_entered : noteIndex.Entered notes :=
  ⟨[utf8 "srv", utf8 "v"], [utf8 "srv", utf8 "v"], by decide +kernel, by decide +kernel, by decide⟩

/-- A rebuild that is evaluated, to an index with some decidable feature. -/
theorem reindexed_any {x : Except Vault.Err (List Bytes × PageIndex)} {p : PageIndex → Bool}
    (h : x.toOption.any (fun r => decide (r.1 = []) && p r.2) = true) :
    ∃ d', x = .ok ([], d') ∧ p d' = true := by
  cases x with
  | error e => cases h
  | ok r =>
    obtain ⟨failed, d'⟩ := r
    obtain ⟨hf, hp⟩ := Bool.and_eq_true_iff.mp h
    obtain rfl : failed = [] := of_decide_eq_true hf
    exact ⟨d', rfl, hp⟩

/-- A vault that has no rows yet. -/
theorem reindexVault_rebuilds_notes : ∃ d',
    noteIndex.reindexVault notes PageIndex.empty (fun _ => 0) = .ok ([], d') ∧
      noteIndex.Rebuilt notes d' := by
  obtain ⟨d', h, -⟩ := reindexed_any (p := fun _ => true)
    (show (noteIndex.reindexVault notes PageIndex.empty fun _ => 0).toOption.any _ = true by
      decide +kernel)
  refine ⟨d', h, (reindexVault_rebuilds_iff notes_rooted notes_slashless
    (fun p hp => by cases hp) h).mpr ⟨fun q content _ => ?_, fun p hp => by cases hp⟩⟩
  exact .inr ⟨notes_entered, fun p hp => by cases hp⟩

/-- An index with the row of a page that is gone. -/
def staleIndex : PageIndex :=
  PageIndex.empty.upsertPageIndex WebDAV.noteVault.slug (utf8 "gone.md") (utf8 "text") [] [] [] []
    (utf8 "text") 0

theorem stale_row_stays : noteIndex.Parsed staleIndex ∧
    ∃ d', noteIndex.reindexVault notes staleIndex (fun _ => 0) = .ok ([], d') ∧
      ¬ noteIndex.Rebuilt notes d' := by
  have hparsed : noteIndex.Parsed staleIndex := fun p hp _ => by
    rcases PageIndex.mem_upsert_pages.mp hp with rfl | ⟨hp, -⟩
    · exact ⟨utf8 "text", rfl, rfl⟩
    · cases hp
  obtain ⟨d', h, hrow⟩ := reindexed_any
    (p := fun d => d.pages.table.rows.any fun p =>
      decide (p.vaultSlug = noteIndex.item.slug) &&
        !noteIndex.service.vaultService.isFile notes noteIndex.item.path p.path)
    (show (noteIndex.reindexVault notes staleIndex fun _ => 0).toOption.any _ = true by
      decide +kernel)
  refine ⟨hparsed, d', h, fun hrebuilt => ?_⟩
  obtain ⟨p, hp, hrow⟩ := List.any_eq_true.mp hrow
  rw [Bool.and_eq_true, decide_eq_true_eq, Bool.not_eq_true'] at hrow
  rw [hrebuilt.2 p hp hrow.1] at hrow
  exact absurd hrow.2 (by decide)

end Mdock.App.Indexing
