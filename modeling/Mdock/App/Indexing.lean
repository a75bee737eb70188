import Mdock.App.LockedFiles
import Mdock.Lib.Run
import Mdock.Store.PageIndex
import Mdock.Vault.Trail

/-! The page index of a vault over runs of the operations that change files. Four of them
bring it up to date, each for the one path it is given. -/
namespace Mdock.App.Indexing
open Mdock.Go Mdock.Lib Mdock.Vault Mdock.Locks Mdock.Store

/-- The columns that are made from the text of a page. -/
structure PageMeta where
  title : Bytes
  aliases : Bytes
  tags : Bytes
  headings : Bytes
  blocks : Bytes
  deriving DecidableEq

def PageMeta.text (m : PageMeta) : PageText :=
  ⟨some m.title, some m.aliases, some m.tags, some m.headings, some m.blocks⟩

/-- `item` is the vault, `parsePage` is `ParsePage` with its lists marshalled, `contentHash`
the SHA-256 in hexadecimal. A slug is not empty and names one vault. -/
structure Config where
  service : Service
  authorityOk : Bytes → Bool
  parsePage : Bytes → PageMeta
  contentHash : Bytes → Bytes
  item : VaultRow
  plain : ∀ n ∈ service.vaultService.root, Plain n
  slug_ne : item.slug ≠ []
  slugs : ∀ userID vaultSlug other, service.vaultFor userID vaultSlug = some other →
    other.slug = item.slug → other = item

structure State where
  world : World
  index : PageIndex

/-- A call, what it reads from the clock, and the `updated_at` of the row it writes. -/
structure Act where
  now : Nat → Instant
  updatedAt : Int
  mutation : Mutation

namespace Config
variable (c : Config)

def updatePageIndex (t : Tree) (d : PageIndex) (vaultPath vaultSlug relPath : Bytes) (now : Int) :
    PageIndex :=
  match c.service.vaultService.readFile t vaultPath relPath with
  | .error _ => d
  | .ok content =>
    if utf8Valid content = false then d.deletePageIndex vaultSlug relPath
    else
      let page := c.parsePage content
      let contentHash := c.contentHash content
      let upserted := d.upsertPageIndex vaultSlug relPath page.title page.aliases page.tags
        page.headings page.blocks contentHash now
      match d.getPageIndex vaultSlug relPath with
      | .ok (some existing) => if existing.contentHash = contentHash then d else upserted
      | _ => upserted

def updatePageIndexPath (d : PageIndex) (vaultSlug oldPath newPath : Bytes) (now : Int) :
    PageIndex :=
  match d.getPageIndex vaultSlug oldPath with
  | .ok (some existing) =>
    (d.deletePageIndex vaultSlug oldPath).upsertPageIndex vaultSlug newPath existing.title
      existing.aliases existing.tags existing.headings existing.blocks existing.contentHash now
  | _ => d

/-- What a call that succeeds does to the index, in the tree that it leaves; the queue and the
`Stat` that follow in the source see none of it. -/
def maintain (t : Tree) (updatedAt : Int) (d : PageIndex) : Mutation → PageIndex
  | .writeTextFile userID vaultSlug relPath _ _ | .createTextFile userID vaultSlug relPath _ _ =>
    match c.service.fileMutationContext userID vaultSlug relPath false with
    | .ok (item, rel) => c.updatePageIndex t d item.path item.slug rel updatedAt
    | .error _ => d
  | .deletePath userID vaultSlug relPath _ =>
    match c.service.fileMutationContext userID vaultSlug relPath false with
    | .ok (item, rel) => d.deletePageIndex item.slug rel
    | .error _ => d
  | .movePath userID vaultSlug fromPath toPath _ =>
    match c.service.fileMutationContext userID vaultSlug fromPath false,
      cleanFilePath toPath false with
    | .ok (item, src), .ok dst => updatePageIndexPath d item.slug src dst updatedAt
    | _, _ => d
  | .restoreFileFromCommit .. | .put .. | .delete .. | .move .. => d

/-- A row stands for a file, with the hash and the metadata of its content. -/
def Entry (t : Tree) (p : PageRow) : Prop :=
  ∃ content, c.service.vaultService.readFile t c.item.path p.path = .ok content ∧
    p.contentHash = some (c.contentHash content) ∧ p.text = (c.parsePage content).text

/-- The index agrees with the vault. -/
def Exact (st : State) : Prop :=
  ∀ p ∈ st.index.pages.table.rows, p.vaultSlug = c.item.slug → c.Entry st.world.tree p

/-- Runs of successful calls, from a vault whose index is exact. -/
def machine : Machine State Act where
  init st := st.world.tree.Rooted ∧ c.Exact st
  step st a := (a.mutation.run c.service c.authorityOk a.now st.world).map fun w =>
    ⟨w, c.maintain w.tree a.updatedAt st.index a.mutation⟩

/-! ### When the index is kept exact -/

/-- The page a call brings up to date, by its old path. -/
def page? : Mutation → Option (Bytes × Bytes)
  | .writeTextFile userID vaultSlug relPath _ _ | .createTextFile userID vaultSlug relPath _ _
  | .deletePath userID vaultSlug relPath _ | .movePath userID vaultSlug relPath _ _ =>
    (c.service.fileMutationContext userID vaultSlug relPath false).toOption.map
      fun (item, rel) => (item.slug, rel)
  | .restoreFileFromCommit .. | .put .. | .delete .. | .move .. => none

/-- A call leaves alone what is passed on the way to the file of a page. -/
def Spares (st : State) (a : Act) (p : PageRow) : Prop :=
  ∀ f, a.mutation.footprint c.service c.authorityOk a.now st.world = some f →
    ∀ l ∈ c.service.vaultService.trail st.world.tree c.item.path p.path, ¬ f.touches l

/-- The new text of a page that has the hash of the old one has the same metadata; a page that
is moved is a file itself, and its new path leads into the vault. -/
def Tracks (t : Tree) (p : PageRow) : Mutation → Prop
  | .writeTextFile _ _ _ content _ | .createTextFile _ _ _ content _ =>
    p.contentHash = some (c.contentHash content) → p.text = (c.parsePage content).text
  | .movePath _ _ _ toPath _ => ∀ dst, cleanFilePath toPath false = .ok dst →
    c.service.vaultService.ownFile t c.item.path p.path ∧
      c.service.vaultService.Lands t c.item.path p.path dst
  | _ => True

/-- A call touches no page of the vault but the one that it brings up to date. -/
def Maintains (st : State) (a : Act) : Prop :=
  ∀ p ∈ st.index.pages.table.rows, p.vaultSlug = c.item.slug →
    if c.page? a.mutation = some p.key then c.Tracks st.world.tree p a.mutation
    else c.Spares st a p

end Config

/-! ### What the calls do to the files -/

/-- What a call that succeeds does to the tree. -/
def Effect (s : Service) (t t' : Tree) : Mutation → Prop
  | .writeTextFile userID vaultSlug relPath content _
  | .createTextFile userID vaultSlug relPath content _ =>
    ∃ item rel, s.fileMutationContext userID vaultSlug relPath false = .ok (item, rel) ∧
      s.vaultService.writeFile t item.path rel content = (.ok (), t')
  | .deletePath userID vaultSlug relPath _ =>
    ∃ item rel, s.fileMutationContext userID vaultSlug relPath false = .ok (item, rel) ∧
      s.vaultService.delete t item.path rel = (.ok (), t')
  | .movePath userID vaultSlug fromPath toPath _ =>
    ∃ item src dst, s.fileMutationContext userID vaultSlug fromPath false = .ok (item, src) ∧
      cleanFilePath toPath false = .ok dst ∧
      s.vaultService.rename t item.path src dst = (.ok (), t')
  | .restoreFileFromCommit _ _ hash _ _ =>
    ∃ vaultPath root rel u, s.vaultService.ensureVault t vaultPath = .ok (root, u) ∧
      s.checkout u root hash rel = some t'
  | .put _ target => ∃ data,
    s.vaultService.writeFile t target.vault.path target.rel data = (.ok (), t')
  | .delete _ target => s.vaultService.delete t target.vault.path target.rel = (.ok (), t')
  | .move _ target => ∃ rel u,
    (u = t ∨ s.vaultService.delete t target.vault.path rel = (.ok (), u)) ∧
      s.vaultService.rename u target.vault.path target.rel rel = (.ok (), t')

section Effects
variable {s : Service} {authorityOk : Bytes → Bool} {now : Nat → Instant} {w w' : World}

/-- The change that runs under the lock of a web operation. -/
theorem locked_change {item : VaultRow} {rel owner : Bytes}
    {f : Tree → Except Vault.Err Unit × Tree}
    (h : s.withFileMutationLock now item rel owner (liftVault f) w = (.ok (), w')) :
    f w.tree = (.ok (), w'.tree) := by
  obtain ⟨-, locks, u, hfn, hu⟩ := Service.withFileMutationLock_ok h
  have hf := liftVault_ok hfn
  rwa [← hu] at hf

theorem run_effect {m : Mutation} (h : m.run s authorityOk now w = some w') :
    Effect s w.tree w'.tree m := by
  cases m with
  | writeTextFile =>
    obtain ⟨a, h₀⟩ := Mutation.succeeded_some h
    obtain ⟨item, rel, hc, hlock⟩ := Service.writeTextFile_ok h₀
    exact ⟨item, rel, hc, locked_change hlock⟩
  | createTextFile =>
    obtain ⟨a, h₀⟩ := Mutation.succeeded_some h
    obtain ⟨item, rel, hc, hlock⟩ := Service.createTextFile_ok h₀
    exact ⟨item, rel, hc, locked_change hlock⟩
  | deletePath =>
    obtain ⟨a, h₀⟩ := Mutation.succeeded_some h
    obtain ⟨item, rel, hc, hlock⟩ := Service.deletePath_ok h₀
    exact ⟨item, rel, hc, locked_change hlock⟩
  | movePath =>
    obtain ⟨a, h₀⟩ := Mutation.succeeded_some h
    obtain ⟨item, src, dst, info, u, hc, hdst, -, hun, hlock⟩ := Service.movePath_ok h₀
    obtain ⟨htree, -⟩ := Mutation.ensureMoveUnlocked_ok hun
    exact ⟨item, src, dst, hc, hdst, htree ▸ locked_change hlock⟩
  | restoreFileFromCommit =>
    obtain ⟨⟨item, info⟩, h₀⟩ := Mutation.succeeded_some h
    obtain ⟨rel, root, w₂, -, hens, hlock⟩ := Service.restoreFileFromCommit_ok h₀
    obtain ⟨-, locks, u, hfn, hu⟩ := Service.withFileMutationLock_ok hlock
    refine ⟨item.path, root, rel, w₂.tree, (Mutation.ensureVault_ok hens).1, ?_⟩
    have hout := Mutation.restoreFile_ok hfn
    rwa [← hu] at hout
  | put r t =>
    obtain ⟨hok, rfl⟩ := Mutation.served_some h
    obtain ⟨data, u, hw, hu⟩ := WebDAV.put_ok hok
    obtain ⟨-, -, hfn, -⟩ := WebDAV.withMutationLock_none hw
    rw [hu]
    exact ⟨data, hfn⟩
  | delete r t =>
    obtain ⟨hok, rfl⟩ := Mutation.served_some h
    obtain ⟨u, hw, hu⟩ := WebDAV.delete_ok hok
    obtain ⟨-, -, hfn, -⟩ := WebDAV.withMutationLock_none hw
    rw [hu]
    exact hfn
  | move r t =>
    obtain ⟨hok, rfl⟩ := Mutation.served_some h
    obtain ⟨rel, destExists, u, v, -, hdest, hsrc, hv⟩ := WebDAV.move_ok hok
    obtain ⟨-, -, hren, -⟩ := WebDAV.withMutationLock_none hsrc
    refine ⟨rel, u.tree, ?_, by rw [hv]; exact hren⟩
    cases destExists with
    | false =>
      obtain rfl : u = ⟨w.tree, w.locks⟩ := by simpa using hdest
      exact .inl rfl
    | true =>
      obtain ⟨-, -, hdel, -⟩ := WebDAV.withMutationLock_none (by simpa using hdest)
      exact .inr hdel

/-- `git checkout` makes its files in directories. -/
def KeepsRooted (s : Service) : Prop := ∀ t root hash rel t', t.Rooted →
  s.checkout t root hash rel = some t' → t'.Rooted

theorem effect_rooted {t t' : Tree} {m : Mutation} (hgit : KeepsRooted s) (ht : t.Rooted)
    (h : Effect s t t' m) : t'.Rooted := by
  have hfst : ∀ {x : Except Vault.Err Unit × Tree} {u : Tree}, x = (.ok (), u) → x.2.Rooted →
      u.Rooted := fun hx hr => by rwa [hx] at hr
  cases m with
  | writeTextFile | createTextFile =>
    obtain ⟨item, rel, -, h⟩ := h
    exact hfst h (Vault.Service.writeFile_rooted ht _)
  | deletePath =>
    obtain ⟨item, rel, -, h⟩ := h
    exact hfst h (Vault.Service.delete_rooted ht)
  | movePath =>
    obtain ⟨item, src, dst, -, -, h⟩ := h
    exact hfst h (Vault.Service.rename_rooted ht _)
  | restoreFileFromCommit =>
    obtain ⟨vaultPath, root, rel, u, he, h⟩ := h
    exact hgit u root _ rel t' (Vault.Service.ensureVault_rooted ht he) h
  | put =>
    obtain ⟨data, h⟩ := h
    exact hfst h (Vault.Service.writeFile_rooted ht _)
  | delete => exact hfst h (Vault.Service.delete_rooted ht)
  | move =>
    obtain ⟨rel, u, hu, h⟩ := h
    refine hfst h (Vault.Service.rename_rooted ?_ _)
    rcases hu with rfl | hu
    · exact ht
    · exact hfst hu (Vault.Service.delete_rooted ht)

end Effects

/-! ### What the calls do to the rows -/

theorem eq_of_key {d : PageIndex} {p q : PageRow} (hp : p ∈ d.pages.table.rows)
    (hq : q ∈ d.pages.table.rows) (h : p.key = q.key) : p = q := by
  have hget := Keyed.get?_of_mem hp
  rw [h, Keyed.get?_of_mem hq] at hget
  exact (Option.some.inj hget).symm

section Rows
variable {c : Config} {t : Tree} {d : PageIndex} {p : PageRow} {vaultPath slug rel src dst : Bytes}
  {now : Int} (hne : p.vaultSlug ≠ [])
include hne

theorem mem_deletePageIndex (hrel : rel ≠ [])
    (hp : p ∈ (d.deletePageIndex slug rel).pages.table.rows) :
    p ∈ d.pages.table.rows ∧ p.key ≠ (slug, rel) := by
  by_cases hs : slug = []
  · subst hs
    rw [PageIndex.deletePageIndex, if_pos (.inl rfl)] at hp
    exact ⟨hp, fun hk => hne (congrArg Prod.fst hk)⟩
  · exact (PageIndex.mem_delete_pages ⟨hs, hrel⟩).mp hp

/-- A row is another page's, or that of the page: as it was where the file cannot be read or its
hash is the same, or made from the content. -/
theorem mem_updatePageIndex (hrel : rel ≠ [])
    (hp : p ∈ (c.updatePageIndex t d vaultPath slug rel now).pages.table.rows) :
    p ∈ d.pages.table.rows ∧ p.key ≠ (slug, rel) ∨ p.key = (slug, rel) ∧
      ((∃ e, c.service.vaultService.readFile t vaultPath rel = .error e) ∧
          p ∈ d.pages.table.rows ∨
        ∃ content, c.service.vaultService.readFile t vaultPath rel = .ok content ∧
          p.contentHash = some (c.contentHash content) ∧
          (p ∈ d.pages.table.rows ∨ p.text = (c.parsePage content).text)) := by
  unfold Config.updatePageIndex at hp
  by_cases hk : p.key = (slug, rel)
  · refine .inr ⟨hk, ?_⟩
    split at hp
    · rename_i e he
      exact .inl ⟨⟨e, he⟩, hp⟩
    · rename_i content hc
      refine .inr ⟨content, hc, ?_⟩
      split at hp
      · exact absurd hk (mem_deletePageIndex hne hrel hp).2
      · simp only at hp
        split at hp
        · rename_i existing hget
          split at hp
          · rename_i hhash
            obtain ⟨-, q, hq, hkq, -, hh⟩ := PageIndex.getPageIndex_some hget
            obtain rfl := eq_of_key hp hq (hk.trans hkq.symm)
            exact ⟨hhash ▸ hh, .inl hp⟩
          · rcases PageIndex.mem_upsert_pages.mp hp with rfl | ⟨-, hk'⟩
            · exact ⟨rfl, .inr rfl⟩
            · exact absurd hk hk'
        · rcases PageIndex.mem_upsert_pages.mp hp with rfl | ⟨-, hk'⟩
          · exact ⟨rfl, .inr rfl⟩
          · exact absurd hk hk'
  · refine .inl ⟨?_, hk⟩
    split at hp
    · exact hp
    · split at hp
      · exact (mem_deletePageIndex hne hrel hp).1
      · simp only at hp
        split at hp
        · split at hp
          · exact hp
          · rcases PageIndex.mem_upsert_pages.mp hp with rfl | ⟨hp, -⟩
            · exact absurd rfl hk
            · exact hp
        · rcases PageIndex.mem_upsert_pages.mp hp with rfl | ⟨hp, -⟩
          · exact absurd rfl hk
          · exact hp

/-- A row is another page's, or it could not be read, or it comes from the row of the old path. -/
theorem mem_updatePageIndexPath (hsrc : src ≠ [])
    (hp : p ∈ (Config.updatePageIndexPath d slug src dst now).pages.table.rows) :
    p ∈ d.pages.table.rows ∧ p.key ≠ (slug, src) ∨
      p ∈ d.pages.table.rows ∧ (∀ page, d.getPageIndex slug src ≠ .ok (some page)) ∨
      ∃ q ∈ d.pages.table.rows, q.key = (slug, src) ∧ p.key = (slug, dst) ∧
        p.text = q.text.coalesce ∧ p.contentHash = q.contentHash := by
  unfold Config.updatePageIndexPath at hp
  split at hp
  · rename_i existing hget
    rcases PageIndex.mem_upsert_pages.mp hp with rfl | ⟨hp, -⟩
    · obtain ⟨-, q, hq, hkq, htext, hh⟩ := PageIndex.getPageIndex_some hget
      exact .inr (.inr ⟨q, hq, hkq, rfl, htext.symm, hh.symm⟩)
    · exact .inl (mem_deletePageIndex hne hsrc hp)
  · rename_i hno
    exact .inr (.inl ⟨hp, fun page => hno page⟩)

end Rows

/-! ### The index is kept exact -/

theorem coalesce_text (m : PageMeta) : m.text.coalesce = m.text := rfl

theorem context_ne_nil {s : Service} {userID : Int} {vaultSlug relPath : Bytes} {item : VaultRow}
    {rel : Bytes} (h : s.fileMutationContext userID vaultSlug relPath false = .ok (item, rel)) :
    s.vaultFor userID vaultSlug = some item ∧ rel ≠ [] := by
  unfold Service.fileMutationContext at h
  split at h
  · cases h
  · rename_i item' hv
    unfold cleanFilePath at h
    split at h
    · cases h
    · rename_i rel' hrel
      split at h
      · cases h
      · cases h
        exact ⟨hv, (cleanRel_of_safeRelPath hrel).ne_nil⟩

section Keeping
variable {c : Config} {st : State} {a : Act} {w' : World} {t t' : Tree} {p : PageRow}

/-- A page that is spared stays exact. -/
theorem entry_spared (hr : st.world.tree.Rooted)
    (hrun : a.mutation.run c.service c.authorityOk a.now st.world = some w')
    (hspare : c.Spares st a p) (h : c.Entry st.world.tree p) : c.Entry w'.tree p := by
  obtain ⟨content, hread, hh, ht⟩ := h
  obtain ⟨f, hf, hfol⟩ := @Mutation.follows _ _ _ 0 _ _ _ hrun
  exact ⟨content, readFile_kept c.plain hr hread fun l hl y hy =>
    hfol.keeps l y hy (hspare f hf l hl), hh, ht⟩

/-- The row of a page that was written. -/
theorem entry_written {d : PageIndex} {data : Bytes} {now : Int} (hr : t.Rooted)
    (hw : c.service.vaultService.writeFile t c.item.path p.path data = (.ok (), t'))
    (hold : p ∈ d.pages.table.rows → c.Entry t p ∧
      (p.contentHash = some (c.contentHash data) → p.text = (c.parsePage data).text))
    (hslug : p.vaultSlug = c.item.slug) (hrel : p.path ≠ [])
    (hp : p ∈ (c.updatePageIndex t' d c.item.path c.item.slug p.path now).pages.table.rows) :
    c.Entry t' p := by
  have hk : p.key = (c.item.slug, p.path) := by rw [← hslug]; rfl
  rcases mem_updatePageIndex (hslug ▸ c.slug_ne) hrel hp with ⟨-, hne⟩ | ⟨-, h⟩
  · exact absurd hk hne
  rcases h with ⟨⟨e, he⟩, hp⟩ | ⟨content, hread, hh, h⟩
  · -- the page could be read before, and a write takes no page away
    obtain ⟨⟨c₀, hread, -⟩, -⟩ := hold hp
    obtain ⟨c₁, hread'⟩ := readFile_extends c.plain hr (writeFile_extends c.plain hr hw).1 hread
    rw [he] at hread'
    cases hread'
  · obtain rfl := readFile_written c.plain hr hw hread
    rcases h with hp | ht
    · exact ⟨content, hread, hh, (hold hp).2 hh⟩
    · exact ⟨content, hread, hh, ht⟩

/-- The row of a page that was moved. -/
theorem entry_moved {q : PageRow} (hr : t.Rooted)
    (hmv : c.service.vaultService.rename t c.item.path q.path p.path = (.ok (), t'))
    (hown : c.service.vaultService.ownFile t c.item.path q.path)
    (hlands : c.service.vaultService.Lands t c.item.path q.path p.path) (h : c.Entry t q)
    (htext : p.text = q.text.coalesce) (hhash : p.contentHash = q.contentHash) :
    c.Entry t' p := by
  obtain ⟨content, hread, hh, ht⟩ := h
  refine ⟨content, readFile_moved c.plain hr hmv hread hown hlands, hhash.trans hh, ?_⟩
  rw [htext, ht, coalesce_text]

section Step
variable (hr : st.world.tree.Rooted) (hexact : c.Exact st) (hg : c.Maintains st a)
  (hrun : a.mutation.run c.service c.authorityOk a.now st.world = some w')
  (hslug : p.vaultSlug = c.item.slug)
include hr hexact hg hrun hslug

theorem entry_kept (hp : p ∈ st.index.pages.table.rows) (hk : c.page? a.mutation ≠ some p.key) :
    c.Entry w'.tree p := by
  have hspare := hg p hp hslug
  rw [if_neg hk] at hspare
  exact entry_spared hr hrun hspare (hexact p hp hslug)

omit hr hexact hrun in
theorem tracks_of_maintains (hp : p ∈ st.index.pages.table.rows)
    (hk : c.page? a.mutation = some p.key) : c.Tracks st.world.tree p a.mutation := by
  have htrack := hg p hp hslug
  rwa [if_pos hk] at htrack

/-- A call that writes a page, in this vault or another. -/
theorem entry_updated {userID : Int} {vaultSlug relPath data rel : Bytes} {item : VaultRow}
    (hctx : c.service.fileMutationContext userID vaultSlug relPath false = .ok (item, rel))
    (hpage : c.page? a.mutation = some (item.slug, rel))
    (htracks : c.Tracks st.world.tree p a.mutation →
      p.contentHash = some (c.contentHash data) → p.text = (c.parsePage data).text)
    (hw : c.service.vaultService.writeFile st.world.tree item.path rel data = (.ok (), w'.tree))
    (hp : p ∈ (c.updatePageIndex w'.tree st.index item.path item.slug rel
      a.updatedAt).pages.table.rows) : c.Entry w'.tree p := by
  obtain ⟨hfor, hrel⟩ := context_ne_nil hctx
  by_cases hk : p.key = (item.slug, rel)
  · obtain ⟨hs, rfl⟩ := Prod.mk.inj hk
    obtain rfl := c.slugs _ _ _ hfor (hs.symm.trans hslug)
    refine entry_written hr hw (fun hold => ⟨hexact p hold hslug, htracks ?_⟩) hslug hrel hp
    exact tracks_of_maintains hg hslug hold (hpage.trans (congrArg some hk.symm))
  · rcases mem_updatePageIndex (hslug ▸ c.slug_ne) hrel hp with ⟨hold, -⟩ | ⟨hk', -⟩
    · refine entry_kept hr hexact hg hrun hslug hold fun he => hk ?_
      exact (Option.some.inj (hpage.symm.trans he)).symm
    · exact absurd hk' hk

/-- A row of the vault after a call that meets the condition. -/
theorem entry_step
    (hp : p ∈ (c.maintain w'.tree a.updatedAt st.index a.mutation).pages.table.rows) :
    c.Entry w'.tree p := by
  have hne : p.vaultSlug ≠ [] := hslug ▸ c.slug_ne
  have hkeep := fun hp => entry_kept hr hexact hg hrun hslug (p := p) hp
  have heffect := run_effect hrun
  obtain ⟨now, updatedAt, m⟩ := a
  cases m with
  | writeTextFile | createTextFile =>
    obtain ⟨item, rel, hctx, hw⟩ := heffect
    simp only [Config.maintain, hctx] at hp
    exact entry_updated hr hexact hg hrun hslug hctx (by simp [Config.page?, hctx, Except.toOption])
      id hw hp
  | deletePath =>
    obtain ⟨item, rel, hctx, -⟩ := heffect
    simp only [Config.maintain, hctx] at hp
    obtain ⟨hold, hk⟩ := mem_deletePageIndex hne (context_ne_nil hctx).2 hp
    refine hkeep hold fun he => hk ?_
    simpa [Config.page?, hctx, Except.toOption] using he.symm
  | movePath userID vaultSlug fromPath toPath owner =>
    obtain ⟨item, src, dst, hctx, hdst, hmv⟩ := heffect
    simp only [Config.maintain, hctx, hdst] at hp
    have hpage : c.page? (.movePath userID vaultSlug fromPath toPath owner) =
        some (item.slug, src) := by simp [Config.page?, hctx, Except.toOption]
    have hsrc := (context_ne_nil hctx).2
    rcases mem_updatePageIndexPath hne hsrc hp with ⟨hold, hk⟩ | ⟨hold, hget⟩ |
      ⟨q, hq, hkq, hkp, htext, hhash⟩
    · exact hkeep hold fun he => hk (Option.some.inj (hpage.symm.trans he)).symm
    · refine hkeep hold fun he => ?_
      -- an exact row is one that can be read
      obtain ⟨content, -, hh, ht⟩ := hexact p hold hslug
      obtain ⟨hs, hpath⟩ := Prod.mk.inj (Option.some.inj (hpage.symm.trans he))
      have hrow := PageIndex.getPageIndex_of_mem hold ⟨hne, hpath ▸ hsrc⟩ (by rw [ht]; rfl) hh
      rw [← hs, ← hpath] at hrow
      exact hget _ hrow
    · obtain ⟨hs, rfl⟩ := Prod.mk.inj hkp
      obtain ⟨hs', rfl⟩ := Prod.mk.inj hkq
      obtain rfl := c.slugs _ _ _ (context_ne_nil hctx).1 (hs.symm.trans hslug)
      obtain ⟨hown, hlands⟩ :=
        tracks_of_maintains hg hs' hq (hpage.trans (congrArg some hkq.symm)) _ hdst
      exact entry_moved hr hmv hown hlands (hexact q hq hs') htext hhash
  | restoreFileFromCommit | put | delete | move => exact hkeep hp (by simp [Config.page?])

end Step

end Keeping

/-- In every run whose calls touch no indexed page of the vault but the one they bring up to date,
the index agrees with the vault. -/
theorem index_exact (c : Config) (hgit : KeepsRooted c.service) (st : State)
    (h : c.machine.ReachVia c.Maintains st) : c.Exact st := by
  suffices hinv : st.world.tree.Rooted ∧ c.Exact st from hinv.2
  have hinit : ∀ st, c.machine.init st → st.world.tree.Rooted ∧ c.Exact st := fun _ h => h
  have hstep : ∀ st a st', st.world.tree.Rooted ∧ c.Exact st → c.Maintains st a →
      c.machine.step st a = some st' → st'.world.tree.Rooted ∧ c.Exact st' := by
    rintro st a st' ⟨hr, hexact⟩ hg hs
    obtain ⟨w', hrun, rfl⟩ := Option.map_eq_some_iff.mp hs
    exact ⟨effect_rooted hgit hr (run_effect hrun), fun p hp hslug =>
      entry_step hr hexact hg hrun hslug hp⟩
  exact h.invariant hinit hstep

/-! ### A page that is deleted over WebDAV -/

/-- The vault with two notes; a page has its text as its title and as its hash. -/
def noteIndex : Config where
  service := ⟨noteService, 30000000000, fun _ _ => some WebDAV.noteVault, fun _ _ _ _ => none, true⟩
  authorityOk _ := true
  parsePage content := ⟨content, [], [], [], []⟩
  contentHash := id
  item := WebDAV.noteVault
  plain := by decide
  slug_ne := by decide
  slugs _ _ _ h _ := (Option.some.inj h).symm

def noteStart : State := ⟨⟨notes, Keyed.empty⟩, PageIndex.empty⟩

theorem noteStart_init : noteIndex.machine.init noteStart :=
  ⟨notes_rooted, fun p hp => by cases hp⟩

def writeNote (content : String) : Act :=
  ⟨fun n => n, 0, .writeTextFile 1 (utf8 "notes") (utf8 "a.md") (utf8 content) []⟩

def deleteNote : Act := ⟨fun n => n, 0,
  .delete ⟨.delete, utf8 "/webdav/notes/a.md", [], [], [], [], none⟩
    ⟨utf8 "u", WebDAV.noteVault, utf8 "a.md"⟩⟩

/-- A page that is written twice. -/
theorem index_exact_written : ∃ st, noteIndex.machine.ReachVia noteIndex.Maintains st ∧
    (st.index.pages.table.rows.map PageRow.path = [utf8 "a.md"] ∧ noteIndex.Exact st) := by
  have hrun : (noteIndex.machine.step noteStart (writeNote "text")).any (fun st =>
      (st.index.pages.table.rows.all fun p =>
        decide (noteIndex.page? (writeNote "more").mutation = some p.key ∧
          p.contentHash ≠ some (utf8 "more"))) &&
      (noteIndex.machine.step st (writeNote "more")).any fun st =>
        decide (st.index.pages.table.rows.map PageRow.path = [utf8 "a.md"])) = true := by
    decide +kernel
  obtain ⟨st, hst, hrun⟩ := (Option.any_eq_true _ _).mp hrun
  obtain ⟨hrows, hrun⟩ := Bool.and_eq_true_iff.mp hrun
  obtain ⟨st', hst', hpaths⟩ := (Option.any_eq_true _ _).mp hrun
  have hfirst : noteIndex.Maintains noteStart (writeNote "text") := fun p hp => by cases hp
  have hsecond : noteIndex.Maintains st (writeNote "more") := fun p hp _ => by
    obtain ⟨hk, hh⟩ := of_decide_eq_true (List.all_eq_true.mp hrows p hp)
    rw [if_pos hk]
    exact fun he => absurd he hh
  have hreach := (Machine.ReachVia.init noteStart_init).step hfirst hst |>.step hsecond hst'
  exact ⟨st', hreach, of_decide_eq_true hpaths,
    index_exact noteIndex (fun _ _ _ _ _ _ h => by cases h) st' hreach⟩

/-- `DELETE` over WebDAV leaves the row of a page whose file is gone. -/
theorem deleted_page_stays : ∃ st, noteIndex.machine.Reach st ∧ ¬ noteIndex.Exact st := by
  obtain ⟨st, hreach, hrow⟩ := Machine.Reach.run_any [writeNote "text", deleteNote]
    (Machine.ReachVia.init noteStart_init)
    (p := fun st => st.index.pages.table.rows.any fun p =>
      decide (p.vaultSlug = noteIndex.item.slug) &&
        !(noteIndex.service.vaultService.readFile st.world.tree noteIndex.item.path p.path).isOk)
    (by decide +kernel)
  refine ⟨st, hreach, fun hexact => ?_⟩
  obtain ⟨p, hp, hrow⟩ := List.any_eq_true.mp hrow
  rw [Bool.and_eq_true, decide_eq_true_eq] at hrow
  obtain ⟨content, hread, -⟩ := hexact p hp hrow.1
  rw [hread] at hrow
  exact absurd hrow.2 (by simp [Except.isOk, Except.toBool])

end Mdock.App.Indexing
