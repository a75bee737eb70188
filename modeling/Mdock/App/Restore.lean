import Mdock.App.LockedFiles
import Mdock.Git.Checkout
import Mdock.Vault.Found

/-! `RestoreFileFromCommit` hands a path to git, which reads it as a pathspec: the files that
change are those the pathspec selects, and not only what is locked. -/
namespace Mdock.App.Restore
open Mdock.Go Mdock.Lib Mdock.Vault Mdock.Store Mdock.Git Mdock.Git.Checkout

variable {g : Repositories} {s : Service} {now : Nat → Instant} {userID : Int}
  {vaultSlug hash relPath owner : Bytes} {w w' : World} {item : VaultRow} {info : Info}

/-- The service with git's checkout. -/
def withGit (g : Repositories) (s : Service) : Service := { s with checkout := g.checkout }

theorem leaf_of_grown {t u : Tree} (h : t.Grown u) (l : Loc) : leaf u l = leaf t l := by
  rcases h l with he | ⟨hn, hd⟩
  · rw [leaf, he, leaf]
  · rw [leaf_of_dir hd, leaf, hn]
    rfl

theorem spared_congr {t u : Tree} {root rel : Loc} {b : Blob} (h : ∀ l, leaf u l = leaf t l) :
    Spared root rel u b ↔ Spared root rel t b := by
  constructor
  · rintro ⟨hthere, hfree⟩
    exact ⟨fun hr => h _ ▸ hthere hr, fun l hw hl => h l ▸ hfree l hw hl⟩
  · rintro ⟨hthere, hfree⟩
    exact ⟨fun hr => h _ ▸ hthere hr, fun l hw hl => h l ▸ hfree l hw hl⟩

/-- What a checkout changes, where directories may have been made before it. -/
theorem checkout_frame_iff {t u : Tree} (h : t.Grown u) (root rel : Loc) (c : Commit)
    (f : Bytes → Bool) :
    (∀ l, ¬ root ++ rel <+: l →
        leaf ((c.selected f).foldl (checkoutBlob root) u) l = leaf t l) ↔
      ∀ b ∈ c.selected f, Spared root rel t b := by
  have hleaf := leaf_of_grown h
  have hframe := frame_iff root rel u (c.flat.filter fun b => f (join b.names))
  simp only [spared_congr hleaf, hleaf] at hframe
  exact hframe

/-- What a restoration that succeeds has done to the tree. -/
theorem restoreFileFromCommit_ok
    (h : (withGit g s).restoreFileFromCommit now userID vaultSlug hash relPath owner w =
      (.ok (item, info), w')) :
    ∃ rel place u c f, cleanFilePath relPath false = .ok rel ∧
      s.vaultService.place w.tree item.path = some place ∧ w.tree.Grown u ∧
      g.commit place hash = some c ∧ Pathspec.read (g.attr place) place rel = some f ∧
      c.selected f ≠ [] ∧ w'.tree = (c.selected f).foldl (checkoutBlob place) u := by
  obtain ⟨rel, root, w₂, hcontext, hens, hlock⟩ := Service.restoreFileFromCommit_ok h
  obtain ⟨hroot, -⟩ := Mutation.ensureVault_ok hens
  obtain ⟨locks, u, hfn, hu⟩ := (Service.withFileMutationLock_ok hlock).2
  obtain ⟨place, c, f, hstat, hc, hf, hne, htree⟩ := checkout_some (Mutation.restoreFile_ok hfn)
  refine ⟨rel, place, w₂.tree, c, f, ?_, ?_, ensureVault_grown hroot, hc, hf, hne, hu.trans htree⟩
  · unfold Service.fileMutationContext at hcontext
    split at hcontext
    · cases hcontext
    · cases hrel : cleanFilePath relPath false with
      | error e =>
        rw [hrel] at hcontext
        cases hcontext
      | ok r =>
        rw [hrel] at hcontext
        exact congrArg (fun p => Except.ok p.2) (Except.ok.inj hcontext)
  · obtain ⟨hwalk, hnode⟩ := Tree.existing_eq_ok.mp hstat
    have heval := evalSymlinks_of_walk hwalk (by rw [hnode]; rfl)
    simp only [Vault.Service.place]
    rw [show s.vaultService.ensureVault w.tree item.path = .ok (root, w₂.tree) from hroot]
    simp only [heval]
    rfl

/-- A restoration changes its path alone exactly where all files of the commit that the path
selects as a pathspec either belong to it or are in the tree already, and no other file is in
the way of one of them. -/
theorem restore_frame_iff
    (h : (withGit g s).restoreFileFromCommit now userID vaultSlug hash relPath owner w =
      (.ok (item, info), w')) :
    ∃ rel place c f, cleanFilePath relPath false = .ok rel ∧
      s.vaultService.place w.tree item.path = some place ∧ g.commit place hash = some c ∧
      Pathspec.read (g.attr place) place rel = some f ∧
      ((∀ l, ¬ place ++ names rel <+: l → leaf w'.tree l = leaf w.tree l) ↔
        ∀ b ∈ c.selected f, Spared place (names rel) w.tree b) := by
  obtain ⟨rel, place, u, c, f, hrel, hplace, hgrown, hc, hf, -, htree⟩ := restoreFileFromCommit_ok h
  refine ⟨rel, place, c, f, hrel, hplace, hc, hf, ?_⟩
  rw [htree]
  exact checkout_frame_iff hgrown place (names rel) c f

/-- Two notes, the name of one of them a pattern for that of the other. -/
def bracketNotes : Tree :=
  (notes.put (note "n1.md") (.file (utf8 "new"))).put (note "n[1].md") (.file (utf8 "new"))

def bracketCommit : Commit where
  blobs := [⟨[utf8 "n1.md"], .file (utf8 "old"), by decide, by decide, by decide⟩,
    ⟨[utf8 "n[1].md"], .file (utf8 "old"), by decide, by decide, by decide⟩]
  flat := by decide

def bracketGit : Repositories := ⟨fun _ _ => some bracketCommit, fun _ _ => none⟩

def bracketService : Service :=
  ⟨noteService, 30000000000, fun _ _ => some ⟨1, utf8 "notes", utf8 "v"⟩, fun _ _ _ _ => none, true⟩

def restoreBracket : Except Err (VaultRow × Info) × World :=
  (withGit bracketGit bracketService).restoreFileFromCommit (fun _ => 0) 1 (utf8 "notes")
    (utf8 "0123abc") (utf8 "n[1].md") [] ⟨bracketNotes, Keyed.empty⟩

theorem restore_frame_iff_bracket : ∃ item info w', restoreBracket = (.ok (item, info), w') ∧
    ∃ rel place c f, cleanFilePath (utf8 "n[1].md") false = .ok rel ∧
      noteService.place bracketNotes item.path = some place ∧
      bracketGit.commit place (utf8 "0123abc") = some c ∧
      Pathspec.read (bracketGit.attr place) place rel = some f ∧
      ((∀ l, ¬ place ++ names rel <+: l → leaf w'.tree l = leaf bracketNotes l) ↔
        ∀ b ∈ c.selected f, Spared place (names rel) bracketNotes b) := by
  have hok : restoreBracket.1.isOk = true := by decide +kernel
  cases hr : restoreBracket.1 with
  | error e =>
    rw [hr] at hok
    cases hok
  | ok r =>
    have hrun : restoreBracket = (.ok (r.1, r.2), restoreBracket.2) := by rw [← hr]
    exact ⟨r.1, r.2, restoreBracket.2, hrun, restore_frame_iff hrun⟩

/-- Restoring the one note brings the other back to the commit as well. -/
theorem restores_other_note : restoreBracket.1.isOk = true ∧
    cleanFilePath (utf8 "n[1].md") false = .ok (utf8 "n[1].md") ∧
    noteService.place bracketNotes (utf8 "v") = some [utf8 "srv", utf8 "v"] ∧
    leaf bracketNotes (note "n1.md") = some (.file (utf8 "new")) ∧
    leaf restoreBracket.2.tree (note "n1.md") = some (.file (utf8 "old")) ∧
    ¬ ∀ l, ¬ [utf8 "srv", utf8 "v"] ++ names (utf8 "n[1].md") <+: l →
      leaf restoreBracket.2.tree l = leaf bracketNotes l := by
  have hold : leaf bracketNotes (note "n1.md") = some (.file (utf8 "new")) := by decide +kernel
  have hnew : leaf restoreBracket.2.tree (note "n1.md") = some (.file (utf8 "old")) := by
    decide +kernel
  refine ⟨by decide +kernel, by decide +kernel, by decide +kernel, hold, hnew, fun h => ?_⟩
  have hsame := h (note "n1.md") (by decide +kernel)
  rw [hold, hnew] at hsame
  exact absurd hsame (by decide)

/-! ### Paths without wildcards, and patterns -/

theorem clean_names_of_ok {rel : Bytes} (h : cleanFilePath relPath false = .ok rel) :
    names rel ≠ [] ∧ (∀ n ∈ names rel, IsName n) ∧ rel = join (names rel) := by
  unfold cleanFilePath at h
  split at h
  · cases h
  · rename_i r hr
    split at h
    · cases h
    · rename_i hdot
      obtain rfl := Except.ok.inj h
      rcases (cleanRel_of_safeRelPath hr).cases with ⟨hd, -⟩ | ⟨hne, hn, hj, -⟩
      · exact absurd ⟨hd, rfl⟩ hdot
      · exact ⟨hne, hn, hj⟩

/-- Without wildcards and a colon in front, all that can be in the way is a file in the place
of a directory of the path. -/
theorem restore_plain_iff (ht : w.tree.Rooted)
    (h : (withGit g s).restoreFileFromCommit now userID vaultSlug hash relPath owner w =
      (.ok (item, info), w'))
    (hplain : ∀ rel, cleanFilePath relPath false = .ok rel →
      rel.head? ≠ some Pathspec.colon ∧ ∀ c ∈ rel, Pathspec.isWild c = false) :
    ∃ rel place, cleanFilePath relPath false = .ok rel ∧
      s.vaultService.place w.tree item.path = some place ∧
      ((∀ l, ¬ place ++ names rel <+: l → leaf w'.tree l = leaf w.tree l) ↔
        ∀ p, p ≠ [] → p <+: names rel → p ≠ names rel → leaf w.tree (place ++ p) = none) := by
  obtain ⟨rel, place, u, c, f, hrel, hplace, hgrown, -, hf, hne, htree⟩ :=
    restoreFileFromCommit_ok h
  obtain ⟨hns, hn, hjoin⟩ := clean_names_of_ok hrel
  obtain ⟨hc, hwild⟩ := hplain rel hrel
  have hsel : ∀ b ∈ c.selected f, names rel <+: b.names := by
    intro b hb
    rw [hjoin] at hc hwild hf
    obtain ⟨f', hf', hiff⟩ := Pathspec.read_plain (g.attr place) place hns hn hc hwild
    obtain rfl := Option.some.inj (hf'.symm.trans hf)
    exact (hiff b.names b.ne_nil b.named).mp (List.mem_filter.mp hb).2
  refine ⟨rel, place, hrel, hplace, ?_⟩
  rw [htree]
  refine (checkout_frame_iff hgrown place (names rel) c f).trans ?_
  constructor
  · intro hall
    obtain ⟨b, hb⟩ := List.exists_mem_of_ne_nil _ hne
    exact ((spared_iff ht).mp (hall b hb)).2 (hsel b hb)
  · exact fun hall b hb => (spared_iff ht).mpr ⟨fun hno => absurd (hsel b hb) hno, fun _ => hall⟩

/-- With one star, every file of the commit of that shape is brought back. -/
theorem restore_star {pre post : Bytes}
    (h : (withGit g s).restoreFileFromCommit now userID vaultSlug hash relPath owner w =
      (.ok (item, info), w'))
    (hrel : cleanFilePath relPath false = .ok (pre ++ Pathspec.star :: post))
    (hpre : ∀ c ∈ pre, Pathspec.isWild c = false) (hpost : ∀ c ∈ post, Pathspec.isWild c = false)
    (hc : (pre ++ Pathspec.star :: post).head? ≠ some Pathspec.colon) :
    ∃ place c, s.vaultService.place w.tree item.path = some place ∧ g.commit place hash = some c ∧
      ∀ b ∈ c.blobs, ∀ x, join b.names = pre ++ (x ++ post) →
        leaf w'.tree (place ++ b.names) = some b.node := by
  obtain ⟨rel, place, u, c, f, hrel', hplace, -, hcommit, hf, -, htree⟩ :=
    restoreFileFromCommit_ok h
  obtain rfl := Except.ok.inj (hrel.symm.trans hrel')
  obtain ⟨hns, hn, hjoin⟩ := clean_names_of_ok hrel
  refine ⟨place, c, hplace, hcommit, fun b hb x hx => ?_⟩
  have hsel : f (join b.names) = true := by
    have hc' := hc
    rw [hjoin] at hc' hf
    obtain ⟨f', hf', hiff⟩ := Pathspec.read_join (g.attr place) place hns hn hc'
    obtain rfl := Option.some.inj (hf'.symm.trans hf)
    rw [hiff, ← hjoin, Pathspec.Magic.selects, (Pathspec.fnmatch_star hpre hpost).mpr ⟨x, hx⟩,
      Bool.or_true]
  rw [htree]
  exact leaf_foldl_asks (c.flat.filter fun b => f (join b.names))
    (List.mem_filter.mpr ⟨hb, hsel⟩) (.inl ⟨rfl, rfl⟩)

end Mdock.App.Restore
