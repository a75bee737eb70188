import Mathlib.Data.Finset.Card
import Mdock.Vault.Trail

/-! `filepath.Walk` over a vault: the files it shows to its visitor, each of them one that the
vault service reads. -/
namespace Mdock.Vault
open Mdock.Go Mdock.Lib

namespace Tree

/-- What `filepath.Walk` visits from the place `l ++ q` on, less the directories, as names
relative to `l`. The visitor skips the directories called `.git`; `name` is that of the place,
and `depth` bounds how far directories are nested. -/
def walkFiles (t : Tree) (l : Loc) : Nat → Bytes → List Bytes → List (List Bytes)
  | 0, _, _ => []
  | depth + 1, name, q =>
    match t.node (l ++ q) with
    | none => []
    | some .dir =>
      if name = dotGit then []
      else ((t.children (l ++ q)).insertionSort fun a b => a.1 ≤ b.1).flatMap fun e =>
        walkFiles t l depth e.1 (q ++ [e.1])
    | some _ => [q]

section Walk
variable {t : Tree} {l : Loc} {q r : List Bytes} {name data : Bytes} {depth : Nat}

/-- A file is visited unless it is nested too deep or below a `.git`. -/
theorem mem_walkFiles (ht : t.Rooted) (hf : t.node (l ++ q ++ r) = some (.file data))
    (hd : r.length < depth) (hname : name ≠ dotGit) (hgit : dotGit ∉ r) :
    q ++ r ∈ t.walkFiles l depth name q := by
  induction depth generalizing q r name with
  | zero => exact absurd hd (Nat.not_lt_zero _)
  | succ depth ih =>
    cases r with
    | nil =>
      rw [List.append_nil] at hf
      simp [walkFiles, hf]
    | cons n r =>
      obtain ⟨hn, hr⟩ := List.ne_and_not_mem_of_not_mem_cons hgit
      have hdir : t.node (l ++ q) = some .dir :=
        ht.dir_of_prefix (by rw [hf]; rfl) (List.prefix_append _ _) (by simp)
      have hnext : l ++ (q ++ [n]) ++ r = l ++ q ++ n :: r := by simp
      have hthere : (t.node (l ++ q ++ [n])).isSome := by
        by_cases he : r = []
        · rw [he] at hf
          rw [hf]
          rfl
        · have hpre : l ++ q ++ [n] <+: l ++ q ++ n :: r := ⟨r, by simp⟩
          rw [ht.dir_of_prefix (by rw [hf]; rfl) hpre (by simpa using Ne.symm he)]
          rfl
      obtain ⟨x, hx⟩ := Option.isSome_iff_exists.mp hthere
      have hchild : (n, x) ∈ (t.children (l ++ q)).insertionSort fun a b => a.1 ≤ b.1 :=
        (List.mem_insertionSort _).mpr (mem_children.mpr hx)
      simp only [walkFiles, hdir, if_neg hname, List.mem_flatMap]
      refine ⟨(n, x), hchild, ?_⟩
      have hrec : q ++ [n] ++ r ∈ t.walkFiles l depth n (q ++ [n]) :=
        ih (by rw [hnext, hf]) (Nat.lt_of_succ_lt_succ hd) (Ne.symm hn) hr
      rwa [List.append_assoc, List.singleton_append] at hrec

/-- What is visited is there. -/
theorem node_of_walkFiles (h : r ∈ t.walkFiles l depth name q) : (t.node (l ++ r)).isSome := by
  induction depth generalizing q name with
  | zero => cases h
  | succ depth ih =>
    unfold walkFiles at h
    split at h
    · cases h
    · split at h
      · cases h
      · obtain ⟨e, -, he⟩ := List.mem_flatMap.mp h
        exact ih he
    · rename_i x _ hx
      rw [List.mem_singleton.mp h, hx]
      rfl

/-- A tree is not deeper than it has entries. -/
theorem length_le_rows (ht : t.Rooted) (hl : (t.node l).isSome) : l.length ≤ t.rows.length := by
  -- the beginnings of the path are entries, and no two of them are the same
  have hinj : Set.InjOn (fun i => l.take (i + 1)) (Finset.range l.length) := by
    intro i hi j hj h
    have hlen := congrArg List.length h
    simp only [Finset.coe_range, Set.mem_Iio, List.length_take] at hi hj hlen
    omega
  have hsub : (Finset.range l.length).image (fun i => l.take (i + 1)) ⊆
      (t.rows.map entryLoc).toFinset := by
    intro p hp
    obtain ⟨i, hi, rfl⟩ := Finset.mem_image.mp hp
    have hne : l.take (i + 1) ≠ [] := fun he => by
      have hlen := congrArg List.length he
      have hi' := Finset.mem_range.mp hi
      simp only [List.length_take, List.length_nil] at hlen
      omega
    have hthere : (t.node (l.take (i + 1))).isSome := by
      by_cases he : l.take (i + 1) = l
      · rwa [he]
      · rw [ht.dir_of_prefix hl (List.take_prefix _ _) he]
        rfl
    obtain ⟨x, hx⟩ := Option.isSome_iff_exists.mp hthere
    exact List.mem_toFinset.mpr (List.mem_map.mpr ⟨_, (node_eq_some hne).mp hx, rfl⟩)
  calc l.length = ((Finset.range l.length).image fun i => l.take (i + 1)).card := by
        rw [Finset.card_image_of_injOn hinj, Finset.card_range]
    _ ≤ (t.rows.map entryLoc).toFinset.card := Finset.card_le_card hsub
    _ ≤ (t.rows.map entryLoc).length := List.toFinset_card_le _
    _ = t.rows.length := List.length_map _

end Walk
end Tree

/-! ### Reading what was visited -/

section Reading
variable {s : Service} {t : Tree} {v data : Bytes} {root l q : Loc}

theorem join_ne {q : List Bytes} {n : Bytes} (hne : q ≠ []) (hq : ∀ n ∈ q, IsName n)
    (hn : slash ∉ n) (hname : ¬ IsName n) : join q ≠ n := by
  intro he
  have hs := split_join hne fun n hn => (hq n hn).2.2.2
  rw [he, split_of_not_mem hn] at hs
  exact hname (hq n (by simp [← hs]))

/-- A path of names is let through as it is, unless it leads into `.git`. -/
theorem safeRelPath_join {q : List Bytes} (hne : q ≠ []) (hq : ∀ n ∈ q, IsName n)
    (hgit : dotGit ∉ q) : safeRelPath (join q) = .ok (join q) := by
  have hsplit := split_join hne fun n hn => (hq n hn).2.2.2
  have hnil : join q ≠ [] := join_ne_nil hne fun n hn => (hq n hn).1
  have hdot : join q ≠ dot := join_ne hne hq (by decide) (by decide)
  have hup : join q ≠ dotdot := join_ne hne hq (by decide) (by decide)
  have hhead : (join q).head? ≠ some slash :=
    head?_join hne fun e he => ⟨(hq e he).1, (hq e he).2.2.2⟩
  have hslash : join q ≠ [slash] := fun he => hhead (by rw [he]; rfl)
  have hpre : ¬ dotdot ++ [slash] <+: join q := by
    rintro ⟨rest, he⟩
    rw [← he, List.append_assoc, List.singleton_append, split_slash,
      split_of_not_mem not_slash_dotdot] at hsplit
    exact (hq dotdot (by simp [← hsplit])).2.2.1 rfl
  simp only [safeRelPath, hnil, hdot, hslash, or_self, if_false, hhead, clean_names hne hq, hup, hpre,
    hsplit, hgit]

theorem names_join {q : List Bytes} (hne : q ≠ []) (hq : ∀ n ∈ q, IsName n) :
    names (join q) = q := by
  rw [names, if_neg (join_ne hne hq (by decide) (by decide)),
    split_join hne fun n hn => (hq n hn).2.2.2]

/-- A file of the vault is read by its names. -/
theorem readFile_join (ht : t.Rooted) (hv : s.vaultRoot v = .ok root)
    (hw : t.walk true Tree.kernelLinks [] root = .ok l) (hd : t.node l = some .dir)
    (hf : t.node (l ++ q) = some (.file data)) (hq : ∀ n ∈ q, IsName n) (hgit : dotGit ∉ q) :
    s.readFile t v (join q) = .ok data := by
  have hne : q ≠ [] := by
    rintro rfl
    rw [List.append_nil, hd] at hf
    cases hf
  obtain ⟨p, n, rfl⟩ := (List.eq_nil_or_concat' q).resolve_left hne
  have hplain := plain_of_isName (hq n (by simp))
  rw [← List.append_assoc] at hf
  have hparent : t.node (l ++ p) = some .dir := ht.parent (by rw [hf]; rfl)
  have hself : Tree.Walks t true 0 [] (l ++ p) (l ++ p) := ht.walks_self hparent
  have hfile : Tree.Walks t true 0 [] (l ++ p ++ [n]) (l ++ p ++ [n]) :=
    hself.append (.down hparent hplain (fun target => by rw [hf]; simp) .done) (by simp)
  have hnames := names_join hne hq
  have hreads : s.Reads t v (join (p ++ [n])) root l (join (p ++ [n])) (l ++ p) (l ++ p ++ [n])
      data := by
    refine ⟨hv, safeRelPath_join hne hq hgit, hw, hd, ?_, hparent, List.prefix_append l p, ?_, hf,
      (List.prefix_append l p).trans (List.prefix_append _ _)⟩
    · rw [hnames, ← List.append_assoc, List.dropLast_concat]
      exact hself.walk (Nat.zero_le _)
    · rw [hnames, ← List.append_assoc]
      exact hfile.walk (Nat.zero_le _)
  exact hreads.readFile

/-- The root of a vault is no file. -/
theorem readFile_dot (hs : ∀ n ∈ s.root, Plain n) (ht : t.Rooted) :
    ∃ e, s.readFile t v dot = .error e := by
  cases hr : s.resolve t v dot with
  | error e => exact ⟨e, by rw [Service.readFile, hr]⟩
  | ok r =>
    obtain ⟨root, q, ns, hR, -⟩ := resolve_resolves hs ht hr
    obtain ⟨p, hp, hfull⟩ := resolve_full hr
    obtain rfl : dot = p := Except.ok.inj hp
    rw [names_dot, List.append_nil] at hfull
    have hst : r.tree.stat r.full = .ok (r.root, .dir) :=
      Tree.existing_eq_ok.mpr ⟨by rw [hfull]; exact hR.self, hR.dir⟩
    exact ⟨.io, by simp only [Service.readFile, hr, hst]⟩

theorem place_of_lstat (hv : s.vaultRoot v = .ok root) (hl : t.lstat root = .ok (l, .dir)) :
    t.walk true Tree.kernelLinks [] root = .ok l ∧ s.place t v = some l := by
  obtain ⟨hw, hd⟩ := Tree.existing_eq_ok.mp hl
  obtain ⟨j, hj, hW⟩ := Tree.walks_of_walk hw
  have hwalk : t.walk true Tree.kernelLinks [] root = .ok l :=
    (hW.followed fun target => by rw [hd]; simp).walk hj
  have heval : t.evalSymlinks root = .ok l := evalSymlinks_of_walk hwalk (by rw [hd]; rfl)
  have hensure : s.ensureVault t v = .ok (root, t) := by
    simp only [Service.ensureVault, hv, Tree.mkdirAll_of_dir hwalk hd]
  exact ⟨hwalk, by simp [Service.place, hensure, heval, Except.toOption]⟩

end Reading
end Mdock.Vault
