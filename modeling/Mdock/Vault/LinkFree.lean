import Mdock.Lib.Folders
import Mdock.Vault.FileTree

/-! Trees without symbolic links. A path leads to the place it names, unless a file or a
missing directory is in the way. -/
namespace Mdock.Vault
open Mdock.Go Mdock.Lib

namespace Tree
section Walking
variable {t u : Tree} {follow : Bool} {k : Nat} {cur m p path : Loc} {n : Bytes}

def LinkFree (t : Tree) : Prop := ∀ l target, t.node l ≠ some (.link target)

/-- A directory is there, or can be made there. -/
def Passable (t : Tree) (l : Loc) : Prop := t.node l = none ∨ t.node l = some .dir

/-- No file stands on the way to a path. -/
def Clear (t : Tree) (path : Loc) : Prop := ∀ p, p <+: path → p ≠ path → t.Passable p

theorem LinkFree.file_of_not_passable (hl : t.LinkFree) (h : ¬ t.Passable path) :
    ∃ data, t.node path = some (.file data) := by
  obtain ⟨hnone, hdir⟩ := not_or.mp h
  obtain ⟨x, hx⟩ := Option.ne_none_iff_exists'.mp hnone
  cases x with
  | file data => exact ⟨data, hx⟩
  | dir => exact absurd hx hdir
  | link target => exact absurd hx (hl path target)

/-- The names that lead through directories are walked one by one. -/
theorem walk_through (hl : t.LinkFree) (hp : ∀ a ∈ p, Plain a)
    (hd : ∀ p', p' <+: p → p' ≠ p → t.node (cur ++ p') = some .dir) (ns : List Bytes) :
    t.walk follow k cur (p ++ n :: ns) = t.walk follow k (cur ++ p) (n :: ns) := by
  induction p generalizing cur with
  | nil => simp
  | cons a p ih =>
    have hcur : t.node cur = some .dir := by simpa using hd [] List.nil_prefix (by simp)
    obtain ⟨ha, hdot, hup⟩ := hp a (by simp)
    have hstep : t.walk follow k cur (a :: (p ++ n :: ns)) =
        t.walk follow k (cur ++ [a]) (p ++ n :: ns) := by
      simp only [walk_cons, hcur, ha, hdot, hup, or_self, if_false]
      split
      · rename_i target hx
        exact absurd hx (hl _ target)
      · rfl
    have hrest : t.walk follow k (cur ++ [a]) (p ++ n :: ns) =
        t.walk follow k (cur ++ [a] ++ p) (n :: ns) := by
      refine ih (fun b hb => hp b (by simp [hb])) fun p' hp' hne => ?_
      simpa using hd (a :: p') ((List.prefix_cons_inj a).mpr hp') (by simpa using hne)
    simpa [hstep] using hrest

theorem walk_last (hl : t.LinkFree) (hn : Plain n) (hd : t.node cur = some .dir) :
    t.walk follow k cur [n] = .ok (cur ++ [n]) := by
  simp only [walk_cons, hd, hn.1, hn.2.1, hn.2.2, or_self, if_false, walk_nil]
  split
  · rename_i target hx
    exact absurd hx (hl _ target)
  · rfl

theorem dirs_above (ht : t.Rooted) (hd : (t.node path).isSome) :
    ∀ p, p <+: path → p ≠ path → t.node ([] ++ p) = some .dir :=
  fun _ hp hne => ht.dir_of_prefix hd hp hne

theorem walk_below (ht : t.Rooted) (hl : t.LinkFree) (hp : ∀ a ∈ m ++ [n], Plain a)
    (hd : t.node m = some .dir) : t.walk follow k [] (m ++ [n]) = .ok (m ++ [n]) := by
  rw [walk_through hl (fun a ha => hp a (by simp [ha])) (dirs_above ht (by rw [hd]; rfl))]
  exact walk_last hl (hp n (by simp)) hd

theorem walk_of_isSome (ht : t.Rooted) (hl : t.LinkFree) (hp : ∀ a ∈ path, Plain a)
    (hs : (t.node path).isSome) : t.walk follow k [] path = .ok path := by
  rcases List.eq_nil_or_concat' path with rfl | ⟨m, n, rfl⟩
  · exact walk_nil t follow k []
  · exact walk_below ht hl hp (ht.parent hs)

/-- Where a walk stops: at the first place that is no directory. -/
theorem exists_stop (ht : t.Rooted) (hm : t.node m ≠ some .dir) : ∃ p, p <+: m ∧
    t.node p ≠ some .dir ∧ ∀ p', p' <+: p → p' ≠ p → t.node ([] ++ p') = some .dir := by
  induction m using List.reverseRecOn with
  | nil => exact absurd rfl hm
  | append_singleton m n ih =>
    by_cases hd : t.node m = some .dir
    · refine ⟨m ++ [n], List.prefix_rfl, hm, fun p' hp' hne => ?_⟩
      rcases List.prefix_concat_iff.mp hp' with rfl | hp'
      · exact absurd rfl hne
      · by_cases he : p' = m
        · exact he ▸ hd
        · exact dirs_above ht (by rw [hd]; rfl) p' hp' he
    · obtain ⟨p, hp, h⟩ := ih hd
      exact ⟨p, hp.trans (List.prefix_append m [n]), h⟩

theorem walk_stopped (hl : t.LinkFree) (hp : ∀ a ∈ path, Plain a) (hpp : p <+: path)
    (hne : p ≠ path) (hd : ∀ p', p' <+: p → p' ≠ p → t.node ([] ++ p') = some .dir) :
    ∃ a ns, t.walk follow k [] path = t.walk follow k p (a :: ns) := by
  obtain ⟨q, rfl⟩ := hpp
  cases q with
  | nil => simp at hne
  | cons a ns => exact ⟨a, ns, walk_through hl (fun b hb => hp b (by simp [hb])) hd ns⟩

theorem walk_missing (ht : t.Rooted) (hl : t.LinkFree) (hp : ∀ a ∈ m ++ [n], Plain a)
    (hc : t.Clear (m ++ [n])) (hm : t.node m = none) :
    t.walk follow k [] (m ++ [n]) = .error .notExist := by
  obtain ⟨p, hpm, hpd, hd⟩ := exists_stop ht (by rw [hm]; simp)
  have hlen := hpm.length_le
  have hne : p ≠ m ++ [n] := by
    rintro rfl
    rw [List.length_append, List.length_singleton] at hlen
    omega
  have hpp := hpm.trans (List.prefix_append m [n])
  obtain ⟨a, ns, hw⟩ : ∃ a ns, t.walk follow k [] (m ++ [n]) = t.walk follow k p (a :: ns) :=
    walk_stopped hl hp hpp hne hd
  rcases hc p hpp hne with hnone | hdir
  · rw [hw, walk_cons, hnone]
  · exact absurd hdir hpd

theorem walk_blocked (ht : t.Rooted) (hl : t.LinkFree) (hp : ∀ a ∈ path, Plain a)
    (hc : ¬ t.Clear path) : t.walk follow k [] path = .error .notDir := by
  simp only [Clear, not_forall] at hc
  obtain ⟨p, hpp, hne, hx⟩ := hc
  obtain ⟨data, hf⟩ := hl.file_of_not_passable hx
  obtain ⟨a, ns, hw⟩ : ∃ a ns, t.walk follow k [] path = t.walk follow k p (a :: ns) :=
    walk_stopped hl hp hpp hne (dirs_above ht (by rw [hf]; rfl))
  rw [hw, walk_cons, hf]

theorem existing_of_some (ht : t.Rooted) (hl : t.LinkFree) (hp : ∀ a ∈ path, Plain a) {x : Node}
    (hx : t.node path = some x) : t.existing follow k path = .ok (path, x) :=
  existing_eq_ok.mpr ⟨walk_of_isSome ht hl hp (by rw [hx]; rfl), hx⟩

theorem existing_of_none (ht : t.Rooted) (hl : t.LinkFree) (hp : ∀ a ∈ path, Plain a)
    (hc : t.Clear path) (hx : t.node path = none) :
    t.existing follow k path = .error .notExist := by
  rcases List.eq_nil_or_concat' path with rfl | ⟨m, n, rfl⟩
  · cases hx
  · rcases hc m (List.prefix_append m [n]) (by simp) with hm | hm
    · rw [existing, walk_missing ht hl hp hc hm]
    · rw [existing, walk_below ht hl hp hm]
      simp only [hx]

theorem existing_blocked (ht : t.Rooted) (hl : t.LinkFree) (hp : ∀ a ∈ path, Plain a)
    (hc : ¬ t.Clear path) : t.existing follow k path = .error .notDir := by
  rw [existing, walk_blocked ht hl hp hc]

end Walking

/-! ### The calls of `os` -/

section Calls
variable {t u : Tree} {src dst m path : Loc} {n : Bytes} {x : Node}

theorem LinkFree.of_nodes (hl : t.LinkFree)
    (h : ∀ l, u.node l = t.node l ∨ ∀ target, u.node l ≠ some (.link target)) : u.LinkFree := by
  intro l target hx
  rcases h l with he | hne
  · exact hl l target (he ▸ hx)
  · exact hne target hx

/-- Directories are made at a path and above it. -/
def MadeAll (t : Tree) (path : Loc) (u : Tree) : Prop :=
  ∀ l, u.node l = if l <+: path then some .dir else t.node l

theorem MadeAll.linkFree (h : MadeAll t path u) (hl : t.LinkFree) : u.LinkFree := by
  refine hl.of_nodes fun l => ?_
  rw [h l]
  split
  · exact .inr fun target => by simp
  · exact .inl rfl

theorem mkdirOne_eq (ht : t.Rooted) (hl : t.LinkFree) (hp : ∀ a ∈ m ++ [n], Plain a)
    (hm : t.node m = some .dir) (hx : t.Passable (m ++ [n])) :
    ∃ u, t.mkdirOne (m ++ [n]) = some u ∧
      ∀ l, u.node l = if l = m ++ [n] then some .dir else t.node l := by
  have hc : t.Clear (m ++ [n]) := fun p hp hne => .inr <| by
    rcases List.prefix_concat_iff.mp hp with he | hpm
    · exact absurd he hne
    · by_cases he : p = m
      · exact he ▸ hm
      · exact ht.dir_of_prefix (by rw [hm]; rfl) hpm he
  rcases hx with hnone | hdir
  · refine ⟨t.put (m ++ [n]) .dir, ?_, fun l => node_put (by simp) .dir l⟩
    have hst : t.stat (m ++ [n]) = .error .notExist := existing_of_none ht hl hp hc hnone
    simp only [mkdirOne, hst, walk_below ht hl hp hm, hnone, Option.isSome_none, if_false,
      Bool.false_eq_true]
  · refine ⟨t, ?_, fun l => ?_⟩
    · have hst : t.stat (m ++ [n]) = .ok (m ++ [n], .dir) := existing_of_some ht hl hp hdir
      simp only [mkdirOne, hst]
    · by_cases he : l = m ++ [n]
      · rw [if_pos he, he, hdir]
      · rw [if_neg he]

theorem mkdirAll_eq (ht : t.Rooted) (hl : t.LinkFree) (hp : ∀ a ∈ path, Plain a)
    (hx : ∀ p, p <+: path → t.Passable p) : ∃ u, t.mkdirAll path = some u ∧ MadeAll t path u := by
  induction path using List.reverseRecOn with
  | nil =>
    refine ⟨t, by simp [mkdirAll, mkdirOne, stat, existing, walk_nil, node], fun l => ?_⟩
    by_cases h : l = []
    · simp [h, node]
    · simp [h]
  | append_singleton m n ih =>
    obtain ⟨v, hv, hmade⟩ := ih (fun a ha => hp a (by simp [ha])) fun p hpm =>
      hx p (hpm.trans (List.prefix_append m [n]))
    have hvn : v.node (m ++ [n]) = t.node (m ++ [n]) := by
      rw [hmade, if_neg]
      intro hle
      have := hle.length_le
      rw [List.length_append, List.length_singleton] at this
      omega
    have hvx : v.Passable (m ++ [n]) := by
      rw [Passable, hvn]
      exact hx _ List.prefix_rfl
    obtain ⟨u, hu, hn⟩ := mkdirOne_eq (mkdirAll_rooted ht hv) (hmade.linkFree hl) hp
      (by rw [hmade, if_pos List.prefix_rfl]) hvx
    refine ⟨u, by rw [mkdirAll_concat, hv, Option.bind_some, hu], fun l => ?_⟩
    rw [hn, hmade]
    simp only [List.prefix_concat_iff]
    by_cases he : l = m ++ [n]
    · simp [he]
    · simp [he]

theorem mkdirAll_blocked (ht : t.Rooted) (hl : t.LinkFree) (hp : ∀ a ∈ path, Plain a)
    (hx : ¬ ∀ p, p <+: path → t.Passable p) : t.mkdirAll path = none := by
  by_contra hne
  obtain ⟨u, hu⟩ := Option.ne_none_iff_exists'.mp hne
  simp only [not_forall] at hx
  obtain ⟨p, hpp, hx⟩ := hx
  obtain ⟨data, hf⟩ := hl.file_of_not_passable hx
  obtain ⟨q, hm⟩ := mkdirAll_made ht hp hu
  obtain ⟨j, hj, hW⟩ := hm.walks
  -- the path leads to a directory now, with the file still standing on the way
  have hend : t.leads path ++ q = path := by
    have hlu : u.LinkFree := hl.of_nodes fun l => by
      rcases hm.grown l with he | ⟨-, hd⟩
      · exact .inl he
      · exact .inr fun target => by simp [hd]
    by_contra hne
    by_cases hc : u.Clear path
    · rcases List.eq_nil_or_concat' path with rfl | ⟨m, n, rfl⟩
      · rw [hpp.eq_of_length (by simpa using hpp.length_le)] at hf
        cases hf
      · rcases hc m (List.prefix_append m [n]) (by simp) with hnone | hdir
        · have hw := hW.walk hj
          rw [walk_missing hm.rooted hlu hp hc hnone] at hw
          cases hw
        · have hw := hW.walk hj
          rw [walk_below hm.rooted hlu hp hdir] at hw
          exact hne (Except.ok.inj hw).symm
    · have hw := hW.walk hj
      rw [walk_blocked hm.rooted hlu hp hc] at hw
      cases hw
  have hup : u.node p = some (.file data) := hm.grown.some hf
  have hdir := hm.dir
  rw [hend] at hdir
  by_cases he : p = path
  · rw [he, hdir] at hup
    cases hup
  · rw [hm.rooted.dir_of_prefix (by rw [hdir]; rfl) hpp he] at hup
    cases hup

theorem writeFile_eq (ht : t.Rooted) (hl : t.LinkFree) (hp : ∀ a ∈ m ++ [n], Plain a)
    (hm : t.node m = some .dir) (hx : t.node (m ++ [n]) ≠ some .dir) (data : Bytes) :
    t.writeFile (m ++ [n]) data = some (t.put (m ++ [n]) (.file data)) := by
  simp only [writeFile, walk_below ht hl hp hm]

theorem writeFile_dir (ht : t.Rooted) (hl : t.LinkFree) (hp : ∀ a ∈ path, Plain a)
    (hx : t.node path = some .dir) (data : Bytes) : t.writeFile path data = none := by
  simp only [writeFile, walk_of_isSome ht hl hp (by rw [hx]; rfl), hx]

theorem removeAll_eq (ht : t.Rooted) (hl : t.LinkFree) (hp : ∀ a ∈ path, Plain a)
    (hc : t.Clear path) : ∃ u, t.removeAll path = some u ∧
      ∀ l, u.node l = if path <+: l ∧ l ≠ [] then none else t.node l := by
  have hok : t.walk false kernelLinks [] path = .ok path → ∃ u, t.removeAll path = some u ∧
      ∀ l, u.node l = if path <+: l ∧ l ≠ [] then none else t.node l := fun hw =>
    ⟨_, by simp only [removeAll, hw], fun l => node_removed⟩
  rcases List.eq_nil_or_concat' path with rfl | ⟨m, n, rfl⟩
  · exact hok (walk_nil t false _ [])
  · rcases hc m (List.prefix_append m [n]) (by simp) with hm | hm
    · refine ⟨t, by simp only [removeAll, walk_missing ht hl hp hc hm], fun l => ?_⟩
      split
      · rename_i h
        by_contra hne
        have hs : (t.node l).isSome := Option.isSome_iff_ne_none.mpr hne
        have hlen := h.1.length_le
        rw [ht.dir_of_prefix hs ((List.prefix_append m [n]).trans h.1) (by
          rintro rfl
          rw [List.length_append, List.length_singleton] at hlen
          omega)] at hm
        cases hm
      · rfl
    · exact hok (walk_below ht hl hp hm)

theorem removeAll_blocked (ht : t.Rooted) (hl : t.LinkFree) (hp : ∀ a ∈ path, Plain a)
    (hc : ¬ t.Clear path) : t.removeAll path = none := by
  simp only [removeAll, walk_blocked ht hl hp hc]

/-- What is asked of the places of a rename that moves something. -/
def Movable (t : Tree) (src dst : Loc) : Prop :=
  (t.node src).isSome ∧ t.node dst ≠ some .dir ∧ src ≠ dst ∧
    (t.node src = some .dir → ¬ src <+: dst ∧ t.node dst = none)

theorem rename_eq (ht : t.Rooted) (hl : t.LinkFree) (hs : ∀ a ∈ src, Plain a)
    (hp : ∀ a ∈ m ++ [n], Plain a) (hm : t.node m = some .dir) (h : t.Movable src (m ++ [n])) :
    t.rename src (m ++ [n]) = some (t.relocate src (m ++ [n])) := by
  obtain ⟨hsome, hdir, hne, hsub⟩ := h
  obtain ⟨x, hx⟩ := Option.isSome_iff_exists.mp hsome
  have hst : t.lstat src = .ok (src, x) := existing_of_some ht hl hs hx
  simp only [rename, hst, walk_below ht hl hp hm, hdir, hne, if_false]
  rw [if_neg]
  rintro ⟨rfl, hbad⟩
  obtain ⟨hnp, hnone⟩ := hsub hx
  rcases hbad with hpre | hdst
  · exact hnp (List.isPrefixOf_iff_prefix.mp hpre)
  · rw [hnone] at hdst
    cases hdst

/-- A file renamed to its own path stays. -/
theorem rename_self (hw : t.walk false kernelLinks [] path = .ok path) {data : Bytes}
    (hx : t.node path = some (.file data)) : t.rename path path = some t := by
  have hst : t.lstat path = .ok (path, .file data) := by simp only [lstat, existing, hw, hx]
  simp [rename, hst, hw, hx]

theorem rename_self_none (hl : t.LinkFree) (hw : t.walk false kernelLinks [] path = .ok path)
    (hf : ∀ data, t.node path ≠ some (.file data)) : t.rename path path = none := by
  cases hx : t.node path with
  | none =>
    have hst : t.lstat path = .error .notExist := by simp only [lstat, existing, hw, hx]
    simp [rename, hst]
  | some x =>
    have hst : t.lstat path = .ok (path, x) := by simp only [lstat, existing, hw, hx]
    cases x with
    | file data => exact absurd hx (hf data)
    | dir => simp [rename, hst, hw, hx]
    | link target => exact absurd hx (hl path target)

theorem rename_none (ht : t.Rooted) (hl : t.LinkFree) (hs : ∀ a ∈ src, Plain a)
    (hne : src ≠ dst) (h : ¬ t.Movable src dst) (hw : t.walk false kernelLinks [] dst = .ok dst) :
    t.rename src dst = none := by
  by_cases hsome : (t.node src).isSome
  · obtain ⟨x, hx⟩ := Option.isSome_iff_exists.mp hsome
    have hst : t.lstat src = .ok (src, x) := existing_of_some ht hl hs hx
    simp only [rename, hst, hw, hne, false_and, if_false]
    by_cases hd : t.node dst = some .dir
    · rw [if_pos hd]
    · rw [if_neg hd, if_pos]
      by_contra hbad
      refine h ⟨hsome, hd, hne, fun hdir => ?_⟩
      rw [hx] at hdir
      obtain ⟨hsub, hdst⟩ := not_or.mp fun h' => hbad ⟨Option.some.inj hdir, h'⟩
      exact ⟨fun hp => hsub (List.isPrefixOf_iff_prefix.mpr hp),
        Option.not_isSome_iff_eq_none.mp hdst⟩
  · have hst : ∀ l x, t.lstat src ≠ .ok (l, x) := by
      intro l x hl'
      obtain ⟨hw', hx⟩ := existing_eq_ok.mp hl'
      have hc : l = src ∨ t.walk false kernelLinks [] src ≠ .ok l := by
        rcases List.eq_nil_or_concat' src with rfl | ⟨m, n, rfl⟩
        · exact absurd rfl hsome
        · by_cases hc : t.Clear (m ++ [n])
          · rcases hc m (List.prefix_append m [n]) (by simp) with hm | hm
            · exact .inr (by rw [walk_missing ht hl hs hc hm]; simp)
            · rw [walk_below ht hl hs hm] at hw'
              exact .inl (Except.ok.inj hw').symm
          · exact .inr (by rw [walk_blocked ht hl hs hc]; simp)
      rcases hc with rfl | hc
      · rw [hx] at hsome
        exact hsome rfl
      · exact hc hw'
    unfold rename
    split
    · rfl
    · rename_i hx
      exact absurd hx (hst _ _)

end Calls
end Tree
end Mdock.Vault
