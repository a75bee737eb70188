import Mdock.Vault.Containment
import Mdock.Vault.LinkFree

/-! What the vault service is for: a shelf of folders and files for each vault. In a tree
without links the service is such shelves, one beside the other, and no call on one of them
can be told from another one. -/
namespace Mdock.Vault
open Mdock.Go Mdock.Lib

/-- What a call tells its caller. -/
inductive Answer
  | done (res : Except Err Unit)
  | content (res : Except Err Bytes)
  | entries (res : Except Err (List Entry))
  | info (res : Except Err Info)
  deriving DecidableEq

def Call.answer (s : Service) (t : Tree) (v : Bytes) : Call → Answer
  | .readFile rel => .content (s.readFile t v rel)
  | .list rel => .entries (s.list t v rel)
  | .stat rel => .info (s.stat t v rel)
  | .writeFile rel data => .done (s.writeFile t v rel data).1
  | .mkdir rel => .done (s.mkdir t v rel).1
  | .rename oldRel newRel => .done (s.rename t v oldRel newRel).1
  | .delete rel => .done (s.delete t v rel).1

/-! ### Shelves -/

abbrev Shelf := Folders Bytes Bytes

namespace Shelf
variable (F : Shelf)

/-- A path the service accepts, with no file on the way to its parent. -/
noncomputable def resolve (rel : Bytes) : Except Err (List Bytes) :=
  match safeRelPath rel with
  | .error e => .error (.path e)
  | .ok c => by
    classical
    exact if F.Clear (Vault.names c).dropLast then .ok (Vault.names c) else .error .io

def ofOption {α : Type} : Option α → Except Err α
  | some a => .ok a
  | none => .error .io

def content (q : List Bytes) : Except Err Bytes :=
  match F.entry q with
  | some (.file data) => .ok data
  | _ => .error .io

def info (q : List Bytes) : Except Err Info :=
  match F.entry q with
  | some e => .ok ⟨if q = [] then dot else join q, decide (e = .folder)⟩
  | none => .error .io

noncomputable def entries (q : List Bytes) : Except Err (List Entry) :=
  match F.entry q with
  | some .folder => .ok <| ((F.namesIn q).filter (· ≠ dotGit)).map fun n =>
      ⟨n, join (q ++ [n]), decide (F.entry (q ++ [n]) = some .folder)⟩
  | _ => .error .io

/-- The answer to a change, and what it leaves; `F` where it fails. -/
def change (r : Except Err Shelf) : Answer × Shelf :=
  match r with
  | .ok G => (.done (.ok ()), G)
  | .error e => (.done (.error e), F)

/-- A call, on the shelf of its vault. The folders a rename makes first are there even when
it fails. -/
noncomputable def serve : Call → Answer × Shelf
  | .readFile rel => (.content ((F.resolve rel).bind F.content), F)
  | .list rel => (.entries ((F.resolve rel).bind F.entries), F)
  | .stat rel => (.info ((F.resolve rel).bind F.info), F)
  | .writeFile rel data => F.change ((F.resolve rel).bind fun q => ofOption (F.write q data))
  | .mkdir rel => F.change ((F.resolve rel).bind fun q => ofOption (F.makeAll q))
  | .rename oldRel newRel =>
    match F.resolve oldRel, F.resolve newRel with
    | .ok p, .ok q => change ((F.makeAll q.dropLast).getD F) (ofOption (F.rename p q))
    | .error e, _ | .ok _, .error e => (.done (.error e), F)
  | .delete rel => F.change ((F.resolve rel).bind fun q => ofOption (F.remove q))

end Shelf

/-! ### What of a tree is on a shelf -/

def Node.entry : Node → Option (Item Bytes)
  | .file data => some (.file data)
  | .dir => some .folder
  | .link _ => none

theorem Node.entry_folder {x : Node} : x.entry = some .folder ↔ x = .dir := by
  cases x <;> simp [Node.entry]

theorem Node.entry_file {x : Node} {d : Bytes} : x.entry = some (.file d) ↔ x = .file d := by
  cases x <;> simp [Node.entry]

/-- What is at and below `r` is what the shelf holds. -/
def Shows (t : Tree) (r : Loc) (F : Shelf) : Prop :=
  ∀ q, (t.node (r ++ q)).bind Node.entry = F.entry q

section Shows
variable {t u : Tree} {r q m : Loc} {n : Bytes} {F G : Shelf}

theorem Shows.folder (h : Shows t r F) :
    F.entry q = some .folder ↔ t.node (r ++ q) = some .dir := by
  rw [← h q, Option.bind_eq_some_iff]
  simp [Node.entry_folder]

theorem Shows.file (h : Shows t r F) {d : Bytes} :
    F.entry q = some (.file d) ↔ t.node (r ++ q) = some (.file d) := by
  rw [← h q, Option.bind_eq_some_iff]
  simp [Node.entry_file]

theorem Shows.none (h : Shows t r F) (hl : t.LinkFree) :
    F.entry q = none ↔ t.node (r ++ q) = none := by
  rw [← h q]
  cases hx : t.node (r ++ q) with
  | none => simp
  | some x =>
    cases x with
    | file data => simp [Node.entry]
    | dir => simp [Node.entry]
    | link target => exact absurd hx (hl _ target)

theorem Shows.isSome (h : Shows t r F) (hl : t.LinkFree) :
    (F.entry q).isSome ↔ (t.node (r ++ q)).isSome := by
  rw [← not_iff_not, Option.not_isSome_iff_eq_none, Option.not_isSome_iff_eq_none, h.none hl]

theorem Shows.passable (h : Shows t r F) (hl : t.LinkFree) :
    F.Passable q ↔ t.Passable (r ++ q) := by
  rw [Folders.Passable, Tree.Passable, h.none hl, h.folder]

theorem Shows.root (h : Shows t r F) : t.node r = some .dir := by
  simpa using h.folder.mp F.root

/-- Above its root a shelf hangs on directories. -/
theorem Shows.dir_above (h : Shows t r F) (ht : t.Rooted) {p : Loc} (hp : p <+: r) :
    t.node p = some .dir := by
  by_cases he : p = r
  · exact he ▸ h.root
  · exact ht.dir_of_prefix (by rw [h.root]; rfl) hp he

theorem prefix_append_cases {p : Loc} : p <+: r ++ q ↔ p <+: r ∨ ∃ p', p' <+: q ∧ p = r ++ p' := by
  constructor
  · intro hp
    rcases List.prefix_or_prefix_of_prefix hp (List.prefix_append r q) with h | ⟨p', rfl⟩
    · exact .inl h
    · exact .inr ⟨p', (List.prefix_append_right_inj r).mp hp, rfl⟩
  · rintro (h | ⟨p', h, rfl⟩)
    · exact h.trans (List.prefix_append r q)
    · exact (List.prefix_append_right_inj r).mpr h

theorem Shows.clear (h : Shows t r F) (ht : t.Rooted) (hl : t.LinkFree) :
    F.Clear q ↔ t.Clear (r ++ q) := by
  constructor
  · intro hc p hp hne
    rcases prefix_append_cases.mp hp with hp | ⟨p', hp', rfl⟩
    · exact .inr (h.dir_above ht hp)
    · exact (h.passable hl).mp (hc p' hp' fun he => hne (he ▸ rfl))
  · intro hc p hp hne
    exact (h.passable hl).mpr
      (hc _ ((List.prefix_append_right_inj r).mpr hp) fun he => hne (List.append_cancel_left he))

theorem Shows.passable_all (h : Shows t r F) (ht : t.Rooted) (hl : t.LinkFree) :
    (∀ p, p <+: q → F.Passable p) ↔ ∀ p, p <+: r ++ q → t.Passable p := by
  constructor
  · intro hc p hp
    rcases prefix_append_cases.mp hp with hp | ⟨p', hp', rfl⟩
    · exact .inr (h.dir_above ht hp)
    · exact (h.passable hl).mp (hc p' hp')
  · intro hc p hp
    exact (h.passable hl).mpr (hc _ ((List.prefix_append_right_inj r).mpr hp))

end Shows

/-- Like `Shows`, where the root of the shelf may still be to be made. -/
def Holds (t : Tree) (r : Loc) (F : Shelf) : Prop :=
  ∀ q, q ≠ [] → (t.node (r ++ q)).bind Node.entry = F.entry q

theorem Shows.holds {t : Tree} {r : Loc} {F : Shelf} (h : Shows t r F) : Holds t r F :=
  fun q _ => h q

theorem Holds.shows {t : Tree} {r : Loc} {F : Shelf} (h : Holds t r F)
    (hd : t.node r = some .dir) : Shows t r F := by
  intro q
  by_cases hq : q = []
  · rw [hq, List.append_nil, hd, F.root]
    rfl
  · exact h q hq

/-- The tree that a call on the shelf at `r` made of `t`, with what the shelf holds then. -/
structure Left (t : Tree) (r : Loc) (u : Tree) (G : Shelf) : Prop where
  rooted : u.Rooted
  linkFree : u.LinkFree
  holds : Holds u r G
  above : ∀ p, p <+: r → u.Passable p
  frame : ∀ l, ¬ r <+: l → ¬ l <+: r → u.node l = t.node l

theorem Left.trans {t u w : Tree} {r : Loc} {F G : Shelf} (h : Left t r u F) (h' : Left u r w G) :
    Left t r w G :=
  ⟨h'.rooted, h'.linkFree, h'.holds, h'.above,
    fun l hl hl' => (h'.frame l hl hl').trans (h.frame l hl hl')⟩

/-! ### The calls of `os`, on a shelf -/

section Calls
variable {t u : Tree} {r p q m : Loc} {n : Bytes} {F G : Shelf}

theorem append_prefix_self (h : r ++ q <+: r) : q = [] := by
  have := h.length_le
  rw [List.length_append] at this
  exact List.length_eq_zero_iff.mp (by omega)

theorem Shows.left (h : Shows t r F) (ht : t.Rooted) (hl : t.LinkFree) : Left t r t F :=
  ⟨ht, hl, h.holds, fun _ hp => .inr (h.dir_above ht hp), fun _ _ _ => rfl⟩

theorem mkdirAll_shelf (h : Shows t r F) (ht : t.Rooted) (hl : t.LinkFree)
    (hp : ∀ a ∈ r ++ q, Plain a) :
    Option.Rel (fun u G => Left t r u G ∧ u.node r = some .dir) (t.mkdirAll (r ++ q))
      (F.makeAll q) := by
  by_cases hx : ∀ p, p <+: q → F.Passable p
  · obtain ⟨u, hu, hmade⟩ := Tree.mkdirAll_eq ht hl hp ((h.passable_all ht hl).mp hx)
    obtain ⟨G, hG, hin, hout⟩ := F.makeAll_some hx
    rw [hu, hG]
    have hdir : ∀ p, p <+: r → u.node p = some .dir := fun p hp => by
      rw [hmade, if_pos (hp.trans (List.prefix_append r q))]
    refine .some ⟨⟨Tree.mkdirAll_rooted ht hu, hmade.linkFree hl, fun x _ => ?_,
      fun p hp => .inr (hdir p hp), fun l hrl hlr => ?_⟩, hdir r List.prefix_rfl⟩
    · by_cases hxq : x <+: q
      · rw [hmade, if_pos ((List.prefix_append_right_inj r).mpr hxq), hin x hxq]
        rfl
      · rw [hmade, if_neg fun h => hxq ((List.prefix_append_right_inj r).mp h), hout x hxq]
        exact h x
    · rw [hmade, if_neg]
      intro hlq
      rcases prefix_append_cases.mp hlq with hlr' | ⟨x, -, rfl⟩
      · exact hlr hlr'
      · exact hrl (List.prefix_append r x)
  · rw [Tree.mkdirAll_blocked ht hl hp fun h' => hx ((h.passable_all ht hl).mpr h'),
      F.makeAll_none hx]
    exact .none

theorem makeAll_shelf (h : Shows t r F) (ht : t.Rooted) (hl : t.LinkFree)
    (hp : ∀ a ∈ r ++ q, Plain a) :
    Option.Rel (Left t r) (t.mkdirAll (r ++ q)) (F.makeAll q) := by
  have hmk := mkdirAll_shelf h ht hl hp
  generalize t.mkdirAll (r ++ q) = o at hmk
  generalize F.makeAll q = b at hmk
  cases hmk with
  | none => exact .none
  | some h => exact .some h.1

theorem put_shelf (h : Shows t r F) (ht : t.Rooted) (hl : t.LinkFree)
    (hp : ∀ a ∈ r ++ m ++ [n], Plain a) (hm : F.entry m = some .folder) (d : Bytes) :
    Option.Rel (Left t r) (t.writeFile (r ++ m ++ [n]) d) (F.put m n d) := by
  have hmd : t.node (r ++ m) = some .dir := h.folder.mp hm
  by_cases hd : F.entry (m ++ [n]) = some .folder
  · have hdir := h.folder.mp hd
    rw [← List.append_assoc] at hdir
    rw [Tree.writeFile_dir ht hl hp hdir, F.put_none hd]
    exact .none
  · have hne : t.node (r ++ m ++ [n]) ≠ some .dir := fun hx =>
      hd (h.folder.mpr (by rwa [← List.append_assoc]))
    obtain ⟨G, hG, hnew, hold⟩ := F.put_some (d := d) hm hd
    rw [Tree.writeFile_eq ht hl hp hmd hne, hG]
    have hnode := Tree.node_put (t := t) (l := r ++ m ++ [n]) (by simp) (.file d)
    refine .some ⟨ht.put hmd (hp n (by simp)) hne _, hl.of_nodes fun l => ?_, fun x _ => ?_,
      fun p hp' => .inr ?_, fun l hrl _ => ?_⟩
    · rw [hnode]
      split
      · exact .inr fun target => by simp
      · exact .inl rfl
    · by_cases hx : x = m ++ [n]
      · rw [hnode, hx, if_pos (List.append_assoc r m [n]).symm, hnew]
        rfl
      · rw [hnode, if_neg, hold x hx]
        · exact h x
        · rw [List.append_assoc]
          exact fun he => hx (List.append_cancel_left he)
    · rw [hnode, if_neg, h.dir_above ht hp']
      rintro rfl
      rw [List.append_assoc] at hp'
      exact absurd (append_prefix_self hp') (by simp)
    · rw [hnode, if_neg]
      rintro rfl
      exact hrl (by rw [List.append_assoc]; exact List.prefix_append r _)

/-- Making what is above the root of a shelf changes nothing on it. -/
theorem mkdirAll_root (h : Shows t r F) (ht : t.Rooted) (hl : t.LinkFree) (hr : ∀ a ∈ r, Plain a) :
    ∃ u, t.mkdirAll r.dropLast = some u ∧ Left t r u F ∧ u.node r = some .dir := by
  have hpre : r.dropLast <+: r := List.dropLast_prefix r
  obtain ⟨u, hu, hmade⟩ := Tree.mkdirAll_eq ht hl (fun a ha => hr a (hpre.mem ha)) fun p hp =>
    .inr (h.dir_above ht (hp.trans hpre))
  have hdir : ∀ p, p <+: r → u.node p = some .dir := fun p hp => by
    rw [hmade, h.dir_above ht hp]
    split <;> rfl
  have hold : ∀ l, ¬ l <+: r → u.node l = t.node l := fun l hl => by
    rw [hmade, if_neg fun h => hl (h.trans hpre)]
  refine ⟨u, hu, ⟨Tree.mkdirAll_rooted ht hu, hmade.linkFree hl, fun x hx => ?_,
    fun p hp => .inr (hdir p hp), fun l _ hl => hold l hl⟩, hdir r List.prefix_rfl⟩
  rw [hold _ fun hle => hx (append_prefix_self hle)]
  exact h x

theorem dropLast_append_concat (r m : Loc) (n : Bytes) : (r ++ (m ++ [n])).dropLast = r ++ m := by
  rw [← List.append_assoc, List.dropLast_concat]

/-- What is done once the folders on the way are made. -/
theorem bind_shelf (h : Shows t r F) (ht : t.Rooted) (hl : t.LinkFree)
    (hp : ∀ a ∈ r ++ m, Plain a) {f : Tree → Option Tree} {g : Shelf → Option Shelf}
    (hfg : ∀ u G, u.Rooted → u.LinkFree → Shows u r G → G.entry m = some .folder →
      Option.Rel (Left u r) (f u) (g G)) :
    Option.Rel (Left t r) ((t.mkdirAll (r ++ m)).bind f) ((F.makeAll m).bind g) := by
  have hmk := mkdirAll_shelf (q := m) h ht hl hp
  by_cases hx : ∀ p, p <+: m → F.Passable p
  · obtain ⟨G, hG, hin, -⟩ := F.makeAll_some hx
    rw [hG] at hmk ⊢
    generalize t.mkdirAll (r ++ m) = o at hmk
    cases hmk with
    | @some u _ hu =>
      have hrel := hfg u G hu.1.rooted hu.1.linkFree (hu.1.holds.shows hu.2) (hin m List.prefix_rfl)
      rw [Option.bind_some, Option.bind_some]
      generalize f u = w at hrel
      generalize g G = H at hrel
      cases hrel with
      | none => exact .none
      | some hw => exact .some (hu.1.trans hw)
  · rw [F.makeAll_none hx] at hmk ⊢
    generalize t.mkdirAll (r ++ m) = o at hmk
    cases hmk
    exact .none

theorem writeFile_shelf (h : Shows t r F) (ht : t.Rooted) (hl : t.LinkFree)
    (hp : ∀ a ∈ r ++ q, Plain a) (d : Bytes) :
    Option.Rel (Left t r)
      ((t.mkdirAll (r ++ q).dropLast).bind fun u => u.writeFile (r ++ q) d) (F.write q d) := by
  rcases List.eq_nil_or_concat' q with rfl | ⟨m, n, rfl⟩
  · rw [List.append_nil] at hp ⊢
    obtain ⟨u, hu, hleft, hd⟩ := mkdirAll_root h ht hl hp
    rw [hu, Option.bind_some, Tree.writeFile_dir hleft.rooted hleft.linkFree hp hd]
    exact .none
  · rw [dropLast_append_concat, F.write_concat]
    rw [← List.append_assoc] at hp ⊢
    exact bind_shelf h ht hl (fun a ha => hp a (List.mem_append_left [n] ha))
      fun u G hut hul hG hm => put_shelf hG hut hul hp hm d

theorem removeAll_shelf (h : Shows t r F) (ht : t.Rooted) (hl : t.LinkFree)
    (hp : ∀ a ∈ r ++ q, Plain a) : Option.Rel (Left t r) (t.removeAll (r ++ q)) (F.remove q) := by
  by_cases hc : F.Clear q
  · obtain ⟨u, hu, hnode⟩ := Tree.removeAll_eq ht hl hp ((h.clear ht hl).mp hc)
    rw [hu, Folders.remove, if_pos hc]
    refine .some ⟨Tree.removeAll_rooted ht hu, hl.of_nodes fun l => ?_, fun x hx => ?_,
      fun p hpr => ?_, fun l hrl _ => ?_⟩
    · rw [hnode]
      split
      · exact .inr fun target => by simp
      · exact .inl rfl
    · rw [hnode]
      by_cases hqx : q <+: x
      · rw [if_pos ⟨(List.prefix_append_right_inj r).mpr hqx, by simp [hx]⟩, F.clear_below hqx hx]
        rfl
      · rw [if_neg fun h => hqx ((List.prefix_append_right_inj r).mp h.1),
          F.clear_above fun h => hqx h.1]
        exact h x
    · rw [Tree.Passable, hnode]
      split
      · exact .inl rfl
      · exact .inr (h.dir_above ht hpr)
    · rw [hnode, if_neg fun h => hrl ((List.prefix_append r q).trans h.1)]
  · rw [Tree.removeAll_blocked ht hl hp fun h' => hc ((h.clear ht hl).mpr h'), Folders.remove,
      if_neg hc]
    exact .none

theorem Shows.movable (h : Shows t r F) (hl : t.LinkFree) (hm : F.entry m = some .folder) :
    (F.entry p).isSome ∧ F.Movable p m n ↔ t.Movable (r ++ p) (r ++ (m ++ [n])) := by
  simp only [Folders.Movable, Tree.Movable, h.isSome hl, h.none hl, hm, true_and, ne_eq, h.folder,
    List.prefix_append_right_inj, List.append_cancel_left_eq]

theorem move_shelf (h : Shows t r F) (ht : t.Rooted) (hl : t.LinkFree)
    (hp : ∀ a ∈ r ++ p, Plain a) (hq : ∀ a ∈ r ++ m ++ [n], Plain a)
    (hm : F.entry m = some .folder) (hne : p ≠ m ++ [n]) :
    Option.Rel (Left t r) (t.rename (r ++ p) (r ++ (m ++ [n]))) (F.move p m n) := by
  have hmd : t.node (r ++ m) = some .dir := h.folder.mp hm
  by_cases hmv : (F.entry p).isSome ∧ F.Movable p m n
  · obtain ⟨G, hG, hnew, hgone, hold⟩ := F.move_some hmv.1 hmv.2
    have htm := (h.movable hl hm).mp hmv
    rw [← List.append_assoc] at htm ⊢
    have hren := Tree.rename_eq ht hl hp hq hmd htm
    have hp0 : p ≠ [] := by
      rintro rfl
      exact hmv.2.not_above List.nil_prefix
    have hnode := @Tree.node_relocate t (r ++ p) (r ++ m ++ [n]) (by simp [hp0]) (by simp)
    rw [hren, hG]
    refine .some ⟨Tree.rename_rooted ht hren, hl.of_nodes fun l => ?_, fun x _ => ?_,
      fun l hlr => .inr ?_, fun l hrl _ => ?_⟩
    · rw [hnode]
      split
      · exact .inr (hl _)
      · split
        · exact .inr fun target => by simp
        · exact .inl rfl
    · rw [hnode]
      by_cases hx : m ++ [n] <+: x
      · obtain ⟨y, rfl⟩ := hx
        rw [hnew, if_pos (by simp), ← h (p ++ y)]
        simp
      · rw [if_neg fun h' => hx ((List.prefix_append_right_inj r).mp (by simpa using h'))]
        by_cases hpx : p <+: x
        · rw [if_pos ((List.prefix_append_right_inj r).mpr hpx), hgone x hx hpx]
          rfl
        · rw [if_neg fun h' => hpx ((List.prefix_append_right_inj r).mp h'), hold x hx hpx]
          exact h x
    · rw [hnode, if_neg, if_neg, h.dir_above ht hlr]
      · exact fun h' => hp0 (append_prefix_self (h'.trans hlr))
      · intro h'
        rw [List.append_assoc] at h'
        exact absurd (append_prefix_self (h'.trans hlr)) (by simp)
    · rw [hnode, if_neg, if_neg fun h' => hrl ((List.prefix_append r p).trans h')]
      intro h'
      rw [List.append_assoc] at h'
      exact hrl ((List.prefix_append r _).trans h')
  · rw [F.move_none hmv]
    have hw : t.walk false Tree.kernelLinks [] (r ++ m ++ [n]) = .ok (r ++ m ++ [n]) :=
      Tree.walk_below ht hl hq hmd
    rw [List.append_assoc] at hw
    rw [Tree.rename_none ht hl hp (fun he => hne (List.append_cancel_left he))
      (fun h' => hmv ((h.movable hl hm).mpr h')) hw]
    exact .none

theorem rename_shelf (h : Shows t r F) (ht : t.Rooted) (hl : t.LinkFree)
    (hp : ∀ a ∈ r ++ p, Plain a) (hq : ∀ a ∈ r ++ q, Plain a) :
    Option.Rel (Left t r)
      ((t.mkdirAll (r ++ q).dropLast).bind fun u => u.rename (r ++ p) (r ++ q)) (F.rename p q) := by
  rcases List.eq_nil_or_concat' q with rfl | ⟨m, n, rfl⟩
  · rw [List.append_nil] at hq ⊢
    obtain ⟨u, hu, ⟨hut, hul, -, -, -⟩, hd⟩ := mkdirAll_root h ht hl hq
    have hw : u.walk false Tree.kernelLinks [] r = .ok r :=
      Tree.walk_of_isSome hut hul hq (by rw [hd]; rfl)
    rw [hu, Option.bind_some]
    have hnone : u.rename (r ++ p) r = none := by
      by_cases hp0 : p = []
      · rw [hp0, List.append_nil, Tree.rename_self_none hul hw fun data => by rw [hd]; simp]
      · exact Tree.rename_none hut hul hp (by simpa using hp0) (fun h' => h'.2.1 hd) hw
    rw [hnone]
    exact .none
  · rw [dropLast_append_concat]
    have hq' : ∀ a ∈ r ++ m ++ [n], Plain a := by rwa [List.append_assoc]
    have hrm : ∀ a ∈ r ++ m, Plain a := fun a ha => hq' a (List.mem_append_left [n] ha)
    by_cases hne : p = m ++ [n]
    · subst hne
      rw [F.rename_self]
      refine bind_shelf h ht hl hrm fun u G hut hul hG hm => ?_
      have hw : u.walk false Tree.kernelLinks [] (r ++ m ++ [n]) = .ok (r ++ m ++ [n]) :=
        Tree.walk_below hut hul hq' (hG.folder.mp hm)
      rw [List.append_assoc] at hw
      by_cases hf : ∃ d, G.entry (m ++ [n]) = some (.file d)
      · obtain ⟨d, hd⟩ := hf
        rw [Tree.rename_self hw (hG.file.mp hd), if_pos ⟨d, hd⟩]
        exact .some (hG.left hut hul)
      · rw [Tree.rename_self_none hul hw fun d hd => hf ⟨d, hG.file.mpr hd⟩, if_neg hf]
        exact .none
    · rw [F.rename_concat hne]
      exact bind_shelf h ht hl hrm fun u G hut hul hG hm => move_shelf hG hut hul hp hq' hm hne

end Calls
end Mdock.Vault
