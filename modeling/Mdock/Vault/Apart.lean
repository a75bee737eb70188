import Mdock.Lib.Family
import Mdock.Lib.Tasks
import Mdock.Vault.Shelves

/-! Vaults side by side. A call on one of them does what it does on a shelf of its own, so the
service on all of them is a family of shelves. -/
namespace Mdock.Vault
open Mdock.Go Mdock.Lib

/-- What a call that fails leaves: the root of its vault is made, and for a rename the folders
the new path stands in. -/
def Call.failed (s : Service) (t : Tree) (v : Bytes) (c : Call) : Tree :=
  match s.ensureVault t v with
  | .error _ => t
  | .ok (_, u) =>
    match c with
    | .rename oldRel newRel =>
      match s.resolve t v oldRel with
      | .error _ => u
      | .ok old =>
        match s.resolve old.tree v newRel with
        | .error _ => u
        | .ok new => (new.tree.mkdirAll new.full.dropLast).getD new.tree
    | _ => u

/-- The answer to a call on a vault, and the tree it leaves. -/
def Service.serve (s : Service) (t : Tree) (x : Bytes × Call) : Answer × Tree :=
  (x.2.answer s t x.1, (x.2.after s t x.1).getD (x.2.failed s t x.1))

section OneVault
variable {s : Service} {t u : Tree} {v rel : Bytes} {r : Loc} {F : Shelf}

theorem Left.here (h : Left t r u F) : Left u r u F :=
  ⟨h.rooted, h.linkFree, h.holds, h.above, fun _ _ _ => rfl⟩

theorem Left.dir_of_makes (h : Left t r t F) (hr : ∀ a ∈ r, Plain a) :
    ∃ u, t.mkdirAll r = some u ∧ Left t r u F ∧ Shows u r F := by
  obtain ⟨u, hu, hmade⟩ := Tree.mkdirAll_eq h.rooted h.linkFree hr h.above
  have hdir : ∀ p, p <+: r → u.node p = some .dir := fun p hp => by rw [hmade, if_pos hp]
  have hold : ∀ l, ¬ l <+: r → u.node l = t.node l := fun l hl => by rw [hmade, if_neg hl]
  have hleft : Left t r u F := by
    refine ⟨Tree.mkdirAll_rooted h.rooted hu, hmade.linkFree h.linkFree, fun q hq => ?_,
      fun p hp => .inr (hdir p hp), fun l _ hl => hold l hl⟩
    rw [hold _ fun hle => hq (append_prefix_self hle)]
    exact h.holds q hq
  exact ⟨u, hu, hleft, hleft.holds.shows (hdir r List.prefix_rfl)⟩

/-- Without links a path leads to its own place or nowhere. -/
theorem evalSymlinks_cases (ht : t.Rooted) (hl : t.LinkFree) {path : Loc}
    (hp : ∀ a ∈ path, Plain a) : t.evalSymlinks path = .ok path ∨
      t.evalSymlinks path = .error .notExist ∨
      ¬ t.Clear path ∧ t.evalSymlinks path = .error .notDir := by
  unfold Tree.evalSymlinks
  by_cases hc : t.Clear path
  · cases hx : t.node path with
    | some x => exact .inl (by rw [Tree.existing_of_some ht hl hp hx]; rfl)
    | none => exact .inr (.inl (by rw [Tree.existing_of_none ht hl hp hc hx]; rfl))
  · exact .inr (.inr ⟨hc, by rw [Tree.existing_blocked ht hl hp hc]; rfl⟩)

theorem ensureInside_append (root q : Loc) : ensureInside root (root ++ q) = .ok () :=
  if_pos (List.isPrefixOf_iff_prefix.mpr (List.prefix_append root q))

/-- Only a file on the way to its parent keeps a path from being resolved. -/
theorem checkLinks_shelf (h : Shows t r F) (ht : t.Rooted) (hl : t.LinkFree) {q : Loc}
    (hne : q ≠ []) (hp : ∀ a ∈ r ++ q, Plain a) :
    (F.Clear q.dropLast → Service.checkLinks t r (r ++ q) = .ok ()) ∧
      (¬ F.Clear q.dropLast → Service.checkLinks t r (r ++ q) = .error .io) := by
  have hdrop : (r ++ q).dropLast = r ++ q.dropLast := List.dropLast_append_of_ne_nil hne
  have hpd : ∀ a ∈ r ++ q.dropLast, Plain a := fun a ha => by
    rw [← hdrop] at ha
    exact hp a (List.dropLast_subset _ ha)
  have hfull : t.evalSymlinks (r ++ q) = .ok (r ++ q) ∨
      ∃ e, t.evalSymlinks (r ++ q) = .error e := by
    rcases evalSymlinks_cases ht hl hp with he | he | ⟨-, he⟩
    · exact .inl he
    · exact .inr ⟨_, he⟩
    · exact .inr ⟨_, he⟩
  unfold Service.checkLinks
  rw [hdrop]
  constructor
  · intro hc
    rcases evalSymlinks_cases ht hl hpd with he | he | ⟨hbad, -⟩
    · rcases hfull with hf | ⟨e, hf⟩ <;> simp only [he, hf, ensureInside_append]
    · rcases hfull with hf | ⟨e, hf⟩ <;> simp only [he, hf, ensureInside_append]
    · exact absurd ((h.clear ht hl).mp hc) hbad
  · intro hc
    have hbad : t.evalSymlinks (r ++ q.dropLast) = .error .notDir := by
      rw [Tree.evalSymlinks, Tree.existing_blocked ht hl hpd fun h' => hc ((h.clear ht hl).mpr h')]
      rfl
    simp only [hbad]

theorem plain_append (hr : ∀ a ∈ r, Plain a) {c : Bytes} (hc : safeRelPath rel = .ok c) :
    ∀ a ∈ r ++ names c, Plain a := by
  intro a ha
  rcases List.mem_append.mp ha with ha | ha
  · exact hr a ha
  · exact (plain_names hc ha).1

/-- What the service resolves a path to, once the root of the vault is made. -/
theorem resolve_shelf (hv : s.vaultRoot v = .ok r) (hr : ∀ a ∈ r, Plain a)
    (hu : t.mkdirAll r = some u) (h : Shows u r F) (ht : u.Rooted) (hl : u.LinkFree)
    (rel : Bytes) : s.resolve t v rel = (F.resolve rel).map fun q => ⟨r, r ++ q, u⟩ := by
  have heval : u.evalSymlinks r = .ok r := by
    rw [Tree.evalSymlinks, Tree.existing_of_some ht hl hr h.root]
    rfl
  simp only [Service.resolve, Service.ensureVault, hv, hu, heval, Shelf.resolve]
  cases hc : safeRelPath rel with
  | error e => rfl
  | ok c =>
    by_cases hdot : c = dot
    · have hclear : F.Clear (names c).dropLast := by
        rw [hdot, names_dot]
        exact fun p hp hne => absurd (List.prefix_nil.mp hp) hne
      simp only [if_pos hdot, if_pos hclear, Except.map]
    · have hne : names c ≠ [] := by
        rcases (cleanRel_of_safeRelPath hc).cases with ⟨he, -⟩ | ⟨hne, -⟩
        · exact absurd he hdot
        · exact hne
      have hcheck := checkLinks_shelf h ht hl hne (plain_append hr hc)
      by_cases hclear : F.Clear (names c).dropLast
      · simp only [if_neg hdot, if_pos hclear, hcheck.1 hclear, Except.map]
      · simp only [if_neg hdot, if_neg hclear, hcheck.2 hclear, Except.map]

theorem Shelf.resolve_plain (hr : ∀ a ∈ r, Plain a) {q : Loc} (h : F.resolve rel = .ok q) :
    ∀ a ∈ r ++ q, Plain a := by
  unfold Shelf.resolve at h
  split at h
  · cases h
  · rename_i c hc
    split at h
    · cases h
      exact plain_append hr hc
    · cases h

/-! ### Listings -/

theorem children_nodup (t : Tree) (l : Loc) : ((t.children l).map Prod.fst).Nodup := by
  have hrows : t.rows.Nodup := List.Nodup.of_map entryLoc t.nodup
  have hn : (t.children l).Nodup := by
    refine List.Nodup.filterMap ?_ hrows
    rintro ⟨k, x⟩ ⟨k', x'⟩ ⟨n, y⟩ he he'
    have hkey : ∀ k x, (n, y) ∈ (if (k, x).1.dropLast = l then
        (k, x).1.getLast?.map fun n => (n, (k, x).2) else none : Option (Bytes × Node)) →
        k = l ++ [n] ∧ x = y := by
      intro k x h
      split at h
      · rename_i hd
        obtain ⟨a, ha, hx⟩ := Option.map_eq_some_iff.mp h
        cases hx
        exact ⟨by rw [← hd]; exact (List.dropLast_append_getLast? n ha).symm, rfl⟩
      · cases h
    obtain ⟨rfl, rfl⟩ := hkey k x he
    obtain ⟨rfl, rfl⟩ := hkey k' x' he'
    rfl
  refine hn.map_on ?_
  rintro ⟨n, x⟩ hx ⟨n', x'⟩ hx' rfl
  have := (Tree.mem_children.mp hx).symm.trans (Tree.mem_children.mp hx')
  rw [Option.some.inj this]

/-- What stands in a directory, by name. -/
theorem children_names (h : Shows t r F) (hl : t.LinkFree) (q : Loc) :
    let names := ((t.children (r ++ q)).map Prod.fst).insertionSort fun a b => a ≤ b
    names.Pairwise (· < ·) ∧ ∀ n, n ∈ names ↔ (F.entry (q ++ [n])).isSome := by
  constructor
  · have hle := List.pairwise_insertionSort (fun a b : Bytes => a ≤ b)
      ((t.children (r ++ q)).map Prod.fst)
    have hnd := (List.perm_insertionSort (fun a b : Bytes => a ≤ b) _).nodup_iff.mpr
      (children_nodup t (r ++ q))
    exact (hle.and hnd).imp fun h => lt_of_le_of_ne h.1 h.2
  · intro n
    rw [List.mem_insertionSort, h.isSome hl, List.mem_map, ← List.append_assoc,
      Option.isSome_iff_exists]
    constructor
    · rintro ⟨⟨a, x⟩, hx, rfl⟩
      exact ⟨x, Tree.mem_children.mp hx⟩
    · rintro ⟨x, hx⟩
      exact ⟨(n, x), Tree.mem_children.mpr hx, rfl⟩

theorem mem_namesIn (h : Shows t r F) (hl : t.LinkFree) {q : Loc} {n : Bytes} :
    n ∈ F.namesIn q ↔ (F.entry (q ++ [n])).isSome := by
  obtain ⟨hsorted, hmem⟩ := children_names h hl q
  rw [F.namesIn_eq hsorted hmem, hmem]

theorem readDir_shelf (h : Shows t r F) (ht : t.Rooted) (hl : t.LinkFree) {q : Loc}
    (hp : ∀ a ∈ r ++ q, Plain a) (hd : F.entry q = some .folder) :
    ∃ items, t.readDir (r ++ q) = .ok items ∧ items.map Prod.fst = F.namesIn q ∧
      ∀ n x, (n, x) ∈ items → t.node (r ++ q ++ [n]) = some x := by
  have hst : t.stat (r ++ q) = .ok (r ++ q, .dir) := Tree.existing_of_some ht hl hp (h.folder.mp hd)
  refine ⟨(t.children (r ++ q)).insertionSort fun a b => a.1 ≤ b.1,
    by simp only [Tree.readDir, hst], ?_, fun n x hx => ?_⟩
  · rw [List.map_insertionSort _ (fun a b : Bytes => a ≤ b) Prod.fst _ fun _ _ _ _ => Iff.rfl]
    obtain ⟨hsorted, hmem⟩ := children_names h hl q
    exact (F.namesIn_eq hsorted hmem).symm
  · exact Tree.mem_children.mp ((List.mem_insertionSort _).mp hx)

/-! ### One call -/

theorem stat_cases (ht : t.Rooted) (hl : t.LinkFree) {path : Loc} (hp : ∀ a ∈ path, Plain a) :
    (∃ x, t.node path = some x ∧ t.stat path = .ok (path, x)) ∨
      t.node path = none ∧ ∃ e, t.stat path = .error e := by
  cases hx : t.node path with
  | some x => exact .inl ⟨x, rfl, Tree.existing_of_some ht hl hp hx⟩
  | none =>
    refine .inr ⟨rfl, ?_⟩
    by_cases hc : t.Clear path
    · exact ⟨_, Tree.existing_of_none ht hl hp hc hx⟩
    · exact ⟨_, Tree.existing_blocked ht hl hp hc⟩

variable (hv : s.vaultRoot v = .ok r) (hr : ∀ a ∈ r, Plain a) (hu : t.mkdirAll r = some u)
  (h : Shows u r F) (ht : u.Rooted) (hl : u.LinkFree)
include hv hr hu h ht hl

theorem readFile_shelf (rel : Bytes) :
    s.readFile t v rel = (F.resolve rel).bind F.content := by
  rw [Service.readFile, resolve_shelf hv hr hu h ht hl rel]
  cases hq : F.resolve rel with
  | error e => rfl
  | ok q =>
    simp only [Except.map, Except.bind, Shelf.content]
    rcases stat_cases ht hl (Shelf.resolve_plain hr hq) with ⟨x, hx, hst⟩ | ⟨hx, e, hst⟩
    · cases x with
      | file data => simp only [hst, h.file.mpr hx]
      | dir => simp only [hst, h.folder.mpr hx]
      | link target => exact absurd hx (hl _ target)
    · simp only [hst, (h.none hl).mpr hx]

theorem stat_shelf (rel : Bytes) : s.stat t v rel = (F.resolve rel).bind F.info := by
  rw [Service.stat, resolve_shelf hv hr hu h ht hl rel]
  cases hq : F.resolve rel with
  | error e => rfl
  | ok q =>
    simp only [Except.map, Except.bind, Shelf.info]
    rcases stat_cases ht hl (Shelf.resolve_plain hr hq) with ⟨x, hx, hst⟩ | ⟨hx, e, hst⟩
    · cases x with
      | file data => simp [hst, h.file.mpr hx]
      | dir => simp [hst, h.folder.mpr hx]
      | link target => exact absurd hx (hl _ target)
    · simp only [hst, (h.none hl).mpr hx]

theorem list_shelf (rel : Bytes) : s.list t v rel = (F.resolve rel).bind F.entries := by
  rw [Service.list, resolve_shelf hv hr hu h ht hl rel]
  cases hq : F.resolve rel with
  | error e => rfl
  | ok q =>
    have hp := Shelf.resolve_plain hr hq
    simp only [Except.map, Except.bind, Shelf.entries]
    by_cases hd : F.entry q = some .folder
    · obtain ⟨items, hitems, hnames, hnode⟩ := readDir_shelf h ht hl hp hd
      simp only [hitems, hd, ← hnames, List.filter_map, List.map_map, List.drop_left]
      refine congrArg _ (List.map_congr_left ?_)
      rintro ⟨n, x⟩ hx
      have hx := hnode n x (List.mem_of_mem_filter hx)
      rw [List.append_assoc] at hx
      have hdec : decide (x = .dir) = decide (F.entry (q ++ [n]) = some .folder) :=
        decide_eq_decide.mpr (by rw [h.folder, hx, Option.some_inj])
      simp only [Function.comp, hdec]
    · have hdir : ∃ e, u.readDir (r ++ q) = .error e := by
        rcases stat_cases ht hl hp with ⟨x, hx, hst⟩ | ⟨-, e, hst⟩
        · cases x with
          | dir => exact absurd (h.folder.mpr hx) hd
          | file data => exact ⟨.notDir, by simp only [Tree.readDir, hst]⟩
          | link target => exact absurd hx (hl _ target)
        · exact ⟨e, by simp only [Tree.readDir, hst]⟩
      obtain ⟨e, he⟩ := hdir
      simp only [he]

end OneVault

section OneCall
variable {s : Service} {t u : Tree} {v : Bytes} {r : Loc} {F : Shelf}

/-- A call of `os` and what it is on the shelf end alike. -/
theorem change_shelf {x : Service.Resolved} {f : Service.Resolved → Option Tree}
    {b : Option Shelf} {w : Tree} {G : Shelf} (hf : Option.Rel (Left u r) (f x) b)
    (hw : Left u r w G) :
    Answer.done (Service.run t (.ok x) f).1 = (G.change (Shelf.ofOption b)).1 ∧
      Left u r ((changed (Service.run t (.ok x) f)).getD w) (G.change (Shelf.ofOption b)).2 := by
  generalize ho : f x = o at hf
  simp only [Service.run, ho]
  cases hf with
  | none => exact ⟨rfl, hw⟩
  | some h => exact ⟨rfl, h⟩

theorem change_resolved (rel : Bytes) {f : Service.Resolved → Option Tree}
    {g : List Bytes → Option Shelf} (hr : ∀ a ∈ r, Plain a) (hw : Left u r u F)
    (hf : ∀ q, (∀ a ∈ r ++ q, Plain a) → Option.Rel (Left u r) (f ⟨r, r ++ q, u⟩) (g q)) :
    Answer.done (Service.run t ((F.resolve rel).map fun q => ⟨r, r ++ q, u⟩) f).1 =
        (F.change ((F.resolve rel).bind fun q => Shelf.ofOption (g q))).1 ∧
      Left u r ((changed (Service.run t ((F.resolve rel).map fun q => ⟨r, r ++ q, u⟩) f)).getD u)
        (F.change ((F.resolve rel).bind fun q => Shelf.ofOption (g q))).2 := by
  cases hq : F.resolve rel with
  | error e => exact ⟨rfl, hw⟩
  | ok q => exact change_shelf (hf q (Shelf.resolve_plain hr hq)) hw

theorem read_getD {α : Type} (res : Except Err α) {rel : Bytes}
    (hres : s.resolve t v rel = (F.resolve rel).map fun q => ⟨r, r ++ q, u⟩) :
    (s.read t v rel res).getD u = u := by
  unfold Service.read
  rw [hres]
  cases F.resolve rel <;> cases res <;> rfl

theorem rename_failed (h : Shows t r F) (ht : t.Rooted) (hl : t.LinkFree) {q : Loc}
    (hp : ∀ a ∈ r ++ q, Plain a) :
    Left t r ((t.mkdirAll (r ++ q).dropLast).getD t) ((F.makeAll q.dropLast).getD F) := by
  rcases List.eq_nil_or_concat' q with rfl | ⟨m, n, rfl⟩
  · rw [List.append_nil] at hp ⊢
    obtain ⟨u, hu, hleft, -⟩ := mkdirAll_root h ht hl hp
    rw [hu, List.dropLast_nil, F.makeAll_nil]
    exact hleft
  · rw [dropLast_append_concat, List.dropLast_concat]
    have hmk := makeAll_shelf (q := m) h ht hl fun a ha => hp a (by simp at ha ⊢; tauto)
    generalize t.mkdirAll (r ++ m) = o at hmk
    generalize F.makeAll m = b at hmk
    cases hmk with
    | none => exact h.left ht hl
    | some h => exact h

/-- A call on a vault answers as on its shelf, and leaves what is on the shelf then. -/
theorem serve_shelf (hv : s.vaultRoot v = .ok r) (hr : ∀ a ∈ r, Plain a) (h : Left t r t F)
    (c : Call) : (s.serve t (v, c)).1 = (F.serve c).1 ∧
      Left t r (s.serve t (v, c)).2 (F.serve c).2 := by
  obtain ⟨u, hu, hleft, hshow⟩ := h.dir_of_makes hr
  have ht := hleft.rooted
  have hl := hleft.linkFree
  have hstay : Left u r u F := hshow.left ht hl
  have hens : s.ensureVault t v = .ok (r, u) := by simp only [Service.ensureVault, hv, hu]
  have hres := resolve_shelf hv hr hu hshow ht hl
  cases c with
  | readFile rel =>
    refine ⟨congrArg Answer.content (readFile_shelf hv hr hu hshow ht hl rel), ?_⟩
    simp only [Service.serve, Call.after, Call.failed, hens, read_getD _ (hres rel)]
    exact hleft
  | list rel =>
    refine ⟨congrArg Answer.entries (list_shelf hv hr hu hshow ht hl rel), ?_⟩
    simp only [Service.serve, Call.after, Call.failed, hens, read_getD _ (hres rel)]
    exact hleft
  | stat rel =>
    refine ⟨congrArg Answer.info (stat_shelf hv hr hu hshow ht hl rel), ?_⟩
    simp only [Service.serve, Call.after, Call.failed, hens, read_getD _ (hres rel)]
    exact hleft
  | writeFile rel data =>
    have hc := change_resolved (t := t) rel (f := fun x =>
      (x.tree.mkdirAll x.full.dropLast).bind fun t => t.writeFile x.full data) hr hstay
      fun q hq => writeFile_shelf hshow ht hl hq data
    simp only [Service.serve, Call.answer, Call.after, Call.failed, Service.writeFile, hens, hres]
    exact ⟨hc.1, hleft.trans hc.2⟩
  | mkdir rel =>
    have hc := change_resolved (t := t) rel (f := fun x => x.tree.mkdirAll x.full) hr
      hstay fun q hq => makeAll_shelf hshow ht hl hq
    simp only [Service.serve, Call.answer, Call.after, Call.failed, Service.mkdir, hens, hres]
    exact ⟨hc.1, hleft.trans hc.2⟩
  | rename oldRel newRel =>
    -- the second path is resolved in the tree that the first one was resolved in
    obtain ⟨w, hw, hleft', hshow'⟩ := hstay.dir_of_makes hr
    have hres' := resolve_shelf hv hr hw hshow' hleft'.rooted hleft'.linkFree
    simp only [Service.serve, Call.answer, Call.after, Call.failed, Service.rename, hens, hres,
      Shelf.serve]
    cases hp : F.resolve oldRel with
    | error e => exact ⟨rfl, hleft⟩
    | ok p =>
      simp only [Except.map, hres']
      cases hq : F.resolve newRel with
      | error e => exact ⟨rfl, hleft⟩
      | ok q =>
        have hpl := Shelf.resolve_plain hr hp
        have hql := Shelf.resolve_plain hr hq
        have hmoved := rename_shelf hshow' hleft'.rooted hleft'.linkFree hpl hql
        have hmade := rename_failed hshow' hleft'.rooted hleft'.linkFree hql
        have hc := change_shelf (t := t) (x := ⟨r, r ++ q, w⟩) (f := fun x =>
          (x.tree.mkdirAll x.full.dropLast).bind fun t => t.rename (r ++ p) x.full) hmoved hmade
        exact ⟨hc.1, (hleft.trans hleft').trans hc.2⟩
  | delete rel =>
    have hc := change_resolved (t := t) rel (f := fun x => x.tree.removeAll x.full) hr
      hstay fun q hq => removeAll_shelf hshow ht hl hq
    simp only [Service.serve, Call.answer, Call.after, Call.failed, Service.delete, hens, hres]
    exact ⟨hc.1, hleft.trans hc.2⟩

/-- What a method that changes files is as a call; where it fails it changes nothing. -/
structure Service.Performs (s : Service) (v : Bytes) (c : Call)
    (g : Tree → Except Err Unit × Tree) : Prop where
  answer : ∀ t, c.answer s t v = .done (g t).1
  after : ∀ t, c.after s t v = changed (g t)
  fail : ∀ {t e u}, g t = (.error e, u) → u = t

theorem writeFile_performs (s : Service) (v rel data : Bytes) :
    s.Performs v (.writeFile rel data) fun t => s.writeFile t v rel data :=
  ⟨fun _ => rfl, fun _ => rfl, Service.run_error⟩

theorem mkdir_performs (s : Service) (v rel : Bytes) :
    s.Performs v (.mkdir rel) fun t => s.mkdir t v rel :=
  ⟨fun _ => rfl, fun _ => rfl, Service.run_error⟩

theorem rename_performs (s : Service) (v oldRel newRel : Bytes) :
    s.Performs v (.rename oldRel newRel) fun t => s.rename t v oldRel newRel :=
  ⟨fun _ => rfl, fun _ => rfl, Service.rename_error⟩

theorem delete_performs (s : Service) (v rel : Bytes) :
    s.Performs v (.delete rel) fun t => s.delete t v rel :=
  ⟨fun _ => rfl, fun _ => rfl, Service.run_error⟩

/-- A method that succeeds has done on the shelf what the call does there. -/
theorem Service.Performs.serve_ok {c : Call} {g : Tree → Except Err Unit × Tree}
    (hg : s.Performs v c g) (hv : s.vaultRoot v = .ok r) (hr : ∀ a ∈ r, Plain a)
    (h : Left t r u F) (hok : (g u).1 = .ok ()) :
    (F.serve c).1 = .done (.ok ()) ∧ Left t r (g u).2 (F.serve c).2 := by
  obtain ⟨hanswer, hleft⟩ := serve_shelf hv hr h.here c
  have hgu : g u = (.ok (), (g u).2) := Prod.ext hok rfl
  refine ⟨?_, ?_⟩
  · rw [← hanswer, ← hok]
    exact hg.answer u
  · rw [Service.serve, hg.after, hgu] at hleft
    exact h.trans hleft

/-- The call goes through, and turns the one shelf into the other. -/
def Shelf.Does (c : Call) (F G : Shelf) : Prop := F.serve c = (.done (.ok ()), G)

/-- A method carries out its call. -/
theorem Service.Performs.carries {c : Call} {g : Tree → Except Err Unit × Tree}
    (hg : s.Performs v c g) (hv : s.vaultRoot v = .ok r) (hr : ∀ a ∈ r, Plain a) :
    Carries (Left t r) Shelf.Does (fun x => x = .ok ()) [c] g := by
  intro u F hu
  rcases hx : g u with ⟨e | ⟨⟩, w⟩
  · refine .refused (by simp) ?_
    rwa [hg.fail hx]
  · obtain ⟨hdone, hleft⟩ := hg.serve_ok hv hr hu (congrArg Prod.fst hx)
    rw [hx] at hleft
    exact .one (Prod.ext hdone rfl) hleft

end OneCall

/-! ### All vaults -/

/-- The shelf of what stands at and below a place; the place itself may be missing. -/
def Tree.shelf (t : Tree) (ht : t.Rooted) (r : Loc) : Shelf where
  entry q := if q = [] then some .folder else (t.node (r ++ q)).bind Node.entry
  root := if_pos rfl
  parent := by
    intro p n hs
    rw [if_neg (by simp)] at hs
    by_cases hp : p = []
    · rw [if_pos hp]
    · obtain ⟨x, hx⟩ := Option.isSome_iff_exists.mp hs
      obtain ⟨y, hy, -⟩ := Option.bind_eq_some_iff.mp hx
      have hd : t.node (r ++ p) = some .dir := ht.parent (n := n) (by
        rw [List.append_assoc, hy]
        rfl)
      rw [if_neg hp, hd]
      rfl

theorem Left.shelf_eq {t u : Tree} {r : Loc} {F : Shelf} (h : Left t r u F) (hu : u.Rooted) :
    u.shelf hu r = F := by
  ext1
  funext q
  by_cases hq : q = []
  · rw [hq, F.root, (u.shelf hu r).root]
  · exact (if_neg hq).trans (h.holds q hq)

/-- Vaults of which none lies in another one. -/
structure Site (s : Service) (ι : Type*) where
  path : ι → Bytes
  place : ι → Loc
  place_eq : ∀ i, s.vaultRoot (path i) = .ok (place i)
  plain : ∀ i, ∀ a ∈ place i, Plain a
  apart : ∀ {i j}, place i <+: place j → i = j

namespace Site
variable {s : Service} {ι : Type*} (S : Site s ι) {t u : Tree} {i : ι}

/-- A tree without links in which no file stands in the way of a vault. -/
structure Open (t : Tree) : Prop where
  rooted : t.Rooted
  linkFree : t.LinkFree
  above : ∀ i p, p <+: S.place i → t.Passable p

/-- A call on a vault. -/
def step (t : Tree) (x : ι × Call) : (ι × Answer) × Tree :=
  ((x.1, (s.serve t (S.path x.1, x.2)).1), (s.serve t (S.path x.1, x.2)).2)

/-- Every vault holds what its shelf holds. -/
def Shelved (t : Tree) (σ : ι → Shelf) : Prop := ∀ i, Left t (S.place i) t (σ i)

variable {S}

theorem Open.shelved (h : S.Open t) : S.Shelved t fun i => t.shelf h.rooted (S.place i) :=
  fun i => ⟨h.rooted, h.linkFree, fun _ hq => (if_neg hq).symm, h.above i, fun _ _ _ => rfl⟩

theorem Shelved.open_ {σ : ι → Shelf} (h : S.Shelved t σ) (i : ι) : S.Open t :=
  ⟨(h i).rooted, (h i).linkFree, fun j => (h j).above⟩

theorem Shelved.shelf_eq {σ : ι → Shelf} (h : S.Shelved t σ) (i : ι) (ht : t.Rooted) :
    t.shelf ht (S.place i) = σ i := (h i).shelf_eq ht

variable [DecidableEq ι]

/-- What one vault is changed to leaves the others as they are. -/
theorem Shelved.update {σ : ι → Shelf} {G : Shelf} (h : S.Shelved t σ)
    (hu : Left t (S.place i) u G) : S.Shelved u (Function.update σ i G) := by
  intro j
  by_cases hij : j = i
  · subst hij
    rw [Function.update_self]
    exact ⟨hu.rooted, hu.linkFree, hu.holds, hu.above, fun _ _ _ => rfl⟩
  · rw [Function.update_of_ne hij]
    have hij' : ¬ S.place i <+: S.place j := fun h => hij (S.apart h).symm
    have hji : ¬ S.place j <+: S.place i := fun h => hij (S.apart h)
    refine ⟨hu.rooted, hu.linkFree, fun q hq => ?_, fun p hp => ?_, fun _ _ _ => rfl⟩
    · rw [hu.frame]
      · exact (h j).holds q hq
      · intro hle
        rcases List.prefix_or_prefix_of_prefix hle (List.prefix_append (S.place j) q) with h | h
        · exact hij' h
        · exact hji h
      · exact fun hle => hji ((List.prefix_append _ q).trans hle)
    · by_cases hpi : p <+: S.place i
      · exact hu.above p hpi
      · rw [Tree.Passable, hu.frame p (fun hle => hij' (hle.trans hp)) hpi]
        exact (h j).above p hp

theorem step_shelved {σ : ι → Shelf} (h : S.Shelved t σ) (x : ι × Call) :
    (S.step t x).1 = (each Shelf.serve σ x).1 ∧
      S.Shelved (S.step t x).2 (each Shelf.serve σ x).2 := by
  obtain ⟨i, c⟩ := x
  obtain ⟨ha, hleft⟩ := serve_shelf (S.place_eq i) (S.plain i) (h i) c
  exact ⟨congrArg (Prod.mk i) ha, h.update hleft⟩

/-- In every run of calls on the vaults each one answers, and ends up, as a shelf that nothing
but its own calls ever touched. -/
theorem serves_apart (h : S.Open t) (calls : List (ι × Call)) (i : ι) :
    let alone := serve Shelf.serve (t.shelf h.rooted (S.place i)) (only i calls)
    only i (serve S.step t calls).1 = alone.1 ∧
      ∃ h' : S.Open (serve S.step t calls).2,
        (serve S.step t calls).2.shelf h'.rooted (S.place i) = alone.2 := by
  obtain ⟨ha, hs⟩ := serve_sim (R := S.Shelved) (fun _ _ x hr => step_shelved hr x) h.shelved calls
  obtain ⟨hai, hsi⟩ := serve_each Shelf.serve (fun i => t.shelf h.rooted (S.place i)) calls i
  refine ⟨by rw [ha, hai], hs.open_ i, ?_⟩
  rw [hs.shelf_eq i, hsi]

end Site
end Mdock.Vault
