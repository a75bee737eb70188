import Mdock.Vault.Links
import Mdock.Vault.Service

/-! The entries a call of the vault service reads or changes, and when all of them lie in
the vault. -/
namespace Mdock.Vault
open Mdock.Go Mdock.Lib

/-- Inside the vault and not inside its `.git`. -/
def Contained (root l : Loc) : Prop := root <+: l ∧ ¬ root ++ [dotGit] <+: l

instance containedDecidable (root l : Loc) : Decidable (Contained root l) :=
  inferInstanceAs (Decidable (_ ∧ _))

theorem contained_self (root : Loc) : Contained root root := by
  refine ⟨List.prefix_rfl, fun h => ?_⟩
  have := h.length_le
  rw [List.length_append, List.length_singleton] at this
  omega

/-- Whatever is below an entry of the vault is contained like the entry. -/
theorem Contained.below {root l : Loc} (h : Contained root l) (hne : l ≠ root) {l' : Loc}
    (hl : l <+: l') : Contained root l' := by
  refine ⟨h.1.trans hl, fun hg => ?_⟩
  rcases List.prefix_or_prefix_of_prefix hl hg with hp | hp
  · obtain ⟨q, hq⟩ := hp
    rcases List.eq_nil_or_concat' q with rfl | ⟨q, a, rfl⟩
    · rw [List.append_nil] at hq
      exact h.2 (hq ▸ List.prefix_rfl)
    · rw [← List.append_assoc] at hq
      obtain ⟨hq, -⟩ := List.append_inj' hq rfl
      exact hne (List.IsPrefix.eq_of_length_le ⟨q, hq⟩ h.1.length_le)
  · exact h.2 hp

theorem Contained.child {root l : Loc} (h : Contained root l) {n : Bytes} (hn : n ≠ dotGit) :
    Contained root (l ++ [n]) := by
  by_cases hl : l = root
  · subst hl
    refine ⟨List.prefix_append l [n], fun hg => hn ?_⟩
    have he := hg.eq_of_length (by simp)
    exact (List.cons.inj (List.append_cancel_left he)).1.symm
  · exact h.below hl (List.prefix_append l [n])

/-- What lies above a contained place, from the vault's root down. -/
theorem Contained.above {root l : Loc} (h : Contained root l) {p : Loc} (hr : root <+: p)
    (hp : p <+: l) : Contained root p := ⟨hr, fun hg => h.2 (hg.trans hp)⟩

/-! ### Calls -/

inductive Call
  | readFile (rel : Bytes)
  | writeFile (rel data : Bytes)
  | mkdir (rel : Bytes)
  | rename (oldRel newRel : Bytes)
  | delete (rel : Bytes)
  | list (rel : Bytes)
  | stat (rel : Bytes)
  deriving DecidableEq

/-- The tree a call leaves that only reads; it may have made the root of the vault. -/
def Service.read {α : Type} (s : Service) (t : Tree) (v rel : Bytes) (res : Except Err α) :
    Option Tree :=
  match res, s.resolve t v rel with
  | .ok _, .ok r => some r.tree
  | _, _ => none

/-- The tree a change leaves. -/
def changed (res : Except Err Unit × Tree) : Option Tree :=
  match res with
  | (.ok (), t) => some t
  | (.error _, _) => none

/-- The tree a call leaves when it succeeds. -/
def Call.after (s : Service) (t : Tree) (v : Bytes) : Call → Option Tree
  | .readFile rel => s.read t v rel (s.readFile t v rel)
  | .list rel => s.read t v rel (s.list t v rel)
  | .stat rel => s.read t v rel (s.stat t v rel)
  | .writeFile rel data => changed (s.writeFile t v rel data)
  | .mkdir rel => changed (s.mkdir t v rel)
  | .rename oldRel newRel => changed (s.rename t v oldRel newRel)
  | .delete rel => changed (s.delete t v rel)

/-- The entries a call reads, or names to a call of `os` that changes something. -/
def Call.Uses (s : Service) (t : Tree) (v : Bytes) (l : Loc) : Call → Prop
  | .readFile rel | .stat rel => ∃ r n, s.resolve t v rel = .ok r ∧ r.tree.stat r.full = .ok (l, n)
  | .list rel => ∃ r d, s.resolve t v rel = .ok r ∧ r.tree.stat r.full = .ok (d, .dir) ∧
      (l = d ∨ ∃ n x, n ≠ dotGit ∧ (n, x) ∈ r.tree.children d ∧ l = d ++ [n])
  | .writeFile rel _ => s.Writes t v rel l
  | .mkdir rel => ∃ r u, s.resolve t v rel = .ok r ∧ r.tree.mkdirAll r.full = some u ∧
      u.walk true Tree.kernelLinks [] r.full = .ok l
  | .rename oldRel newRel => ∃ o n u, s.resolve t v oldRel = .ok o ∧
      s.resolve o.tree v newRel = .ok n ∧ n.tree.mkdirAll n.full.dropLast = some u ∧
      ((∃ p k, u.lstat o.full = .ok (p, k) ∧ p <+: l ∧ (u.node l).isSome) ∨
        u.walk false Tree.kernelLinks [] n.full = .ok l)
  | .delete _ => False

/-- The entries a call that succeeds reads, creates, changes or removes. -/
def Call.Touches (s : Service) (t : Tree) (v : Bytes) (c : Call) (l : Loc) : Prop :=
  (∃ t', c.after s t v = some t' ∧ t'.node l ≠ t.node l) ∨ c.Uses s t v l

/-- The place of the vault, its root resolved. -/
def Service.place (s : Service) (t : Tree) (v : Bytes) : Option Loc :=
  match s.ensureVault t v with
  | .error _ => none
  | .ok (root, t) => (t.evalSymlinks root).toOption

/-- Where the links among its paths lead a call. -/
def Call.Leads (s : Service) (t : Tree) (v : Bytes) : Call → Prop
  | .readFile rel | .list rel | .stat rel =>
    ∀ r, s.resolve t v rel = .ok r → ¬ r.root ++ [dotGit] <+: r.tree.leads r.full
  | .writeFile rel _ | .mkdir rel =>
    ∀ r, s.resolve t v rel = .ok r → Contained r.root (r.tree.leads r.full)
  | .rename oldRel newRel =>
    ∀ o n, s.resolve t v oldRel = .ok o → s.resolve o.tree v newRel = .ok n →
      Contained n.root (n.tree.leads n.full.dropLast) ∧
      ∀ u p k, n.tree.mkdirAll n.full.dropLast = some u → u.lstat o.full = .ok (p, k) →
        Contained n.root p
  | .delete rel =>
    ∀ r, s.resolve t v rel = .ok r →
      if r.full = r.root then ∀ e ∈ r.tree.rows, ¬ r.root ++ [dotGit] <+: e.1
      else ∀ p n, r.tree.lstat r.full = .ok (p, n) → ¬ r.root ++ [dotGit] <+: p

/-- All that the directory of the vault lacks is its last name. -/
def Service.Placed (s : Service) (t : Tree) (v : Bytes) : Prop :=
  ∀ root, s.vaultRoot v = .ok root → ∃ l, t.walk true Tree.kernelLinks [] root = .ok l

/-! ### What `Resolve` makes sure of -/

theorem plain_of_isName {n : Bytes} (h : IsName n) : Plain n := ⟨h.1, h.2.1, h.2.2.1⟩

theorem plain_names {input rel : Bytes} (h : safeRelPath input = .ok rel) {n : Bytes}
    (hn : n ∈ names rel) : Plain n ∧ n ≠ dotGit := by
  rcases safeRelPath_ok h with rfl | ⟨-, hdot, hc, hg⟩
  · rw [names_dot] at hn
    cases hn
  · constructor
    · rcases hc.cases with ⟨hd, -⟩ | ⟨-, hall, -, -⟩
      · exact absurd hd hdot
      · exact plain_of_isName (hall n hn)
    · rintro rfl
      rw [names, if_neg hdot] at hn
      exact hg hn

/-- A resolved path: the vault it is in, and what the checks on links leave. -/
structure Service.Resolves (s : Service) (t : Tree) (v : Bytes) (r : Service.Resolved)
    (root q ns : Loc) : Prop where
  vault : s.vaultRoot v = .ok root
  make : t.mkdirAll root = some r.tree
  made : Tree.Made t root r.tree q
  root_eq : r.root = t.leads root ++ q
  full_eq : r.full = r.root ++ ns
  plain : ∀ n ∈ ns, Plain n ∧ n ≠ dotGit
  parent : ns ≠ [] → ∀ l, r.tree.evalSymlinks r.full.dropLast = .ok l → r.root <+: l
  target : ns ≠ [] → ∀ l, r.tree.evalSymlinks r.full = .ok l → r.root <+: l

theorem ensureInside_ok {root path : Loc} (h : ensureInside root path = .ok ()) :
    root <+: path := by
  unfold ensureInside at h
  split at h
  · rename_i hp
    exact List.isPrefixOf_iff_prefix.mp hp
  · cases h

theorem evalSymlinks_of_walk {t : Tree} {path l : Loc}
    (hw : t.walk true Tree.kernelLinks [] path = .ok l) (hn : (t.node l).isSome) :
    t.evalSymlinks path = .ok l := by
  obtain ⟨j, hj, hW⟩ := Tree.walks_of_walk hw
  obtain ⟨x, hx⟩ := Option.isSome_iff_exists.mp hn
  have he : t.existing true Tree.evalLinks path = .ok (l, x) :=
    Tree.existing_eq_ok.mpr ⟨hW.walk (hj.trans (by decide)), hx⟩
  simp [Tree.evalSymlinks, he, Except.map]

theorem checkLinks_ok {t : Tree} {root full : Loc} (h : Service.checkLinks t root full = .ok ()) :
    (∀ l, t.evalSymlinks full.dropLast = .ok l → root <+: l) ∧
      ∀ l, t.evalSymlinks full = .ok l → root <+: l := by
  unfold Service.checkLinks at h
  constructor
  · intro parent hp
    simp only [hp] at h
    split at h
    · cases h
    · rename_i hin
      exact ensureInside_ok hin
  · intro eval he
    simp only [he] at h
    split at h
    · exact ensureInside_ok h
    · cases h
    · split at h
      · cases h
      · exact ensureInside_ok h

theorem vaultRoot_plain {s : Service} (hs : ∀ n ∈ s.root, Plain n) {v : Bytes} {root : Loc}
    (h : s.vaultRoot v = .ok root) {n : Bytes} (hn : n ∈ root) : Plain n := by
  unfold Service.vaultRoot at h
  split at h
  · cases h
  · rename_i rel hrel
    cases h
    rcases List.mem_append.mp hn with hn | hn
    · exact hs n hn
    · exact (plain_names hrel hn).1

theorem ensureVault_ok {s : Service} {t u : Tree} {v : Bytes} {root : Loc}
    (h : s.ensureVault t v = .ok (root, u)) :
    s.vaultRoot v = .ok root ∧ t.mkdirAll root = some u := by
  unfold Service.ensureVault at h
  split at h
  · cases h
  · rename_i hv
    split at h
    · cases h
    · rename_i hm
      cases h
      exact ⟨hv, hm⟩

/-- Where the root of a vault leads once it is made. -/
theorem made_eval {t u : Tree} {root q : Loc} (h : Tree.Made t root u q) :
    u.evalSymlinks root = .ok (t.leads root ++ q) := by
  obtain ⟨j, hj, hW⟩ := h.walks
  exact evalSymlinks_of_walk (hW.walk hj) (by rw [h.dir]; rfl)

section Resolving
variable {s : Service} {t : Tree} {v rel : Bytes} {r : Service.Resolved}

theorem resolve_resolves (hs : ∀ n ∈ s.root, Plain n) (ht : t.Rooted)
    (h : s.resolve t v rel = .ok r) :
    ∃ root q ns, s.Resolves t v r root q ns ∧ s.place t v = some r.root := by
  unfold Service.resolve at h
  cases he : s.ensureVault t v with
  | error e =>
    rw [he] at h
    cases h
  | ok a =>
    obtain ⟨root, u⟩ := a
    obtain ⟨hv, hm⟩ := ensureVault_ok he
    obtain ⟨q, hq⟩ := Tree.mkdirAll_made ht (fun n hn => vaultRoot_plain hs hv hn) hm
    have heval := made_eval hq
    have hplace : s.place t v = some (t.leads root ++ q) := by
      simp [Service.place, he, heval, Except.toOption]
    rw [he] at h
    simp only [heval] at h
    split at h
    · cases h
    · rename_i rel' hrel
      split at h
      · rename_i hdot
        cases h
        refine ⟨root, q, [], ⟨hv, hm, hq, rfl, ?_, by simp, by simp, by simp⟩, hplace⟩
        rw [hdot, names_dot]
      · split at h
        · cases h
        · rename_i hc
          cases h
          obtain ⟨hparent, htarget⟩ := checkLinks_ok hc
          exact ⟨root, q, names rel', ⟨hv, hm, hq, rfl, rfl, fun n hn => plain_names hrel hn,
            fun _ => hparent, fun _ => htarget⟩, hplace⟩

end Resolving

section Resolved
variable {s : Service} {t : Tree} {v : Bytes} {r : Service.Resolved} {root q ns : Loc}

theorem Service.Resolves.dir (h : s.Resolves t v r root q ns) : r.tree.node r.root = some .dir := by
  rw [h.root_eq]
  exact h.made.dir

theorem Service.Resolves.self (h : s.Resolves t v r root q ns) {follow : Bool} :
    r.tree.walk follow Tree.kernelLinks [] r.root = .ok r.root :=
  (h.made.rooted.walks_self h.dir).walk (Nat.zero_le _)

/-- Only places on the way to the vault are new. -/
theorem Service.Resolves.old (h : s.Resolves t v r root q ns) {l : Loc} (hl : ¬ l <+: r.root) :
    r.tree.node l = t.node l := by
  by_contra hne
  obtain ⟨p, hp, rfl⟩ := h.made.new hne
  rw [h.root_eq] at hl
  exact hl (List.prefix_append_right_inj _ |>.mpr hp)

/-- What `EnsureVault` makes is contained where it makes nothing but the vault itself. -/
theorem Service.Resolves.placed (h : s.Resolves t v r root q ns) :
    s.Placed t v ↔ ∀ l, r.tree.node l ≠ t.node l → Contained r.root l := by
  constructor
  · intro hp l hne
    obtain ⟨l', hw⟩ := hp root h.vault
    obtain ⟨j, hj, hW⟩ := Tree.walks_of_walk hw
    obtain ⟨j', hj', hW'⟩ := h.made.walks
    have hq := Tree.walks_end (hW.grown h.made.grown) (hW'.walk hj')
    rw [Tree.leads_of_ok hw] at hq
    obtain rfl : q = [] := by simpa using hq
    obtain ⟨p, hp', rfl⟩ := h.made.new hne
    obtain rfl : p = [] := List.prefix_nil.mp hp'
    rw [← h.root_eq]
    exact contained_self _
  · intro hall root' hv
    obtain rfl : root = root' := Except.ok.inj (h.vault.symm.trans hv)
    by_cases hq : q = []
    · exact ⟨_, h.made.whole hq⟩
    · have hnone := h.made.missing hq
      have hc := (hall (t.leads root) (by rw [h.made.leads_dir, hnone]; simp)).1
      rw [h.root_eq] at hc
      have := hc.length_le
      rw [List.length_append] at this
      exact absurd (List.length_eq_zero_iff.mp (by omega)) hq

/-- Below a contained place that is not there everything is contained. -/
theorem Service.Resolves.below (h : s.Resolves t v r root q ns) {D l : Loc}
    (hD : Contained r.root D) (hnone : r.tree.node D = none) (hl : D <+: l) :
    Contained r.root l := by
  refine hD.below (fun he => ?_) hl
  rw [he, h.dir] at hnone
  cases hnone

theorem Service.Resolves.was_none (h : s.Resolves t v r root q ns) {l : Loc}
    (hl : r.tree.node l = none) : t.node l = none := by
  cases hn : t.node l with
  | none => rfl
  | some x =>
    rw [h.made.grown.some hn] at hl
    cases hl

/-- What is there under a path of the vault is inside. -/
theorem Service.Resolves.inside (h : s.Resolves t v r root q ns) {l : Loc}
    (hw : r.tree.walk true Tree.kernelLinks [] r.full = .ok l) (hn : (r.tree.node l).isSome) :
    r.root <+: l := by
  by_cases hns : ns = []
  · rw [h.full_eq, hns, List.append_nil, h.self] at hw
    cases hw
    exact List.prefix_rfl
  · exact h.target hns l (evalSymlinks_of_walk hw hn)

theorem Service.Resolves.contained_iff (h : s.Resolves t v r root q ns) {l : Loc} {n : Node}
    (hst : r.tree.stat r.full = .ok (l, n)) :
    Contained r.root l ↔ ¬ r.root ++ [dotGit] <+: r.tree.leads r.full := by
  obtain ⟨hw, hn⟩ := Tree.existing_eq_ok.mp hst
  rw [Tree.leads_of_ok hw]
  exact and_iff_right (h.inside hw (by rw [hn]; rfl))

/-- A call that reads changes nothing but the root it may make. -/
theorem Service.Resolves.read_iff (h : s.Resolves t v r root q ns) {uses : Loc → Prop} :
    (∀ l, r.tree.node l ≠ t.node l ∨ uses l → Contained r.root l) ↔
      s.Placed t v ∧ ∀ l, uses l → Contained r.root l := by
  rw [h.placed]
  constructor
  · exact fun hall => ⟨fun l hl => hall l (.inl hl), fun l hl => hall l (.inr hl)⟩
  · rintro ⟨hnew, huses⟩ l (hl | hl)
    · exact hnew l hl
    · exact huses l hl

/-- The directories that `WriteFile` makes, and the place it writes to. -/
theorem write_place {T u : Tree} {full x : Loc} (hT : T.Rooted) (hp : ∀ n ∈ full, Plain n)
    (hm : T.mkdirAll full.dropLast = some u) (hw : u.walk true Tree.kernelLinks [] full = .ok x) :
    T.leads full <+: x ∧ (T.walk true Tree.kernelLinks [] full = .ok x ∨
        T.node (T.leads full) = none ∧ u.node (T.leads full) = some .dir) ∧
      ∀ l, u.node l ≠ T.node l → T.node (T.leads full) = none ∧ T.leads full <+: l := by
  obtain ⟨q, hq⟩ := Tree.mkdirAll_made hT (fun n hn => hp n (List.dropLast_subset full hn)) hm
  obtain ⟨j, hj, hW⟩ := Tree.walks_of_walk hw
  rcases List.eq_nil_or_concat' full with rfl | ⟨p, n, rfl⟩
  · rw [List.dropLast_nil] at hq
    have hsame := (hq.same (by rw [Tree.leads_of_ok (Tree.walk_nil T true _ [])]; simp [Tree.node])).2
    rw [Tree.walk_nil] at hw
    cases hw
    rw [Tree.leads_of_ok (Tree.walk_nil T true _ [])]
    exact ⟨List.prefix_rfl, .inl (Tree.walk_nil T true _ []), fun l hl => absurd (hsame l) hl⟩
  · rw [List.dropLast_concat] at hq
    cases hTw : T.walk true Tree.kernelLinks [] (p ++ [n]) with
    | ok D =>
      obtain ⟨j', hj', hW'⟩ := Tree.walks_of_walk hTw
      obtain ⟨i, m, i', h₁, h₂, hi⟩ := hW'.passes (by simp)
      have hdir := h₂.dir_of_ne_nil (by simp)
      have hsame := (hq.same (by rw [Tree.leads_of_ok (h₁.walk (by omega)), hdir]; simp)).2
      obtain rfl := Tree.walks_end (hW'.grown hq.grown) hw
      rw [Tree.leads_of_ok hTw]
      exact ⟨List.prefix_rfl, .inl rfl, fun l hl => absurd (hsame l) hl⟩
    | error e =>
      rw [Tree.leads_of_error hTw]
      have hnone : T.node (T.leads p) = none := by
        by_contra hD
        have hback : Tree.Grown u T := Tree.Grown.of_eq fun l => ((hq.same hD).2 l).symm
        rw [(hW.grown hback).walk hj] at hTw
        cases hTw
      obtain ⟨i, m, i', h₁, h₂, hi⟩ := hW.passes (by simp)
      obtain ⟨j', hj', hW'⟩ := hq.walks
      obtain rfl := Tree.walks_end h₁ (hW'.walk hj')
      obtain rfl := h₂.down_last (hp n (by simp)) (hq.fresh hT hnone n)
      refine ⟨⟨q ++ [n], by simp⟩, .inr ⟨hnone, hq.leads_dir⟩, fun l hl => ⟨hnone, ?_⟩⟩
      obtain ⟨p', -, rfl⟩ := hq.new hl
      exact List.prefix_append _ p'

theorem Service.Resolves.full_plain (h : s.Resolves t v r root q ns) {n : Bytes}
    (hn : n ∈ r.full) : Plain n := by
  rw [h.full_eq] at hn
  rcases List.mem_append.mp hn with hn | hn
  · exact h.made.rooted.plain_of_mem (by rw [h.dir]; rfl) hn
  · exact (h.plain n hn).1

/-- What `EnsureVault` makes is a directory that was missing. -/
theorem Service.Resolves.new_dir (h : s.Resolves t v r root q ns) {l : Loc}
    (hl : r.tree.node l ≠ t.node l) : r.tree.node l = some .dir ∧ t.node l = none := by
  rcases h.made.grown l with he | ⟨hn, hd⟩
  · exact absurd he hl
  · exact ⟨hd, hn⟩

theorem Service.Resolves.writeFile_iff (h : s.Resolves t v r root q ns) {u t' : Tree} {x : Loc}
    {n : Option Node} (hm : r.tree.mkdirAll r.full.dropLast = some u)
    (hw : u.walk true Tree.kernelLinks [] r.full = .ok x)
    (ht' : ∀ l, t'.node l = if l = x then n else u.node l) :
    (∀ l, t'.node l ≠ t.node l ∨ l = x → Contained r.root l) ↔
      s.Placed t v ∧ Contained r.root (r.tree.leads r.full) := by
  have hplain : ∀ n ∈ r.full.dropLast, Plain n := fun n hn =>
    h.full_plain (List.dropLast_subset r.full hn)
  obtain ⟨q', hq'⟩ := Tree.mkdirAll_made h.made.rooted hplain hm
  obtain ⟨hpre, hlead, hnew⟩ := write_place h.made.rooted (fun n => h.full_plain) hm hw
  rw [h.placed]
  constructor
  · intro hall
    have hdir : ∀ l, u.node l = some .dir → t.node l = none → Contained r.root l := by
      intro l hd hn
      refine hall l ?_
      by_cases hx : l = x
      · exact .inr hx
      · rw [ht', if_neg hx, hd, hn]
        exact .inl (by simp)
    refine ⟨fun l hl => ?_, ?_⟩
    · exact hdir l (hq'.grown.some (h.new_dir hl).1) (h.new_dir hl).2
    · rcases hlead with hTx | ⟨hnone, hd⟩
      · exact Tree.leads_of_ok hTx ▸ hall x (.inr rfl)
      · exact hdir _ hd (h.was_none hnone)
  · rintro ⟨hroot, hc⟩ l hl
    have hx : Contained r.root x := by
      rcases hlead with hTx | ⟨hnone, -⟩
      · exact Tree.leads_of_ok hTx ▸ hc
      · exact h.below hc hnone hpre
    by_cases hlx : l = x
    · exact hlx ▸ hx
    · rcases hl with hl | hl
      · rw [ht', if_neg hlx] at hl
        by_cases hu : u.node l = r.tree.node l
        · exact hroot l (hu ▸ hl)
        · exact h.below hc (hnew l hu).1 (hnew l hu).2
      · exact absurd hl hlx

theorem Service.Resolves.mkdir_iff (h : s.Resolves t v r root q ns) {u : Tree}
    (hm : r.tree.mkdirAll r.full = some u) :
    (∀ l, u.node l ≠ t.node l ∨ u.walk true Tree.kernelLinks [] r.full = .ok l →
        Contained r.root l) ↔
      s.Placed t v ∧ Contained r.root (r.tree.leads r.full) := by
  obtain ⟨q', hq'⟩ := Tree.mkdirAll_made h.made.rooted (fun n => h.full_plain) hm
  obtain ⟨j, hj, hW⟩ := hq'.walks
  have hw := hW.walk hj
  rw [h.placed]
  constructor
  · intro hall
    refine ⟨fun l hl => hall l (.inl ?_), ?_⟩
    · rw [hq'.grown.some (h.new_dir hl).1, (h.new_dir hl).2]
      simp
    · by_cases hq : q' = []
      · rw [hq, List.append_nil] at hw
        exact hall _ (.inr hw)
      · refine hall _ (.inl ?_)
        rw [hq'.leads_dir, h.was_none (hq'.missing hq)]
        simp
  · rintro ⟨hroot, hc⟩ l hl
    rcases hl with hl | hl
    · by_cases hu : u.node l = r.tree.node l
      · exact hroot l (hu ▸ hl)
      · obtain ⟨p, hp, rfl⟩ := hq'.new hu
        by_cases hq : q' = []
        · obtain rfl : p = [] := List.prefix_nil.mp (hq ▸ hp)
          rwa [List.append_nil]
        · exact h.below hc (hq'.missing hq) (List.prefix_append _ p)
    · rw [hw] at hl
      cases hl
      by_cases hq : q' = []
      · rwa [hq, List.append_nil]
      · exact h.below hc (hq'.missing hq) (List.prefix_append _ q')

theorem Service.Resolves.longer (h : s.Resolves t v r root q ns) {m l : Loc} {n : Bytes}
    (hm : r.root <+: m) (hl : m ++ [n] <+: l) : r.tree.node l = t.node l := by
  refine h.old fun hle => ?_
  have h₁ := hm.length_le
  have h₂ := (hl.trans hle).length_le
  rw [List.length_append, List.length_singleton] at h₂
  omega

/-- The entry a path of the vault names, when links there are not followed. -/
theorem Service.Resolves.named (h : s.Resolves t v r root q ns) (hns : ns ≠ []) {p : Loc}
    (hw : r.tree.walk false Tree.kernelLinks [] r.full = .ok p) :
    ∃ m n, p = m ++ [n] ∧ n ≠ dotGit ∧ r.root <+: m ∧ r.tree.node m = some .dir := by
  rcases List.eq_nil_or_concat' ns with rfl | ⟨ns', n, rfl⟩
  · exact absurd rfl hns
  · obtain ⟨hplain, hgit⟩ := h.plain n (by simp)
    have hfull : r.full = (r.root ++ ns') ++ [n] := by rw [h.full_eq, List.append_assoc]
    obtain ⟨j, hj, hW⟩ := Tree.walks_of_walk hw
    rw [hfull] at hW
    obtain ⟨m, hm, hd, rfl⟩ := (Tree.walks_last hplain).mp hW
    refine ⟨m, n, rfl, hgit, h.parent hns m ?_, hd⟩
    rw [hfull, List.dropLast_concat]
    exact evalSymlinks_of_walk (hm.walk hj) (by rw [hd]; rfl)

theorem Service.Resolves.full_eq_root (h : s.Resolves t v r root q ns) :
    r.full = r.root ↔ ns = [] := by
  simp [h.full_eq]

/-- Removing the whole vault removes its `.git`. -/
theorem Service.Resolves.delete_root (h : s.Resolves t v r root q ns) {t' : Tree}
    (ht' : ∀ l, t'.node l = if r.root <+: l ∧ l ≠ [] then none else r.tree.node l) :
    (∀ l, t'.node l ≠ t.node l → Contained r.root l) ↔
      s.Placed t v ∧ ∀ e ∈ r.tree.rows, ¬ r.root ++ [dotGit] <+: e.1 := by
  rw [h.placed]
  constructor
  · intro hall
    constructor
    · intro l hl
      by_cases hin : r.root <+: l
      · refine ⟨hin, fun hg => ?_⟩
        exact hl (h.longer List.prefix_rfl hg)
      · exact hall l (by rwa [ht', if_neg fun hp => hin hp.1])
    · intro e he hg
      have hne : e.1 ≠ [] := by
        intro hnil
        simp [hnil] at hg
      have hold : t.node e.1 = some e.2 := by
        rw [← h.longer List.prefix_rfl hg, Tree.node_of_mem he hne]
      refine (hall e.1 ?_).2 hg
      rw [ht', if_pos ⟨(List.prefix_append _ _).trans hg, hne⟩, hold]
      simp
  · rintro ⟨hroot, hgit⟩ l hl
    by_cases hin : r.root <+: l ∧ l ≠ []
    · refine ⟨hin.1, fun hg => ?_⟩
      rw [ht', if_pos hin, ← h.longer List.prefix_rfl hg] at hl
      obtain ⟨x, hx⟩ := Option.ne_none_iff_exists'.mp (Ne.symm hl)
      exact hgit _ (Tree.mem_of_node hin.2 hx) hg
    · rw [ht', if_neg hin] at hl
      exact hroot l hl

theorem Service.Resolves.delete_iff (h : s.Resolves t v r root q ns) {t' : Tree}
    (hrm : r.tree.removeAll r.full = some t') :
    (∀ l, t'.node l ≠ t.node l → Contained r.root l) ↔ s.Placed t v ∧
      if r.full = r.root then ∀ e ∈ r.tree.rows, ¬ r.root ++ [dotGit] <+: e.1
      else ∀ p n, r.tree.lstat r.full = .ok (p, n) → ¬ r.root ++ [dotGit] <+: p := by
  by_cases hns : ns = []
  · have hfull := h.full_eq_root.mpr hns
    rw [if_pos hfull]
    rcases Tree.removeAll_cases hrm with ⟨hw, -⟩ | ⟨p, hw, ht'⟩
    · rw [hfull, h.self] at hw
      cases hw
    · rw [hfull, h.self] at hw
      cases hw
      exact h.delete_root ht'
  · rw [if_neg fun he => hns (h.full_eq_root.mp he), h.placed]
    rcases Tree.removeAll_cases hrm with ⟨hw, rfl⟩ | ⟨p, hw, ht'⟩
    · refine (and_iff_left fun p n hl => ?_).symm
      rw [(Tree.existing_eq_ok.mp hl).1] at hw
      cases hw
    · obtain ⟨m, n, rfl, hgit, hm, hd⟩ := h.named hns hw
      have hlst : ∀ p x, r.tree.lstat r.full = .ok (p, x) → p = m ++ [n] ∧ r.tree.node p = some x := by
        intro p x hl
        obtain ⟨hw', hx⟩ := Tree.existing_eq_ok.mp hl
        exact ⟨Except.ok.inj (hw'.symm.trans hw), hx⟩
      constructor
      · intro hall
        refine ⟨fun l hl => hall l ?_, fun p x hl => ?_⟩
        · rwa [ht', if_neg fun hp => hl (h.longer hm hp.1)]
        · obtain ⟨rfl, hx⟩ := hlst p x hl
          refine (hall _ ?_).2
          rw [ht', if_pos ⟨List.prefix_rfl, by simp⟩, ← h.longer hm List.prefix_rfl, hx]
          simp
      · rintro ⟨hroot, hcond⟩ l hl
        by_cases hp : m ++ [n] <+: l ∧ l ≠ []
        · rw [ht', if_pos hp, ← h.longer hm hp.1] at hl
          obtain ⟨x, hx⟩ := Option.ne_none_iff_exists'.mp (Ne.symm hl)
          have hthere : (r.tree.node (m ++ [n])).isSome := by
            by_cases he : m ++ [n] = l
            · rw [he, hx]
              rfl
            · rw [h.made.rooted.dir_of_prefix (by rw [hx]; rfl) hp.1 he]
              rfl
          obtain ⟨y, hy⟩ := Option.isSome_iff_exists.mp hthere
          have hc := hcond _ y (Tree.existing_eq_ok.mpr ⟨hw, hy⟩)
          have hmn : Contained r.root (m ++ [n]) := ⟨hm.trans (List.prefix_append m [n]), hc⟩
          refine hmn.below (fun he => ?_) hp.1
          have hlen := hm.length_le
          rw [← he, List.length_append, List.length_singleton] at hlen
          omega
        · rw [ht', if_neg hp] at hl
          exact hroot l hl

/-- The same vault resolved again is where it was. -/
theorem Service.Resolves.again (h : s.Resolves t v r root q ns) (hs : ∀ n ∈ s.root, Plain n)
    {rel : Bytes} {r' : Service.Resolved} (h' : s.resolve r.tree v rel = .ok r') :
    r'.tree = r.tree ∧ r'.root = r.root ∧ ∃ ns', s.Resolves t v r' root q ns' := by
  obtain ⟨root', q', ns', hr, -⟩ := resolve_resolves hs h.made.rooted h'
  obtain rfl : root = root' := Except.ok.inj (h.vault.symm.trans hr.vault)
  obtain ⟨j, hj, hW⟩ := h.made.walks
  have hw := hW.walk hj
  have htree : r'.tree = r.tree := by
    have hm := hr.make
    rw [Tree.mkdirAll_of_dir hw h.made.dir] at hm
    exact (Option.some.inj hm).symm
  have hroot : r'.root = r.root := by
    obtain rfl := (hr.made.same (by rw [Tree.leads_of_ok hw, h.made.dir]; simp)).1
    rw [hr.root_eq, Tree.leads_of_ok hw, h.root_eq, List.append_nil]
  exact ⟨htree, hroot, ns', h.vault, htree ▸ h.make, htree ▸ h.made, hroot ▸ h.root_eq,
    hr.full_eq, hr.plain, hr.parent, hr.target⟩

/-- No vault is renamed to its own root. -/
theorem Service.Resolves.rename_below {o : Service.Resolved} {ns' : Loc}
    (h : s.Resolves t v r root q ns') (ho : s.Resolves t v o root q ns) (htree : o.tree = r.tree)
    (hroot : o.root = r.root) {u t' : Tree} (hm : r.tree.mkdirAll r.full.dropLast = some u)
    (hr : u.rename o.full r.full = some t') : ns' ≠ [] := by
  intro hnil
  have hfull := h.full_eq_root.mpr hnil
  obtain ⟨src, k, dst, hsrc, hdst, hdir, -⟩ := Tree.rename_cases hr
  have hsame : r.tree.mkdirAll r.full.dropLast = some r.tree := by
    rw [hfull]
    rcases List.eq_nil_or_concat' r.root with he | ⟨p, a, he⟩
    · rw [he]
      exact Tree.mkdirAll_of_dir (Tree.walk_nil _ _ _ _) rfl
    · have hself : r.tree.walk true Tree.kernelLinks [] r.root = .ok r.root := h.self
      obtain ⟨j, hj, hW⟩ := Tree.walks_of_walk hself
      rw [he] at hW ⊢
      obtain ⟨i, m, i', h₁, h₂, hi⟩ := hW.passes (by simp)
      rw [List.dropLast_concat]
      exact Tree.mkdirAll_of_dir (h₁.walk (by omega)) (h₂.dir_of_ne_nil (by simp))
  obtain rfl : r.tree = u := Option.some.inj (hsame.symm.trans hm)
  rw [hfull, h.self] at hdst
  cases hdst
  obtain ⟨rfl, hne⟩ := hdir h.dir
  obtain ⟨hw, -⟩ := Tree.existing_eq_ok.mp hsrc
  rw [← htree] at hw
  have hns : ns ≠ [] := fun he => hne (by rw [ho.full_eq_root.mpr he, hfull, hroot])
  obtain ⟨m, a, he, -, hpre, -⟩ := ho.named hns hw
  have hlen := hpre.length_le
  rw [hroot, he, List.length_append, List.length_singleton] at hlen
  omega

/-- The new name is contained when what it leads to is. -/
theorem Service.Resolves.target_iff (h : s.Resolves t v r root q ns) {u : Tree} {p q' : Loc}
    {a : Bytes} (ha : Plain a ∧ a ≠ dotGit) (hfull : r.full = p ++ [a]) (hns : ns ≠ [])
    (hm : Tree.Made r.tree p u q') :
    Contained r.root (r.tree.leads p) ↔ Contained r.root (r.tree.leads p ++ q' ++ [a]) := by
  constructor
  · intro hc
    by_cases hq : q' = []
    · rw [hq, List.append_nil]
      exact hc.child ha.2
    · exact h.below hc (hm.missing hq) ⟨q' ++ [a], by rw [List.append_assoc]⟩
  · intro hc
    have hpre : r.tree.leads p <+: r.tree.leads p ++ q' ++ [a] := ⟨q' ++ [a], by simp⟩
    refine hc.above ?_ hpre
    by_cases hnone : r.tree.node (r.tree.leads p) = none
    · rcases List.prefix_or_prefix_of_prefix hc.1 hpre with hp | hp
      · exact hp
      · by_cases he : r.tree.leads p = r.root
        · rw [he]
        · have hd := h.made.rooted.dir_of_prefix (by rw [h.dir]; rfl) hp he
          rw [hnone] at hd
          cases hd
    · obtain ⟨rfl, -⟩ := hm.same hnone
      have hw := hm.whole rfl
      refine h.parent hns _ ?_
      rw [hfull, List.dropLast_concat]
      exact evalSymlinks_of_walk hw (Option.isSome_iff_ne_none.mpr hnone)

theorem Service.Resolves.rename_iff {o : Service.Resolved} {ns' : Loc}
    (h : s.Resolves t v r root q ns') (ho : s.Resolves t v o root q ns) (htree : o.tree = r.tree)
    (hroot : o.root = r.root) {u t' : Tree} (hm : r.tree.mkdirAll r.full.dropLast = some u)
    (hr : u.rename o.full r.full = some t') :
    (∀ l, t'.node l ≠ t.node l ∨
        ((∃ p k, u.lstat o.full = .ok (p, k) ∧ p <+: l ∧ (u.node l).isSome) ∨
          u.walk false Tree.kernelLinks [] r.full = .ok l) → Contained r.root l) ↔
      s.Placed t v ∧ Contained r.root (r.tree.leads r.full.dropLast) ∧
        ∀ p k, u.lstat o.full = .ok (p, k) → Contained r.root p := by
  have hns := h.rename_below ho htree hroot hm hr
  obtain ⟨src, k, dst, hsrc, hdst, hdir, hres⟩ := Tree.rename_cases hr
  obtain ⟨ns₁, a, rfl⟩ : ∃ ns₁ a, ns' = ns₁ ++ [a] := by
    rcases List.eq_nil_or_concat' ns' with he | he
    · exact absurd he hns
    · exact he
  have ha := h.plain a (by simp)
  have hfull : r.full = (r.root ++ ns₁) ++ [a] := by rw [h.full_eq, List.append_assoc]
  rw [hfull, List.dropLast_concat] at hm
  rw [hfull] at hdst
  obtain ⟨q', hq'⟩ := Tree.mkdirAll_made h.made.rooted
    (fun n hn => h.full_plain (by rw [hfull]; exact List.mem_append_left _ hn)) hm
  obtain ⟨j, hj, hW⟩ := hq'.walks
  obtain ⟨j', hj', hW'⟩ := Tree.walks_of_walk hdst
  obtain ⟨m, hm', hmd, rfl⟩ := (Tree.walks_last ha.1).mp hW'
  obtain rfl := Tree.walks_end hm' (hW.walk hj)
  have hiff := h.target_iff ha hfull hns hq'
  have hsrcu := (Tree.existing_eq_ok.mp hsrc).2
  have hmoved : ∀ l, t'.node l ≠ u.node l →
      src <+: l ∨ r.tree.leads (r.root ++ ns₁) ++ q' ++ [a] <+: l := by
    intro l hl
    by_contra hno
    obtain ⟨hs, hd⟩ := not_or.mp hno
    refine hl (Tree.rename_node hr (fun p x hp => ?_) fun p hp => ?_)
    · rwa [(Prod.mk.inj (Except.ok.inj (hp.symm.trans hsrc))).1]
    · rw [hfull, hdst] at hp
      rwa [← Except.ok.inj hp]
  rw [hfull, List.dropLast_concat, hiff, h.placed]
  constructor
  · intro hall
    have hdst' := hall _ (.inr (.inr hdst))
    refine ⟨fun l hl => ?_, hdst', fun p k' hp => ?_⟩
    · have hdir' := hq'.grown.some (h.new_dir hl).1
      have hle : l <+: r.root := by
        by_contra hno
        exact hl (h.old hno)
      by_cases hst : t'.node l = u.node l
      · refine hall l (.inl ?_)
        rw [hst, hdir', (h.new_dir hl).2]
        simp
      · rcases hmoved l hst with hp | hp
        · exact hall l (.inr (.inl ⟨src, k, hsrc, hp, by rw [hdir']; rfl⟩))
        · rw [hle.eq_of_length_le (hdst'.1.trans hp).length_le]
          exact contained_self _
    · obtain ⟨rfl, rfl⟩ := Prod.mk.inj (Except.ok.inj (hp.symm.trans hsrc))
      exact hall p (.inr (.inl ⟨p, k', hsrc, List.prefix_rfl, by rw [hsrcu]; rfl⟩))
  · rintro ⟨hnew, hcd, hcs⟩ l hl
    have hcD := hiff.mpr hcd
    have hdne : r.tree.leads (r.root ++ ns₁) ++ q' ++ [a] ≠ r.root := by
      intro he
      have hle := hcD.1.length_le
      have hlen := congrArg List.length he
      simp only [List.length_append, List.length_singleton] at hlen
      omega
    have hsne : src ≠ r.root := by
      rintro rfl
      have hk : k = .dir := by
        rw [hq'.grown.some h.dir] at hsrcu
        exact (Option.some.inj hsrcu).symm
      rcases hres with ⟨he, -⟩ | ⟨-, -, hsub, -⟩
      · exact hdne he.symm
      · exact (hsub hk).1 hcd.1
    have hbelow : ∀ l, src <+: l ∨ r.tree.leads (r.root ++ ns₁) ++ q' ++ [a] <+: l →
        Contained r.root l := by
      rintro l (hp | hp)
      · exact (hcs src k hsrc).below hsne hp
      · exact hcd.below hdne hp
    rcases hl with hl | ⟨p, k', hp, hpl, -⟩ | hl
    · by_cases hst : t'.node l = u.node l
      · by_cases hu : u.node l = r.tree.node l
        · exact hnew l (by rwa [← hu, ← hst])
        · obtain ⟨p, hp, rfl⟩ := hq'.new hu
          by_cases hq : q' = []
          · obtain rfl : p = [] := List.prefix_nil.mp (hq ▸ hp)
            rwa [List.append_nil]
          · exact h.below hcD (hq'.missing hq) (List.prefix_append _ p)
      · exact hbelow l (hmoved l hst)
    · obtain ⟨rfl, rfl⟩ := Prod.mk.inj (Except.ok.inj (hp.symm.trans hsrc))
      exact hbelow l (.inl hpl)
    · obtain rfl := Except.ok.inj (hdst.symm.trans hl)
      exact hcd

end Resolved

/-! ### Every call -/

theorem rooted_of_rows {t : Tree} (h : ∀ e ∈ t.rows, e.1 ≠ [] ∧
    t.node e.1.dropLast = some .dir ∧ Plain (e.1.getLast?.getD [])) : t.Rooted := by
  have hrow : ∀ {l n}, (t.node (l ++ [n])).isSome → t.node l = some .dir ∧ Plain n := by
    intro l n hs
    obtain ⟨x, hx⟩ := Option.isSome_iff_exists.mp hs
    obtain ⟨-, hd, hp⟩ := h _ (Tree.mem_of_node (by simp) hx)
    simpa using And.intro hd hp
  exact ⟨fun hs => (hrow hs).1, fun hs => (hrow hs).2⟩

theorem notes_rooted : notes.Rooted := rooted_of_rows (by decide +kernel)

theorem read_ok {α : Type} {s : Service} {t t' : Tree} {v rel : Bytes} {res : Except Err α}
    (h : s.read t v rel res = some t') :
    (∃ a, res = .ok a) ∧ ∃ r, s.resolve t v rel = .ok r ∧ r.tree = t' := by
  unfold Service.read at h
  split at h
  · rename_i a r hr
    exact ⟨⟨a, rfl⟩, r, hr, Option.some.inj h⟩
  · cases h

theorem changed_ok {res : Except Err Unit × Tree} {t' : Tree} (h : changed res = some t') :
    res = (.ok (), t') := by
  unfold changed at h
  split at h
  · cases h
    rfl
  · cases h

theorem touches_iff {s : Service} {t t' : Tree} {v : Bytes} {c : Call}
    (h : c.after s t v = some t') (l : Loc) :
    c.Touches s t v l ↔ t'.node l ≠ t.node l ∨ c.Uses s t v l := by
  simp [Call.Touches, h]

theorem forall_ok {ε α : Type} {x : Except ε α} {a : α} (h : x = .ok a) {p : α → Prop} :
    (∀ b, x = .ok b → p b) ↔ p a := by
  simp [h]

theorem run_some {t t' : Tree} {r : Except Err Service.Resolved} {f : Service.Resolved → Option Tree}
    (h : changed (Service.run t r f) = some t') : ∃ a, r = .ok a ∧ f a = some t' :=
  Service.run_ok (changed_ok h)

section Calls
variable {s : Service} {t t' : Tree} {v rel : Bytes} {r : Service.Resolved} {root q ns : Loc}

/-- What a call that looks at one entry uses. -/
theorem Service.Resolves.looks_iff (h : s.Resolves t v r root q ns) {l₀ : Loc} {n₀ : Node}
    (hr : s.resolve t v rel = .ok r) (hst : r.tree.stat r.full = .ok (l₀, n₀)) :
    (∀ l, (∃ r n, s.resolve t v rel = .ok r ∧ r.tree.stat r.full = .ok (l, n)) →
        Contained r.root l) ↔
      ∀ r, s.resolve t v rel = .ok r → ¬ r.root ++ [dotGit] <+: r.tree.leads r.full := by
  rw [forall_ok hr, ← h.contained_iff hst]
  constructor
  · exact fun hall => hall l₀ ⟨r, n₀, hr, hst⟩
  · rintro hc l ⟨r', n, hr', hl⟩
    obtain rfl := Except.ok.inj (hr.symm.trans hr')
    rwa [(Prod.mk.inj (Except.ok.inj (hl.symm.trans hst))).1]

theorem Service.Resolves.lists_iff (h : s.Resolves t v r root q ns) {d : Loc}
    (hr : s.resolve t v rel = .ok r) (hst : r.tree.stat r.full = .ok (d, .dir)) :
    (∀ l, (Call.list rel).Uses s t v l → Contained r.root l) ↔ (Call.list rel).Leads s t v := by
  rw [Call.Leads, forall_ok hr, ← h.contained_iff hst]
  constructor
  · exact fun hall => hall d ⟨r, d, hr, hst, .inl rfl⟩
  · rintro hc l ⟨r', d', hr', hl, hmem⟩
    obtain rfl := Except.ok.inj (hr.symm.trans hr')
    obtain ⟨rfl, -⟩ := Prod.mk.inj (Except.ok.inj (hl.symm.trans hst))
    rcases hmem with rfl | ⟨n, x, hn, -, rfl⟩
    · exact hc
    · exact hc.child hn

theorem readFile_stat {data : Bytes} (h : s.readFile t v rel = .ok data)
    (hr : s.resolve t v rel = .ok r) : ∃ l, r.tree.stat r.full = .ok (l, .file data) := by
  unfold Service.readFile at h
  rw [hr] at h
  simp only at h
  split at h
  · rename_i l d hst
    cases h
    exact ⟨l, hst⟩
  · cases h

theorem stat_stat {info : Info} (h : s.stat t v rel = .ok info)
    (hr : s.resolve t v rel = .ok r) : ∃ l n, r.tree.stat r.full = .ok (l, n) := by
  unfold Service.stat at h
  rw [hr] at h
  simp only at h
  split at h
  · cases h
  · rename_i l n hst
    exact ⟨l, n, hst⟩

theorem list_stat {entries : List Entry} (h : s.list t v rel = .ok entries)
    (hr : s.resolve t v rel = .ok r) : ∃ l, r.tree.stat r.full = .ok (l, .dir) := by
  unfold Service.list Tree.readDir at h
  rw [hr] at h
  simp only at h
  split at h
  · cases h
  · rename_i items hitems
    split at hitems
    · cases hitems
    · rename_i l hst
      exact ⟨l, hst⟩
    · cases hitems

theorem Service.Resolves.writes_iff (h : s.Resolves t v r root q ns) {u : Tree} {data : Bytes}
    (hr : s.resolve t v rel = .ok r) (hu : r.tree.mkdirAll r.full.dropLast = some u)
    (hw : u.writeFile r.full data = some t') :
    (∀ l, t'.node l ≠ t.node l ∨ (Call.writeFile rel data).Uses s t v l → Contained r.root l) ↔
      s.Placed t v ∧ (Call.writeFile rel data).Leads s t v := by
  obtain ⟨x, hx, hd, rfl⟩ := Tree.writeFile_cases hw
  have ht' := Tree.node_put (t := u) (Tree.ne_nil_of_not_dir hd) (.file data)
  have huses : ∀ l, (Call.writeFile rel data).Uses s t v l ↔ l = x := by
    intro l
    simp [Call.Uses, Service.Writes, hr, hu, hx, eq_comm]
  rw [Call.Leads, forall_ok hr, ← h.writeFile_iff hu hx ht']
  simp only [huses]

theorem Service.Resolves.makes_iff (h : s.Resolves t v r root q ns)
    (hr : s.resolve t v rel = .ok r) (hu : r.tree.mkdirAll r.full = some t') :
    (∀ l, t'.node l ≠ t.node l ∨ (Call.mkdir rel).Uses s t v l → Contained r.root l) ↔
      s.Placed t v ∧ (Call.mkdir rel).Leads s t v := by
  have huses : ∀ l, (Call.mkdir rel).Uses s t v l ↔
      t'.walk true Tree.kernelLinks [] r.full = .ok l := by
    intro l
    simp [Call.Uses, hr, hu]
  rw [Call.Leads, forall_ok hr, ← h.mkdir_iff hu]
  simp only [huses]

theorem Service.Resolves.removes_iff (h : s.Resolves t v r root q ns)
    (hr : s.resolve t v rel = .ok r) (hrm : r.tree.removeAll r.full = some t') :
    (∀ l, t'.node l ≠ t.node l ∨ (Call.delete rel).Uses s t v l → Contained r.root l) ↔
      s.Placed t v ∧ (Call.delete rel).Leads s t v := by
  have huses : ∀ l, ¬ (Call.delete rel).Uses s t v l := fun _ hu => hu
  rw [Call.Leads, forall_ok hr, ← h.delete_iff hrm]
  simp only [huses, or_false]

theorem Service.Resolves.moves_iff {n : Service.Resolved} {u : Tree} {newRel : Bytes}
    (h : s.Resolves t v r root q ns) (hs : ∀ n ∈ s.root, Plain n)
    (hr : s.resolve t v rel = .ok r) (hn : s.resolve r.tree v newRel = .ok n)
    (hu : n.tree.mkdirAll n.full.dropLast = some u) (hren : u.rename r.full n.full = some t') :
    (∀ l, t'.node l ≠ t.node l ∨ (Call.rename rel newRel).Uses s t v l → Contained r.root l) ↔
      s.Placed t v ∧ (Call.rename rel newRel).Leads s t v := by
  obtain ⟨htree, hroot, ns', hN⟩ := h.again hs hn
  have huses : ∀ l, (Call.rename rel newRel).Uses s t v l ↔
      (∃ p k, u.lstat r.full = .ok (p, k) ∧ p <+: l ∧ (u.node l).isSome) ∨
        u.walk false Tree.kernelLinks [] n.full = .ok l := by
    intro l
    simp [Call.Uses, hr, hn, hu]
  have hleads : (Call.rename rel newRel).Leads s t v ↔
      Contained n.root (n.tree.leads n.full.dropLast) ∧
        ∀ p k, u.lstat r.full = .ok (p, k) → Contained n.root p := by
    constructor
    · intro hall
      obtain ⟨hdst, hsrc⟩ := hall r n hr hn
      exact ⟨hdst, fun p k => hsrc u p k hu⟩
    · rintro ⟨hdst, hsrc⟩ o n' ho hn'
      obtain rfl := Except.ok.inj (hr.symm.trans ho)
      obtain rfl := Except.ok.inj (hn.symm.trans hn')
      refine ⟨hdst, fun u' p k hu' => ?_⟩
      obtain rfl := Option.some.inj (hu.symm.trans hu')
      exact hsrc p k
  rw [hleads, ← hN.rename_iff h htree.symm hroot.symm hu hren, hroot]
  simp only [huses]

end Calls

/-- A call of the service that succeeds keeps to the vault exactly if its parent directory is
there and no link leads it out of the vault or into `.git`. -/
theorem touches_contained_iff {s : Service} {t t' : Tree} {v : Bytes} {c : Call}
    (hs : ∀ n ∈ s.root, Plain n) (ht : t.Rooted) (h : c.after s t v = some t') :
    (∃ root, s.place t v = some root ∧ ∀ l, c.Touches s t v l → Contained root l) ↔
      s.Placed t v ∧ c.Leads s t v := by
  have hplace : ∀ {r : Service.Resolved}, s.place t v = some r.root →
      ((∃ root, s.place t v = some root ∧ ∀ l, c.Touches s t v l → Contained root l) ↔
        ∀ l, t'.node l ≠ t.node l ∨ c.Uses s t v l → Contained r.root l) := by
    intro r hp
    simp [hp, touches_iff h]
  cases c with
  | readFile rel =>
    obtain ⟨⟨data, hres⟩, r, hr, rfl⟩ := read_ok h
    obtain ⟨root, q, ns, hR, hp⟩ := resolve_resolves hs ht hr
    obtain ⟨l, hst⟩ := readFile_stat hres hr
    rw [hplace hp, hR.read_iff]
    exact and_congr_right fun _ => hR.looks_iff hr hst
  | stat rel =>
    obtain ⟨⟨info, hres⟩, r, hr, rfl⟩ := read_ok h
    obtain ⟨root, q, ns, hR, hp⟩ := resolve_resolves hs ht hr
    obtain ⟨l, n, hst⟩ := stat_stat hres hr
    rw [hplace hp, hR.read_iff]
    exact and_congr_right fun _ => hR.looks_iff hr hst
  | list rel =>
    obtain ⟨⟨entries, hres⟩, r, hr, rfl⟩ := read_ok h
    obtain ⟨root, q, ns, hR, hp⟩ := resolve_resolves hs ht hr
    obtain ⟨l, hst⟩ := list_stat hres hr
    rw [hplace hp, hR.read_iff]
    exact and_congr_right fun _ => hR.lists_iff hr hst
  | writeFile rel data =>
    obtain ⟨r, hr, hf⟩ := run_some h
    obtain ⟨u, hu, hf⟩ := Option.bind_eq_some_iff.mp hf
    obtain ⟨root, q, ns, hR, hp⟩ := resolve_resolves hs ht hr
    rw [hplace hp]
    exact hR.writes_iff hr hu hf
  | mkdir rel =>
    obtain ⟨r, hr, hf⟩ := run_some h
    obtain ⟨root, q, ns, hR, hp⟩ := resolve_resolves hs ht hr
    rw [hplace hp]
    exact hR.makes_iff hr hf
  | rename oldRel newRel =>
    have hren := changed_ok h
    unfold Service.rename at hren
    split at hren
    · cases hren
    · rename_i o ho
      obtain ⟨n, hn, hf⟩ := Service.run_ok hren
      obtain ⟨u, hu, hf⟩ := Option.bind_eq_some_iff.mp hf
      obtain ⟨root, q, ns, hR, hp⟩ := resolve_resolves hs ht ho
      rw [hplace hp]
      exact hR.moves_iff hs ho hn hu hf
  | delete rel =>
    obtain ⟨r, hr, hf⟩ := run_some h
    obtain ⟨root, q, ns, hR, hp⟩ := resolve_resolves hs ht hr
    rw [hplace hp]
    exact hR.removes_iff hr hf

theorem noteService_plain : ∀ n ∈ noteService.root, Plain n := by decide

/-- The vault with a link to a file that is not there, outside. -/
def linkedNotes : Tree := notes.put (note "out.md") (.link (utf8 "/evil.md"))

def writeOut : Call := .writeFile (utf8 "out.md") (utf8 "text")

def writeIn : Call := .writeFile (utf8 "a.md") (utf8 "text")

/-- In the same vault a call that keeps clear of the link keeps to the vault. -/
theorem touches_contained_iff_note : ∃ t', writeIn.after noteService linkedNotes (utf8 "v") = some t' ∧
    ((∃ root, noteService.place linkedNotes (utf8 "v") = some root ∧
        ∀ l, writeIn.Touches noteService linkedNotes (utf8 "v") l → Contained root l) ↔
      noteService.Placed linkedNotes (utf8 "v") ∧
        writeIn.Leads noteService linkedNotes (utf8 "v")) := by
  obtain ⟨t', ht'⟩ : ∃ t', writeIn.after noteService linkedNotes (utf8 "v") = some t' :=
    Option.isSome_iff_exists.mp (by decide +kernel)
  refine ⟨t', ht', touches_contained_iff ?_ ?_ ht'⟩
  · decide
  · exact rooted_of_rows (by decide +kernel)

/-- Writing through a dangling link creates the file it points to, wherever that is. -/
theorem writes_through_dangling_link : linkedNotes.Rooted ∧
    ∃ t' root l, writeOut.after noteService linkedNotes (utf8 "v") = some t' ∧
      noteService.place linkedNotes (utf8 "v") = some root ∧
      writeOut.Touches noteService linkedNotes (utf8 "v") l ∧ ¬ Contained root l := by
  have hrun : (writeOut.after noteService linkedNotes (utf8 "v")).any (fun t' => decide
      (t'.node [utf8 "evil.md"] ≠ linkedNotes.node [utf8 "evil.md"])) = true := by decide +kernel
  obtain ⟨t', ht', hnew⟩ := (Option.any_eq_true _ _).mp hrun
  exact ⟨rooted_of_rows (by decide +kernel), t', [utf8 "srv", utf8 "v"], [utf8 "evil.md"], ht',
    by decide +kernel, .inl ⟨t', ht', of_decide_eq_true hnew⟩, by decide +kernel⟩

end Mdock.Vault
