import Mdock.WebDAV.Handler

/-! The vault root and the guards before `DELETE` and `MOVE`. The guards compare with `.`;
a path that decodes to nothing but slashes is cleaned to `/`, passes them, and is the root
again for the vault service. -/
namespace Mdock.WebDAV
open Mdock.Go Mdock.Vault Mdock.Locks Mdock.Store

/-- `SafeRelPath` refuses the path or takes it strictly below the root. -/
def BelowRoot (arg : Bytes) : Prop := ∀ rel, safeRelPath arg = .ok rel → names rel ≠ []

theorem belowRoot_clean (q : Bytes) : BelowRoot (clean q) ↔ clean q ≠ dot ∧ clean q ≠ [slash] := by
  constructor
  · intro hb
    constructor
    · intro he
      exact hb dot (by rw [he]; decide) names_dot
    · intro he
      exact hb dot (by rw [he]; decide) names_dot
  · rintro ⟨hdot, hslash⟩ rel hrel hn
    have hd : rel = dot := by
      rcases (cleanRel_of_safeRelPath hrel).cases with ⟨hd, -⟩ | ⟨hne, -⟩
      · exact hd
      · exact absurd hn hne
    subst hd
    by_cases hr : (clean q).head? = some slash
    · -- an absolute path other than `/` is refused
      have hne : clean q ≠ [] := fun h => by simp [h] at hr
      simp [safeRelPath, hne, hdot, hslash, hr] at hrel
    · have hq : q.head? ≠ some slash := fun h => hr (by rw [clean, if_pos h]; rfl)
      have hne : clean q ≠ [] := by
        rw [clean_of_relative hq]
        split
        · decide
        · rename_i hne
          exact join_ne_nil hne fun e he =>
            (cleanElems_normal false q).ne_nil e (by simpa using he)
      exact hdot ((clean_clean hq).symm.trans (safeRelPath_root hr hne hrel))

theorem parsePath_clean {input slug rel : Bytes} (h : parsePath input = .ok (slug, rel)) :
    ∃ q, rel = clean q := by
  rcases (parsePath_ok h).2.2 with rfl | ⟨-, q, -, -, -, rfl⟩
  · exact ⟨[], rfl⟩
  · exact ⟨q, rfl⟩

theorem parseDestination_clean {authorityOk : Bytes → Bool} {input slug rel : Bytes}
    (h : parseDestination authorityOk input = .ok (slug, rel)) : ∃ q, rel = clean q := by
  unfold parseDestination at h
  split at h
  · exact parsePath_clean h
  · split at h <;> exact parsePath_clean h

/-! ### The calls a request makes -/

/-- A call of the vault service that removes or moves something. -/
inductive Call
  | delete (rel : Bytes)
  | rename (old new : Bytes)
  deriving DecidableEq

def Call.args : Call → List Bytes
  | .delete rel => [rel]
  | .rename old new => [old, new]

variable {σ τ : Type}

/-- The same service, keeping a list of the calls to `Delete` and `Rename`. -/
def VaultService.recording (s : VaultService σ) : VaultService (σ × List Call) where
  stat t := s.stat t.1
  writeFile t v rel data := ((s.writeFile t.1 v rel data).1, (s.writeFile t.1 v rel data).2, t.2)
  mkdir t v rel := ((s.mkdir t.1 v rel).1, (s.mkdir t.1 v rel).2, t.2)
  rename t v old new :=
    ((s.rename t.1 v old new).1, (s.rename t.1 v old new).2, t.2 ++ [.rename old new])
  delete t v rel := ((s.delete t.1 v rel).1, (s.delete t.1 v rel).2, t.2 ++ [.delete rel])

def Handler.recording (h : Handler σ τ) : Handler (σ × List Call) τ :=
  ⟨h.vaultService.recording, h.lockService, h.lockTTL, h.authorityOk⟩

def World.recording (w : World σ τ) : World (σ × List Call) τ := ⟨(w.tree, []), w.locks⟩

/-- The calls a request makes, in order. -/
def Handler.calls (h : Handler σ τ) (vaultFor : Bytes → Option VaultRow) (login token : Bytes)
    (now₁ now₂ : Instant) (r : Request) (w : World σ τ) : List Call :=
  (h.recording.serve vaultFor login token now₁ now₂ r w.recording).2.tree.2

variable {h : Handler σ τ} {now now₁ now₂ : Instant} {r : Request} {t : Target}

/-- A call is reached with the root for an argument: the target of a `DELETE`, the
destination of a `MOVE` that is deleted first, or the source or destination renamed. -/
def Handler.HitsRoot (h : Handler σ τ) (now₁ now₂ : Instant) (r : Request) (t : Target)
    (w : World σ τ) : Prop :=
  match r.method with
  | .delete =>
    t.rel = [slash] ∧ (h.vaultService.stat w.tree t.vault.path t.rel).isOk ∧
      (h.acquired now₁ r t t.rel w.locks).isSome
  | .move =>
    (∃ rel locks, h.moveGuards r t w.tree = .ok (rel, true) ∧
      h.acquired now₁ r t rel w.locks = some locks ∧
      (rel = [slash] ∨ t.rel = [slash] ∧
        ∃ tree, h.vaultService.delete w.tree t.vault.path rel = (.ok (), tree) ∧
          (h.acquired now₂ r t t.rel (h.unlocked r t rel locks)).isSome)) ∨
    ∃ rel, h.moveGuards r t w.tree = .ok (rel, false) ∧ (t.rel = [slash] ∨ rel = [slash]) ∧
      (h.acquired now₂ r t t.rel w.locks).isSome
  | _ => False

theorem withMutationLock_log {rel : Bytes}
    {fn : σ × List Call → Except Vault.Err Unit × σ × List Call} {w : World (σ × List Call) τ} :
    (h.recording.withMutationLock now r t rel fn w).2.tree.2 =
      if (h.acquired now r t rel w.locks).isSome then (fn w.tree).2.2 else w.tree.2 := by
  cases hacq : h.acquired now r t rel w.locks with
  | none =>
    obtain ⟨reply, locks, -, he⟩ := @withMutationLock_refused _ _ h.recording _ _ _ _ fn _ hacq
    rw [he]
    rfl
  | some locks =>
    rw [@withMutationLock_granted _ _ h.recording _ _ _ _ fn _ _ hacq]
    rfl

theorem log_delete {w : World (σ × List Call) τ} :
    (h.recording.delete now r t w).2.tree.2 =
      if t.rel ≠ dot ∧ (h.vaultService.stat w.tree.1 t.vault.path t.rel).isOk ∧
        (h.acquired now r t t.rel w.locks).isSome then w.tree.2 ++ [.delete t.rel]
      else w.tree.2 := by
  have hstat : h.recording.vaultService.stat w.tree t.vault.path t.rel =
      h.vaultService.stat w.tree.1 t.vault.path t.rel := rfl
  unfold Handler.delete
  by_cases hd : t.rel = dot
  · simp [hd]
  · by_cases hs : (h.vaultService.stat w.tree.1 t.vault.path t.rel).isOk
    · have hlog := @withMutationLock_log _ _ h now r t t.rel
        (fun tree => h.recording.vaultService.delete tree t.vault.path t.rel) w
      simp only [hstat, hd, hs, if_true, if_false, not_false_eq_true, ne_eq, true_and]
      split <;> rename_i hw <;> rw [hw] at hlog <;> exact hlog
    · simp [hstat, hd, hs]

theorem log_moveSource {rel : Bytes} {destExists : Bool} {w : World (σ × List Call) τ} :
    (h.recording.moveSource now r t rel destExists w).2.tree.2 =
      if (h.acquired now r t t.rel w.locks).isSome then w.tree.2 ++ [.rename t.rel rel]
      else w.tree.2 := by
  have hlog := @withMutationLock_log _ _ h now r t t.rel
    (fun tree => h.recording.vaultService.rename tree t.vault.path t.rel rel) w
  unfold Handler.moveSource
  split <;> rename_i hw <;> rw [hw] at hlog <;> exact hlog

/-- A `MOVE` that deletes its destination first. -/
theorem log_move_overwrite {rel : Bytes} {w : World σ τ}
    (hg : h.moveGuards r t w.tree = .ok (rel, true)) :
    (h.recording.move now₁ now₂ r t w.recording).2.tree.2 =
      match h.acquired now₁ r t rel w.locks, h.vaultService.delete w.tree t.vault.path rel with
      | none, _ => []
      | some _, (.error _, _) => [.delete rel]
      | some locks, (.ok (), _) =>
        if (h.acquired now₂ r t t.rel (h.unlocked r t rel locks)).isSome then
          [.delete rel, .rename t.rel rel] else [.delete rel] := by
  have hg' : h.recording.moveGuards r t w.recording.tree = .ok (rel, true) := hg
  rw [Handler.move, hg']
  simp only
  cases hacq : h.acquired now₁ r t rel w.locks with
  | none =>
    obtain ⟨reply, locks, -, he⟩ := @withMutationLock_refused _ _ h.recording now₁ r t rel
      (fun tree => h.recording.vaultService.delete tree t.vault.path rel) w.recording hacq
    rw [he]
    rfl
  | some locks =>
    rw [@withMutationLock_granted _ _ h.recording now₁ r t rel
      (fun tree => h.recording.vaultService.delete tree t.vault.path rel) w.recording locks hacq]
    cases hdel : h.vaultService.delete w.tree t.vault.path rel with
    | mk res tree =>
      have hdel' : h.recording.vaultService.delete w.recording.tree t.vault.path rel =
          (res, tree, [.delete rel]) := by
        simp [Handler.recording, VaultService.recording, World.recording, hdel]
      rw [hdel']
      cases res with
      | error e => rfl
      | ok u => exact log_moveSource

theorem log_move_fresh {rel : Bytes} {w : World σ τ}
    (hg : h.moveGuards r t w.tree = .ok (rel, false)) :
    (h.recording.move now₁ now₂ r t w.recording).2.tree.2 =
      if (h.acquired now₂ r t t.rel w.locks).isSome then [.rename t.rel rel] else [] := by
  have hg' : h.recording.moveGuards r t w.recording.tree = .ok (rel, false) := hg
  rw [Handler.move, hg']
  exact log_moveSource

theorem log_move_refused {reply : Reply} {w : World σ τ}
    (hg : h.moveGuards r t w.tree = .error reply) :
    (h.recording.move now₁ now₂ r t w.recording).2.tree.2 = [] := by
  have hg' : h.recording.moveGuards r t w.recording.tree = .error reply := hg
  rw [Handler.move, hg']
  rfl

theorem moveGuards_ok {tree : σ} {rel : Bytes} {destExists : Bool}
    (hg : h.moveGuards r t tree = .ok (rel, destExists)) :
    t.rel ≠ dot ∧ rel ≠ dot ∧ ∃ q, rel = clean q := by
  unfold Handler.moveGuards at hg
  split at hg
  · cases hg
  · split at hg
    · cases hg
    · rename_i slug rel' hp
      simp only at hg
      split at hg
      · cases hg
      · split at hg
        · cases hg
        · rename_i hroot
          rw [not_or] at hroot
          split at hg
          · cases hg
          · split at hg
            · cases hg
            · split at hg
              · cases hg
                exact ⟨hroot.1, hroot.2, parseDestination_clean hp⟩
              · cases hg

/-- Every argument is refused by the vault service or stays below the root. -/
def SafeCalls (cs : List Call) : Prop := ∀ c ∈ cs, ∀ a ∈ c.args, BelowRoot a

theorem safe_delete {w : World σ τ} (hrel : ∃ q, t.rel = clean q) (hm : r.method = .delete) :
    SafeCalls (h.recording.delete now₁ r t w.recording).2.tree.2 ↔
      ¬ h.HitsRoot now₁ now₂ r t w := by
  obtain ⟨q, hq⟩ := hrel
  have hb := belowRoot_clean q
  rw [← hq] at hb
  rw [log_delete]
  simp only [Handler.HitsRoot, hm, World.recording]
  by_cases hd : t.rel = dot
  · have hs : dot ≠ [slash] := by decide
    simp [SafeCalls, hd, hs]
  · by_cases hreach : (h.vaultService.stat w.tree t.vault.path t.rel).isOk ∧
        (h.acquired now₁ r t t.rel w.locks).isSome
    · simp [SafeCalls, Call.args, hd, hreach, hb]
    · simp [SafeCalls, hreach]

theorem safe_move {w : World σ τ} (hrel : ∃ q, t.rel = clean q) (hm : r.method = .move) :
    SafeCalls (h.recording.move now₁ now₂ r t w.recording).2.tree.2 ↔
      ¬ h.HitsRoot now₁ now₂ r t w := by
  simp only [Handler.HitsRoot, hm]
  cases hg : h.moveGuards r t w.tree with
  | error reply => simp [log_move_refused hg, SafeCalls]
  | ok p =>
    obtain ⟨rel, destExists⟩ := p
    obtain ⟨hsrc, hdst, q', hq'⟩ := moveGuards_ok hg
    obtain ⟨q, hq⟩ := hrel
    have hb : BelowRoot t.rel ↔ t.rel ≠ [slash] := by
      rw [hq, belowRoot_clean, ← hq]
      exact and_iff_right hsrc
    have hb' : BelowRoot rel ↔ rel ≠ [slash] := by
      rw [hq', belowRoot_clean, ← hq']
      exact and_iff_right hdst
    cases destExists with
    | false =>
      rw [log_move_fresh hg]
      by_cases hacq : (h.acquired now₂ r t t.rel w.locks).isSome
      · simp [SafeCalls, Call.args, hacq, hb, hb']
      · simp [SafeCalls, hacq]
    | true =>
      rw [log_move_overwrite hg]
      cases hacq : h.acquired now₁ r t rel w.locks with
      | none => simp [SafeCalls, hacq]
      | some locks =>
        cases hdel : h.vaultService.delete w.tree t.vault.path rel with
        | mk res tree =>
          cases res with
          | error e => simp [SafeCalls, Call.args, hacq, hdel, hb']
          | ok u =>
            by_cases hacq' : (h.acquired now₂ r t t.rel (h.unlocked r t rel locks)).isSome
            · simp only [SafeCalls, Call.args, hacq', hb, hb', if_true, List.forall_mem_cons,
                List.not_mem_nil, false_implies, implies_true, and_true]
              simp [hacq, hdel, hacq', not_or]
              tauto
            · simp [SafeCalls, Call.args, hacq, hdel, hacq', hb']

/-- A change under a lock that neither deletes nor renames. -/
theorem withMutationLock_quiet {rel : Bytes}
    {fn : σ × List Call → Except Vault.Err Unit × σ × List Call} {w : World (σ × List Call) τ}
    (hfn : (fn w.tree).2.2 = w.tree.2) :
    (h.recording.withMutationLock now r t rel fn w).2.tree.2 = w.tree.2 := by
  rw [withMutationLock_log, hfn, ite_self]

theorem log_put {w : World (σ × List Call) τ} :
    (h.recording.put now r t w).2.tree.2 = w.tree.2 := by
  unfold Handler.put
  simp only
  split
  · rfl
  · rename_i data _
    split
    · rfl
    · have hlog := @withMutationLock_quiet _ _ h now r t t.rel
        (fun tree => h.recording.vaultService.writeFile tree t.vault.path t.rel data) w rfl
      split <;> rename_i hw <;> rw [hw] at hlog <;> exact hlog

theorem log_mkcol {w : World (σ × List Call) τ} :
    (h.recording.mkcol now r t w).2.tree.2 = w.tree.2 := by
  unfold Handler.mkcol
  split
  · rfl
  · split
    · rfl
    · split
      · have hlog := @withMutationLock_quiet _ _ h now r t t.rel
          (fun tree => h.recording.vaultService.mkdir tree t.vault.path t.rel) w rfl
        split <;> rename_i hw <;> rw [hw] at hlog <;> exact hlog
      · rfl

theorem log_lock {token : Bytes} {w : World (σ × List Call) τ} :
    (h.recording.lock now token t w).2.tree.2 = w.tree.2 := by
  unfold Handler.lock
  split <;> rfl

theorem log_unlock {w : World (σ × List Call) τ} :
    (h.recording.unlock r t w).2.tree.2 = w.tree.2 := by
  unfold Handler.unlock
  split
  · rfl
  · split <;> rfl

/-- No request reaches the vault root through `Delete` or `Rename`, except where a path
that cleans to `/` gets past the guards. -/
theorem root_kept_iff (vaultFor : Bytes → Option VaultRow) (login token : Bytes)
    (w : World σ τ) :
    SafeCalls (h.calls vaultFor login token now₁ now₂ r w) ↔
      ∀ slug rel vault, parsePath r.path = .ok (slug, rel) → vaultFor slug = some vault →
        ¬ h.HitsRoot now₁ now₂ r ⟨login, vault, rel⟩ w := by
  unfold Handler.calls Handler.serve
  cases hp : parsePath r.path with
  | error e => simp [SafeCalls, World.recording]
  | ok p =>
    obtain ⟨slug, rel⟩ := p
    cases hv : vaultFor slug with
    | none =>
      refine iff_of_true (by simp [SafeCalls, World.recording, hv]) fun _ _ _ he hv' => ?_
      cases he
      rw [hv] at hv'
      cases hv'
    | some vault =>
      have hone : (∀ slug' rel' vault', Except.ok (slug, rel) = (Except.ok (slug', rel') :
          Except ParseErr (Bytes × Bytes)) → vaultFor slug' = some vault' →
            ¬ h.HitsRoot now₁ now₂ r ⟨login, vault', rel'⟩ w) ↔
          ¬ h.HitsRoot now₁ now₂ r ⟨login, vault, rel⟩ w := by
        constructor
        · exact fun hall => hall slug rel vault rfl hv
        · intro hno slug' rel' vault' he hv'
          cases he
          rw [hv] at hv'
          cases hv'
          exact hno
      rw [hone]
      simp only [hv]
      have hclean := parsePath_clean hp
      cases hm : r.method with
      | delete => exact safe_delete hclean hm
      | move => exact safe_move hclean hm
      | put => simp [Handler.HitsRoot, hm, log_put, SafeCalls, World.recording]
      | mkcol => simp [Handler.HitsRoot, hm, log_mkcol, SafeCalls, World.recording]
      | lock => simp [Handler.HitsRoot, hm, log_lock, SafeCalls, World.recording]
      | unlock => simp [Handler.HitsRoot, hm, log_unlock, SafeCalls, World.recording]

def deleteAt (path : Bytes) : Request := ⟨.delete, path, [], [], [], [], none⟩

/-- `DELETE /webdav/notes//` removes the whole vault. -/
theorem root_deleted :
    stripPrefix (utf8 "/webdav/notes//") = some (utf8 "/notes//") ∧
    (¬ ∀ path, SafeCalls (noteHandler.calls (fun _ => some noteVault) (utf8 "alice") [] 0 0
        (deleteAt path) ⟨notes, Lib.Keyed.empty⟩)) ∧
    notes.file (note "a.md") = some (utf8 "new") ∧
    (noteHandler.serve (fun _ => some noteVault) (utf8 "alice") [] 0 0
      (deleteAt (utf8 "/notes//")) ⟨notes, Lib.Keyed.empty⟩).2.tree.file (note "a.md") = none := by
  refine ⟨by decide, fun h => ?_, by decide, by decide +kernel⟩
  have hcalls : noteHandler.calls (fun _ => some noteVault) (utf8 "alice") [] 0 0
      (deleteAt (utf8 "/notes//")) ⟨notes, Lib.Keyed.empty⟩ = [.delete [slash]] := by
    decide +kernel
  have hsafe := h (utf8 "/notes//")
  rw [hcalls] at hsafe
  exact hsafe _ (List.mem_singleton.mpr rfl) [slash] (List.mem_singleton.mpr rfl) dot (by decide)
    names_dot

end Mdock.WebDAV
