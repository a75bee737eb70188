import Mdock.Go.Text
import Mdock.Go.Url
import Mdock.Js.Strings
import Mdock.Lib.Fallback

/-! Drafts in the storage of the browser, or in memory where that fails. -/
namespace Mdock.Web.Drafts
open Mdock.Go Mdock.Lib.Fallback

/-! ### Keys -/

def period : UInt8 := 0x2E

/-- The slugs of vaults have no period. -/
abbrev Slug := {s : Bytes // period ∉ s}

def isUnreserved (c : UInt8) : Bool :=
  isLetter c || (0x30 ≤ c && c ≤ 0x39) || decide (c ∈ utf8 "-_.!~*'()")

/-- `encodeURIComponent` of the text whose UTF-8 is `s`. -/
def encodeURIComponent (s : Bytes) : Bytes :=
  s.flatMap fun c =>
    if isUnreserved c then [c] else [percent, upperhex (c >>> 4), upperhex (c &&& 15)]

def draftKey (slug : Slug) (filePath : Bytes) : Bytes :=
  utf8 "mdock.draft." ++ slug.val ++ period :: encodeURIComponent filePath

def draftHistoryKey (slug : Slug) (filePath : Bytes) : Bytes :=
  utf8 "mdock.draft_history." ++ slug.val ++ period :: encodeURIComponent filePath

def vaultDraftsKey (slug : Slug) : Bytes := utf8 "mdock.drafts_index." ++ slug.val

inductive Key
  | draft (slug : Slug) (filePath : Bytes)
  | history (slug : Slug) (filePath : Bytes)
  | index (slug : Slug)
  deriving DecidableEq

def Key.text : Key → Bytes
  | .draft slug filePath => draftKey slug filePath
  | .history slug filePath => draftHistoryKey slug filePath
  | .index slug => vaultDraftsKey slug

theorem unescape_encodeURIComponent (s : Bytes) : unescape (encodeURIComponent s) = some s := by
  induction s with
  | nil => simp [encodeURIComponent, unescape]
  | cons c s ih =>
    obtain ⟨hh, hl, hc⟩ := upperhex_hex c
    rw [encodeURIComponent, List.flatMap_cons]
    by_cases h : isUnreserved c
    · have hne : c ≠ percent := by
        rintro rfl
        exact absurd h (by decide)
      rw [if_pos h, List.singleton_append, unescape_cons_of_ne hne]
      exact congrArg _ ih
    · rw [if_neg h, List.cons_append, List.cons_append, List.cons_append, List.nil_append,
        unescape_hex hh hl, hc]
      exact congrArg _ ih

theorem slug_path_inj {a b : Slug} {s t : Bytes}
    (h : a.val ++ period :: encodeURIComponent s = b.val ++ period :: encodeURIComponent t) :
    a = b ∧ s = t := by
  have htake : ∀ (a : Slug) (r : Bytes),
      (a.val ++ period :: r).takeWhile (· ≠ period) = a.val := fun a r => by
    rw [List.takeWhile_append_of_pos fun c hc => by
      simpa using fun h : c = period => a.property (h ▸ hc)]
    simp
  have hslug : a = b := Subtype.ext (by rw [← htake a, h, htake])
  rw [hslug] at h
  have hpath := congrArg unescape (List.cons.inj (List.append_cancel_left h)).2
  rw [unescape_encodeURIComponent, unescape_encodeURIComponent] at hpath
  exact ⟨hslug, Option.some.inj hpath⟩

/-- No two keys are stored under the same text. -/
theorem Key.text_injective : Function.Injective Key.text := by
  have hkind : ∀ k : Key, k.text.take 12 = match k with
      | .draft _ _ => utf8 "mdock.draft."
      | .history _ _ => utf8 "mdock.draft_"
      | .index _ => utf8 "mdock.drafts" := fun k => by
    cases k <;> rfl
  intro k l h
  have htake := congrArg (List.take 12) h
  rw [hkind, hkind] at htake
  cases k with
  | draft a s =>
    cases l with
    | draft b t =>
      rw [text, text, draftKey, draftKey, List.append_assoc, List.append_assoc] at h
      obtain ⟨rfl, rfl⟩ := slug_path_inj (List.append_cancel_left h)
      rfl
    | history | index =>
      simp only at htake
      exact absurd htake (by decide)
  | history a s =>
    cases l with
    | history b t =>
      rw [text, text, draftHistoryKey, draftHistoryKey, List.append_assoc, List.append_assoc] at h
      obtain ⟨rfl, rfl⟩ := slug_path_inj (List.append_cancel_left h)
      rfl
    | draft | index =>
      simp only at htake
      exact absurd htake (by decide)
  | index a =>
    cases l with
    | index b => exact congrArg _ (Subtype.ext (List.append_cancel_left h))
    | draft | history =>
      simp only at htake
      exact absurd htake (by decide)

/-! ### Drafts -/

structure Draft where
  path : Bytes
  content : Js.Text
  baseVersion : Option Js.Text
  baseContent : Js.Text
  updatedAt : Int
  deriving DecidableEq

structure Entry where
  path : Bytes
  updatedAt : Int
  deriving DecidableEq

abbrev Key.Val : Key → Type
  | .draft _ _ => Option Draft
  | .history _ _ => List Draft
  | .index _ => List Entry

instance : (k : Key) → DecidableEq k.Val
  | .draft _ _ => inferInstanceAs (DecidableEq (Option Draft))
  | .history _ _ => inferInstanceAs (DecidableEq (List Draft))
  | .index _ => inferInstanceAs (DecidableEq (List Entry))

/-- What `readJSON` is given to return where there is nothing. -/
def absent : (k : Key) → k.Val
  | .draft _ _ => none
  | .history _ _ => []
  | .index _ => []

def MAX_HISTORY : Nat := 10
def MAX_AGE_DAYS : Int := 7

section Code
variable {m : Type → Type} [Monad m] (S : Storage Key.Val m)

def saveDraft (slug : Slug) (filePath : Bytes) (content : Js.Text) (baseVersion : Option Js.Text)
    (baseContent : Js.Text) (now : Int) : m Draft := do
  let draft : Draft := ⟨filePath, content, baseVersion, baseContent, now⟩
  let _ ← S.write (.draft slug filePath) (some draft)
  S.change (.history slug filePath) fun history => some ((draft :: history).take MAX_HISTORY)
  S.change (.index slug) fun index =>
    if index.any (·.path = filePath) then none else some (index ++ [⟨filePath, now⟩])
  pure draft

def loadDraft (slug : Slug) (filePath : Bytes) : m (Option Draft) := S.read (.draft slug filePath)

def loadDraftHistory (slug : Slug) (filePath : Bytes) : m (List Draft) :=
  S.read (.history slug filePath)

def deleteDraft (slug : Slug) (filePath : Bytes) : m Unit := do
  S.remove (.draft slug filePath)
  S.remove (.history slug filePath)
  let index : List Entry ← S.read (.index slug)
  let _ ← S.write (.index slug) (index.filter (·.path ≠ filePath))

/-- The drafts of the entries of an index that have one. -/
def readDrafts (slug : Slug) : List Entry → m (List (Bytes × Draft))
  | [] => pure []
  | e :: index => do
    let draft : Option Draft ← S.read (.draft slug e.path)
    let drafts ← readDrafts slug index
    pure ((draft.map (e.path, ·)).toList ++ drafts)

def listDrafts (slug : Slug) : m (List (Bytes × Draft)) := do
  let index : List Entry ← S.read (.index slug)
  readDrafts S slug index

/-- The loop of `clearOldDrafts`. -/
def clearFrom (slug : Slug) (cutoff : Int) : List Entry → m (List Entry)
  | [] => pure []
  | e :: index => do
    let draft : Option Draft ← S.read (.draft slug e.path)
    match draft.filter (cutoff ≤ ·.updatedAt) with
    | some d =>
      let kept ← clearFrom slug cutoff index
      pure (⟨e.path, d.updatedAt⟩ :: kept)
    | none =>
      S.remove (.draft slug e.path)
      S.remove (.history slug e.path)
      clearFrom slug cutoff index

def cutoff (maxAgeDays now : Int) : Int := now - maxAgeDays * 24 * 60 * 60 * 1000

def clearOldDrafts (slug : Slug) (maxAgeDays now : Int) : m Nat := do
  let index : List Entry ← S.read (.index slug)
  let kept ← clearFrom S slug (cutoff maxAgeDays now) index
  let _ ← S.write (.index slug) kept
  pure kept.length

/-! ### Runs -/

inductive Op
  | save (slug : Slug) (filePath : Bytes) (content : Js.Text) (baseVersion : Option Js.Text)
      (baseContent : Js.Text) (now : Int)
  | delete (slug : Slug) (filePath : Bytes)
  | clear (slug : Slug) (maxAgeDays now : Int)

def Op.exec : Op → m Unit
  | .save slug filePath content baseVersion baseContent now => do
    let _ ← saveDraft S slug filePath content baseVersion baseContent now
  | .delete slug filePath => deleteDraft S slug filePath
  | .clear slug maxAgeDays now => do
    let _ ← clearOldDrafts S slug maxAgeDays now

def execAll : List Op → m Unit
  | [] => pure ()
  | op :: ops => do
    op.exec S
    execAll ops

end Code

/-! ### As with one store -/

section Refine
variable {env : Nat → Answer}

theorem saveDraft_refines (slug : Slug) (filePath : Bytes) (content : Js.Text)
    (baseVersion : Option Js.Text) (baseContent : Js.Text) (now : Int) :
    Refines absent
      (saveDraft (fallback absent env) slug filePath content baseVersion baseContent now)
      (saveDraft (single absent) slug filePath content baseVersion baseContent now) :=
  (Refines.write _ _).bind fun _ => (Refines.change _ _).bind fun _ =>
    (Refines.change _ _).bind fun _ => .pure _

theorem deleteDraft_refines (slug : Slug) (filePath : Bytes) :
    Refines absent (deleteDraft (fallback absent env) slug filePath)
      (deleteDraft (single absent) slug filePath) :=
  (Refines.remove _).bind fun _ => (Refines.remove _).bind fun _ =>
    (Refines.read _).bind fun _ => (Refines.write _ _).bind fun _ => .pure _

theorem readDrafts_refines (slug : Slug) (index : List Entry) :
    Refines absent (readDrafts (fallback absent env) slug index)
      (readDrafts (single absent) slug index) := by
  induction index with
  | nil => exact .pure _
  | cons e index ih => exact (Refines.read _).bind fun _ => ih.bind fun _ => .pure _

theorem listDrafts_refines (slug : Slug) :
    Refines absent (listDrafts (fallback absent env) slug) (listDrafts (single absent) slug) :=
  (Refines.read _).bind fun index => readDrafts_refines slug index

theorem clearFrom_refines (slug : Slug) (cutoff : Int) (index : List Entry) :
    Refines absent (clearFrom (fallback absent env) slug cutoff index)
      (clearFrom (single absent) slug cutoff index) := by
  induction index with
  | nil => exact .pure _
  | cons e index ih =>
    refine (Refines.read _).bind fun draft => ?_
    cases Option.filter (fun d : Draft => cutoff ≤ d.updatedAt) draft with
    | some d => exact ih.bind fun _ => .pure _
    | none => exact (Refines.remove _).bind fun _ => (Refines.remove _).bind fun _ => ih

theorem exec_refines (op : Op) :
    Refines absent (op.exec (fallback absent env)) (op.exec (single absent)) := by
  cases op with
  | save => exact (saveDraft_refines _ _ _ _ _ _).bind fun _ => .pure _
  | delete => exact deleteDraft_refines _ _
  | clear =>
    exact ((Refines.read _).bind fun _ => (clearFrom_refines _ _ _).bind fun _ =>
      (Refines.write _ _).bind fun _ => .pure _).bind fun _ => .pure _

theorem execAll_refines (env : Nat → Answer) (ops : List Op) :
    Refines absent (execAll (fallback absent env) ops) (execAll (single absent) ops) := by
  induction ops with
  | nil => exact .pure _
  | cons op ops ih => exact (exec_refines op).bind fun _ => ih

end Refine

/-! ### What is saved -/

/-- The saves of a file that still count, the last one first. -/
def Op.saves (file : Slug × Bytes) (saved : List Draft) : Op → List Draft
  | .save slug filePath content baseVersion baseContent now =>
    if (slug, filePath) = file then ⟨filePath, content, baseVersion, baseContent, now⟩ :: saved
    else saved
  | .delete slug filePath => if (slug, filePath) = file then [] else saved
  | .clear slug maxAgeDays now =>
    if slug = file.1 ∧ ∃ d ∈ saved.head?, d.updatedAt < cutoff maxAgeDays now then [] else saved

def saves (ops : List Op) (file : Slug × Bytes) : List Draft := ops.foldl (Op.saves file) []

abbrev Store := (k : Key) → k.Val

/-- The store has the saves of each file. -/
structure Represents (v : Store) (saved : Slug × Bytes → List Draft) : Prop where
  draft : ∀ slug path, v (.draft slug path) = (saved (slug, path)).head?
  history : ∀ slug path, v (.history slug path) = (saved (slug, path)).take MAX_HISTORY
  nodup : ∀ slug, ((v (.index slug)).map Entry.path).Nodup
  mem : ∀ slug path, path ∈ (v (.index slug)).map Entry.path ↔ saved (slug, path) ≠ []

section Single
variable {v : Store} {saved : Slug × Bytes → List Draft} {slug : Slug} {path : Bytes}

theorem update_draft (v : Store) (slug s : Slug) (path p : Bytes) (x : Option Draft) :
    Function.update v (.draft slug path) x (.draft s p) =
      if (slug, path) = (s, p) then x else v (.draft s p) := by
  split_ifs with h
  · obtain ⟨rfl, rfl⟩ := Prod.mk.inj h
    exact Function.update_self ..
  · exact Function.update_of_ne
      (fun hk => h (by rw [(Key.draft.inj hk).1, (Key.draft.inj hk).2])) ..

theorem update_history (v : Store) (slug s : Slug) (path p : Bytes) (x : List Draft) :
    Function.update v (.history slug path) x (.history s p) =
      if (slug, path) = (s, p) then x else v (.history s p) := by
  split_ifs with h
  · obtain ⟨rfl, rfl⟩ := Prod.mk.inj h
    exact Function.update_self ..
  · exact Function.update_of_ne
      (fun hk => h (by rw [(Key.history.inj hk).1, (Key.history.inj hk).2])) ..

theorem update_index (v : Store) (slug s : Slug) (x : List Entry) :
    Function.update v (.index slug) x (.index s) = if slug = s then x else v (.index s) := by
  split_ifs with h
  · subst h
    exact Function.update_self ..
  · exact Function.update_of_ne (fun hk => h (Key.index.inj hk).symm) ..

/-- The store without the draft of a file and its history. -/
def without (v : Store) (slug : Slug) (path : Bytes) : Store :=
  Function.update (Function.update v (.draft slug path) none) (.history slug path) []

theorem without_draft (v : Store) (slug s : Slug) (path p : Bytes) :
    without v slug path (.draft s p) = if (slug, path) = (s, p) then none else v (.draft s p) := by
  rw [without, Function.update_of_ne (by simp), update_draft]

theorem without_history (v : Store) (slug s : Slug) (path p : Bytes) :
    without v slug path (.history s p) =
      if (slug, path) = (s, p) then [] else v (.history s p) := by
  rw [without, update_history, Function.update_of_ne (by simp)]

theorem represents_absent : Represents absent fun _ => [] :=
  ⟨fun _ _ => rfl, fun _ _ => rfl, fun _ => List.nodup_nil, fun _ _ => by simp [absent]⟩

/-- An index with an entry for a path. -/
def withEntry (index : List Entry) (path : Bytes) (now : Int) : List Entry :=
  if index.any (·.path = path) then index else index ++ [⟨path, now⟩]

theorem mem_withEntry {index : List Entry} {now : Int} {p : Bytes} :
    p ∈ (withEntry index path now).map Entry.path ↔ p = path ∨ p ∈ index.map Entry.path := by
  rw [withEntry]
  split_ifs with hany
  · obtain ⟨e, he, hpath⟩ := List.any_eq_true.1 hany
    refine ⟨.inr, ?_⟩
    rintro (rfl | hp)
    · exact List.mem_map.2 ⟨e, he, of_decide_eq_true hpath⟩
    · exact hp
  · simp [or_comm]

theorem nodup_withEntry {index : List Entry} {now : Int} (h : (index.map Entry.path).Nodup) :
    ((withEntry index path now).map Entry.path).Nodup := by
  rw [withEntry]
  split_ifs with hany
  · exact h
  · rw [List.map_append, List.nodup_append_comm, List.map_singleton, List.singleton_append,
      List.nodup_cons]
    refine ⟨fun hmem => hany ?_, h⟩
    obtain ⟨e, he, hpath⟩ := List.mem_map.1 hmem
    exact List.any_eq_true.2 ⟨e, he, decide_eq_true hpath⟩

theorem saveDraft_single (v : Store) (slug : Slug) (path : Bytes) (content : Js.Text)
    (baseVersion : Option Js.Text) (baseContent : Js.Text) (now : Int) :
    let draft : Draft := ⟨path, content, baseVersion, baseContent, now⟩
    ((Op.save slug path content baseVersion baseContent now).exec (single absent) v).2 =
      Function.update (Function.update (Function.update v (.draft slug path) (some draft))
        (.history slug path) ((draft :: v (.history slug path)).take MAX_HISTORY))
        (.index slug) (withEntry (v (.index slug)) path now) := by
  intro draft
  let u : Store := Function.update (Function.update v (.draft slug path) (some draft))
    (.history slug path) ((draft :: v (.history slug path)).take MAX_HISTORY)
  have hrun : ((Op.save slug path content baseVersion baseContent now).exec (single absent) v).2 =
      Function.update u (.index slug) ((if List.any (v (.index slug)) (·.path = path) then none
        else some (v (.index slug) ++ [(⟨path, now⟩ : Entry)]) : Option (List Entry)).getD
          (v (.index slug))) := rfl
  rw [hrun, withEntry]
  split_ifs <;> rfl

theorem save_represents (h : Represents v saved) (content : Js.Text) (baseVersion : Option Js.Text)
    (baseContent : Js.Text) (now : Int) :
    Represents ((Op.save slug path content baseVersion baseContent now).exec (single absent) v).2
      fun file => Op.saves file (saved file)
        (.save slug path content baseVersion baseContent now) := by
  rw [saveDraft_single]
  refine ⟨fun s p => ?_, fun s p => ?_, fun s => ?_, fun s p => ?_⟩
  · rw [Function.update_of_ne (by simp), Function.update_of_ne (by simp), update_draft, h.draft,
      Op.saves]
    split_ifs <;> rfl
  · rw [Function.update_of_ne (by simp), update_history, Function.update_of_ne (by simp), h.history,
      Op.saves]
    split_ifs with hp
    · rw [← hp]
      simp [MAX_HISTORY, List.take_take]
    · exact h.history s p
  · rw [update_index, Function.update_of_ne (by simp), Function.update_of_ne (by simp)]
    split_ifs
    · exact nodup_withEntry (h.nodup slug)
    · exact h.nodup s
  · rw [update_index, Function.update_of_ne (by simp), Function.update_of_ne (by simp), Op.saves]
    by_cases hs : slug = s
    · subst hs
      rw [if_pos rfl, mem_withEntry, h.mem]
      by_cases hp : path = p
      · simp [hp]
      · simp [hp, Ne.symm hp]
    · rw [if_neg hs, if_neg (fun hp => hs (Prod.mk.inj hp).1)]
      exact h.mem s p

theorem delete_represents (h : Represents v saved) :
    Represents ((Op.delete slug path).exec (single absent) v).2
      fun file => Op.saves file (saved file) (.delete slug path) := by
  have hrun : ((Op.delete slug path).exec (single absent) v).2 =
      Function.update (without v slug path) (.index slug)
        (List.filter (fun e : Entry => e.path ≠ path) (v (.index slug))) := rfl
  have hfilter : ∀ index : List Entry, (index.filter (·.path ≠ path)).map Entry.path =
      (index.map Entry.path).filter (· ≠ path) := fun index => by
    rw [List.filter_map]
    rfl
  rw [hrun]
  refine ⟨fun s p => ?_, fun s p => ?_, fun s => ?_, fun s p => ?_⟩
  · rw [Function.update_of_ne (by simp), without_draft, h.draft, Op.saves]
    split_ifs <;> rfl
  · rw [Function.update_of_ne (by simp), without_history, h.history, Op.saves]
    split_ifs <;> rfl
  · rw [update_index]
    split_ifs
    · rw [hfilter]
      exact (h.nodup slug).filter _
    · exact h.nodup s
  · rw [update_index, Op.saves]
    by_cases hs : slug = s
    · subst hs
      rw [if_pos rfl, hfilter, List.mem_filter, h.mem]
      by_cases hp : path = p
      · simp [hp]
      · simp [hp, Ne.symm hp]
    · rw [if_neg hs, if_neg (fun hp => hs (Prod.mk.inj hp).1)]
      exact h.mem s p

/-- Whether a draft is young enough to stay. -/
def keeps (v : Store) (slug : Slug) (cutoff : Int) (path : Bytes) : Bool :=
  Option.any (fun d : Draft => cutoff ≤ d.updatedAt) (v (.draft slug path))

/-- What the loop of `clearOldDrafts` leaves. -/
def cleared (v : Store) (slug : Slug) (cutoff : Int) (paths : List Bytes) : Store
  | .draft s p => if s = slug ∧ p ∈ paths ∧ keeps v slug cutoff p = false then none
    else v (.draft s p)
  | .history s p => if s = slug ∧ p ∈ paths ∧ keeps v slug cutoff p = false then []
    else v (.history s p)
  | .index s => v (.index s)

theorem clearFrom_kept {v : Store} {e : Entry} {cutoff : Int} {index : List Entry} {d : Draft}
    (hd : Option.filter (fun d : Draft => cutoff ≤ d.updatedAt) (v (.draft slug e.path)) = some d) :
    clearFrom (single absent) slug cutoff (e :: index) v =
      (⟨e.path, d.updatedAt⟩ :: (clearFrom (single absent) slug cutoff index v).1,
        (clearFrom (single absent) slug cutoff index v).2) := by
  simp only [clearFrom, bind, StateT.bind, single, hd]
  rfl

theorem clearFrom_removed {v : Store} {e : Entry} {cutoff : Int} {index : List Entry}
    (hd : Option.filter (fun d : Draft => cutoff ≤ d.updatedAt) (v (.draft slug e.path)) = none) :
    clearFrom (single absent) slug cutoff (e :: index) v =
      clearFrom (single absent) slug cutoff index (without v slug e.path) := by
  simp only [clearFrom, bind, StateT.bind, single, hd]
  rfl

theorem cleared_without {cutoff : Int} {paths : List Bytes}
    (hkeeps : keeps v slug cutoff path = false)
    (hsame : ∀ p, p ≠ path → keeps (without v slug path) slug cutoff p = keeps v slug cutoff p)
    (hpath : path ∉ paths) :
    cleared (without v slug path) slug cutoff paths = cleared v slug cutoff (path :: paths) := by
  funext k
  cases k with
  | draft s p =>
    simp only [cleared, without_draft, List.mem_cons]
    by_cases hs : s = slug
    · by_cases hp : p = path
      · simp [hs, hp, hkeeps, hpath]
      · simp [hs, hp, hsame p hp, Ne.symm hp]
    · simp [hs, Ne.symm hs]
  | history s p =>
    simp only [cleared, without_history, List.mem_cons]
    by_cases hs : s = slug
    · by_cases hp : p = path
      · simp [hs, hp, hkeeps, hpath]
      · simp [hs, hp, hsame p hp, Ne.symm hp]
    · simp [hs, Ne.symm hs]
  | index s => rfl

theorem clearFrom_single (v : Store) (slug : Slug) (cutoff : Int) (index : List Entry)
    (h : (index.map Entry.path).Nodup) :
    (clearFrom (single absent) slug cutoff index v).1.map Entry.path =
      (index.map Entry.path).filter (keeps v slug cutoff) ∧
    (clearFrom (single absent) slug cutoff index v).2 =
      cleared v slug cutoff (index.map Entry.path) := by
  induction index generalizing v with
  | nil =>
    refine ⟨rfl, funext fun k => ?_⟩
    cases k <;> simp [cleared] <;> rfl
  | cons e index ih =>
    rw [List.map_cons, List.nodup_cons] at h
    cases hd : Option.filter (fun d : Draft => cutoff ≤ d.updatedAt) (v (.draft slug e.path)) with
    | some d =>
      have hkeeps : keeps v slug cutoff e.path = true := by
        obtain ⟨hmem, hle⟩ := Option.filter_eq_some_iff.1 hd
        rw [keeps, hmem]
        exact hle
      obtain ⟨hpaths, hstore⟩ := ih v h.2
      rw [clearFrom_kept hd]
      refine ⟨?_, ?_⟩
      · rw [List.map_cons, List.map_cons, hpaths, List.filter_cons_of_pos hkeeps]
      · rw [hstore]
        funext k
        have hiff : ∀ p, p ∈ e.path :: index.map Entry.path ∧ keeps v slug cutoff p = false ↔
            p ∈ index.map Entry.path ∧ keeps v slug cutoff p = false := fun p => by
          rw [List.mem_cons, or_and_right, or_iff_right]
          rintro ⟨rfl, hfalse⟩
          rw [hkeeps] at hfalse
          exact absurd hfalse (by decide)
        cases k <;> simp only [cleared, List.map_cons, hiff]
    | none =>
      have hkeeps : keeps v slug cutoff e.path = false := by
        rw [keeps, Option.any_eq_false]
        intro d hmem
        simpa using Option.filter_eq_none_iff.1 hd d hmem
      have hsame : ∀ p, p ≠ e.path →
          keeps (without v slug e.path) slug cutoff p = keeps v slug cutoff p := fun p hp => by
        rw [keeps, keeps, without_draft, if_neg fun h => hp (Prod.mk.inj h).2.symm]
      obtain ⟨hpaths, hstore⟩ := ih (without v slug e.path) h.2
      rw [clearFrom_removed hd]
      refine ⟨?_, ?_⟩
      · rw [hpaths, List.map_cons, List.filter_cons_of_neg (by simp [hkeeps])]
        exact List.filter_congr fun p hp => hsame p fun hp' => h.1 (hp' ▸ hp)
      · rw [hstore]
        exact cleared_without hkeeps hsame h.1

theorem clear_represents (h : Represents v saved) (maxAgeDays now : Int) :
    Represents ((Op.clear slug maxAgeDays now).exec (single absent) v).2
      fun file => Op.saves file (saved file) (.clear slug maxAgeDays now) := by
  let limit := cutoff maxAgeDays now
  let index : List Entry := v (.index slug)
  let kept : List Entry := (clearFrom (single absent) slug limit index v).1
  obtain ⟨hpaths, hstore⟩ := clearFrom_single v slug limit index (h.nodup slug)
  have hrun : ((Op.clear slug maxAgeDays now).exec (single absent) v).2 =
      Function.update (clearFrom (single absent) slug limit index v).2 (.index slug) kept := rfl
  -- what is removed is what is too old
  have hold : ∀ p, p ∈ index.map Entry.path ∧ keeps v slug limit p = false ↔
      ∃ d ∈ (saved (slug, p)).head?, d.updatedAt < limit := fun p => by
    rw [h.mem, keeps, h.draft]
    cases saved (slug, p) <;> simp
  rw [hrun, hstore]
  refine ⟨fun s p => ?_, fun s p => ?_, fun s => ?_, fun s p => ?_⟩
  · rw [Function.update_of_ne (by simp), Op.saves]
    by_cases hs : slug = s
    · subst hs
      simp only [cleared, hold, true_and, h.draft]
      split_ifs <;> rfl
    · simp only [cleared, hs, Ne.symm hs, false_and, if_false, h.draft]
  · rw [Function.update_of_ne (by simp), Op.saves]
    by_cases hs : slug = s
    · subst hs
      simp only [cleared, hold, true_and, h.history]
      split_ifs <;> rfl
    · simp only [cleared, hs, Ne.symm hs, false_and, if_false, h.history]
  · rw [update_index]
    split_ifs
    · rw [hpaths]
      exact (h.nodup slug).filter _
    · exact h.nodup s
  · rw [update_index, Op.saves]
    by_cases hs : slug = s
    · subst hs
      rw [if_pos rfl, hpaths, List.mem_filter]
      by_cases hp : ∃ d ∈ (saved (slug, p)).head?, d.updatedAt < limit
      · rw [if_pos ⟨rfl, hp⟩]
        simp [((hold p).2 hp).2]
      · rw [if_neg fun hc => hp hc.2, ← h.mem]
        refine ⟨fun hc => hc.1, fun hmem => ⟨hmem, ?_⟩⟩
        exact Bool.eq_true_of_not_eq_false fun hfalse => hp ((hold p).1 ⟨hmem, hfalse⟩)
    · rw [if_neg hs, if_neg fun hc => hs hc.1]
      exact h.mem s p

theorem exec_represents (op : Op) (h : Represents v saved) :
    Represents (op.exec (single absent) v).2 fun file => op.saves file (saved file) := by
  cases op with
  | save => exact save_represents h _ _ _ _
  | delete => exact delete_represents h
  | clear => exact clear_represents h _ _

theorem execAll_represents (ops : List Op) (h : Represents v saved) :
    Represents (execAll (single absent) ops v).2
      fun file => ops.foldl (Op.saves file) (saved file) := by
  induction ops generalizing v saved with
  | nil => exact h
  | cons op ops ih => exact ih (exec_represents op h)

theorem readDrafts_single (v : Store) (slug : Slug) (index : List Entry) :
    readDrafts (single absent) slug index v =
      (index.flatMap fun e => (Option.map (e.path, ·) (v (.draft slug e.path))).toList, v) := by
  induction index with
  | nil => rfl
  | cons e index ih =>
    have hrun : readDrafts (single absent) slug (e :: index) v =
        ((Option.map (e.path, ·) (v (.draft slug e.path))).toList ++
          (readDrafts (single absent) slug index v).1,
          (readDrafts (single absent) slug index v).2) := rfl
    rw [hrun, ih, List.flatMap_cons]

theorem mem_listDrafts (h : Represents v saved) {d : Draft} :
    (path, d) ∈ (listDrafts (single absent) slug v).1 ↔ (saved (slug, path)).head? = some d := by
  have hrun : listDrafts (single absent) slug v =
      readDrafts (single absent) slug (v (.index slug)) v := rfl
  have hmem : (saved (slug, path)).head? = some d → path ∈ (v (.index slug)).map Entry.path :=
    fun hd => (h.mem slug path).2 fun hnil => by simp [hnil] at hd
  rw [hrun, readDrafts_single, List.mem_flatMap]
  simp only [h.draft, Option.mem_toList, Option.map_eq_some_iff, Prod.mk.injEq]
  constructor
  · rintro ⟨e, -, d', hd, rfl, rfl⟩
    exact hd
  · intro hd
    obtain ⟨e, he, rfl⟩ := List.mem_map.1 (hmem hd)
    exact ⟨e, he, d, hd, rfl, rfl⟩

end Single

/-! ### Deleted, saved and listed -/

section Runs
variable {env : Nat → Answer} {ops : List Op} {slug : Slug} {path : Bytes}

def after (env : Nat → Answer) (ops : List Op) : World Key.Val :=
  (execAll (fallback absent env) ops World.new).2

/-- No access, up to those that read the drafts of a file, passed by a value. -/
structure Undisturbed (env : Nat → Answer) (ops : List Op) (slug : Slug) (path : Bytes) :
    Prop where
  load : (loadDraft (fallback absent env) slug path (after env ops)).2.clean
  history : (loadDraftHistory (fallback absent env) slug path (after env ops)).2.clean
  list : (listDrafts (fallback absent env) slug (after env ops)).2.clean

def Op.IsSave (slug : Slug) (path : Bytes) : Op → Prop
  | .save s p _ _ _ _ => (s, p) = (slug, path)
  | _ => False

/-- What ends or replaces a draft of a time. -/
def Op.Changes (slug : Slug) (path : Bytes) (updatedAt : Int) : Op → Prop
  | .save s p _ _ _ _ => (s, p) = (slug, path)
  | .delete s p => (s, p) = (slug, path)
  | .clear s maxAgeDays now => s = slug ∧ updatedAt < cutoff maxAgeDays now

/-- No draft comes back, none gets lost, and the history has the latest saves. -/
structure Kept (env : Nat → Answer) (ops : List Op) (slug : Slug) (path : Bytes) : Prop where
  deleted : ∀ earlier later, ops = earlier ++ .delete slug path :: later →
    (∀ op ∈ later, ¬ op.IsSave slug path) →
    (loadDraft (fallback absent env) slug path (after env ops)).1 = none ∧
      ∀ d, (path, d) ∉ (listDrafts (fallback absent env) slug (after env ops)).1
  saved : ∀ earlier later content baseVersion baseContent now,
    ops = earlier ++ .save slug path content baseVersion baseContent now :: later →
    (∀ op ∈ later, ¬ op.Changes slug path now) →
    (loadDraft (fallback absent env) slug path (after env ops)).1 =
      some ⟨path, content, baseVersion, baseContent, now⟩
  history : (loadDraftHistory (fallback absent env) slug path (after env ops)).1 =
    (saves ops (slug, path)).take MAX_HISTORY

/-- Operations that leave the saves of a file as they are, one by one, leave them so together. -/
theorem foldl_saves {file : Slug × Bytes} {later : List Op} {saved : List Draft}
    (h : ∀ op ∈ later, op.saves file saved = saved) :
    later.foldl (Op.saves file) saved = saved := by
  induction later with
  | nil => rfl
  | cons op later ih =>
    rw [List.foldl_cons, h op List.mem_cons_self]
    exact ih fun op hop => h op (List.mem_cons_of_mem _ hop)

theorem saves_of_delete {earlier later : List Op}
    (h : ∀ op ∈ later, ¬ op.IsSave slug path) :
    saves (earlier ++ .delete slug path :: later) (slug, path) = [] := by
  rw [saves, List.foldl_append, List.foldl_cons]
  simp only [Op.saves, if_true]
  refine foldl_saves fun op hop => ?_
  cases op with
  | save => exact if_neg (h _ hop)
  | delete => exact ite_self _
  | clear => exact ite_self _

theorem saves_of_save {earlier later : List Op} {content : Js.Text} {baseVersion : Option Js.Text}
    {baseContent : Js.Text} {now : Int} (h : ∀ op ∈ later, ¬ op.Changes slug path now) :
    (saves (earlier ++ .save slug path content baseVersion baseContent now :: later)
      (slug, path)).head? = some ⟨path, content, baseVersion, baseContent, now⟩ := by
  rw [saves, List.foldl_append, List.foldl_cons]
  simp only [Op.saves, if_true]
  rw [foldl_saves fun op hop => ?_]
  · rfl
  · have hop := h op hop
    cases op with
    | save => exact if_neg hop
    | delete => exact if_neg hop
    | clear =>
      refine if_neg fun hc => hop ⟨hc.1, ?_⟩
      obtain ⟨-, d, hd, hlt⟩ := hc
      rwa [← Option.some.inj hd] at hlt

theorem drafts_kept (h : Undisturbed env ops slug path) : Kept env ops slug path := by
  have hrun := execAll_refines env ops
  let v : Store := (execAll (single absent) ops absent).2
  have hclean : (after env ops).clean := (Refines.read _).clean _ h.load
  have hholds : Holds absent (after env ops) v := hrun.holds _ _ holds_new hclean
  have hrep : Represents v (saves ops) := execAll_represents ops represents_absent
  have hload : (loadDraft (fallback absent env) slug path (after env ops)).1 =
      (saves ops (slug, path)).head? :=
    ((Refines.read _).result _ v hholds h.load).trans (hrep.draft slug path)
  have hlist := (listDrafts_refines slug).result _ v hholds h.list
  refine ⟨fun earlier later hops hlater => ?_, fun earlier later content baseVersion baseContent now
    hops hlater => ?_, ?_⟩
  · have hnil : saves ops (slug, path) = [] := by rw [hops, saves_of_delete hlater]
    rw [hload, hlist, hnil]
    refine ⟨rfl, fun d hd => ?_⟩
    have := (mem_listDrafts hrep).1 hd
    rw [hnil] at this
    cases this
  · rw [hload, hops, saves_of_save hlater]
  · exact ((Refines.read _).result _ v hholds h.history).trans (hrep.history slug path)

/-- A vault, a file in it, and a draft of the file. -/
def notes : Slug := ⟨utf8 "notes", by decide⟩

def todo : Bytes := utf8 "todo.md"

def firstSave : Op := .save notes todo (Js.units "buy milk") none [] 0

theorem drafts_kept_first : Kept (fun _ => ⟨true, true⟩) [firstSave] notes todo :=
  drafts_kept ⟨by decide, by decide, by decide⟩

/-- A storage that is away while a draft is deleted brings it back; one that takes nothing more
loses it. -/
theorem resurrected_or_lost :
    ¬ Kept (fun i => ⟨i < 5 || 9 ≤ i, true⟩) [firstSave, .delete notes todo] notes todo ∧
      ¬ Kept (fun _ => ⟨true, false⟩) [firstSave] notes todo := by
  constructor
  · intro h
    have := (h.deleted [firstSave] [] rfl fun op hop => absurd hop List.not_mem_nil).1
    exact absurd this (by decide)
  · intro h
    have := h.saved [] [] _ _ _ _ rfl fun op hop => absurd hop List.not_mem_nil
    exact absurd this (by decide)

end Runs

end Mdock.Web.Drafts
