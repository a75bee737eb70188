import Mathlib.Data.List.DropRight
import Mathlib.Data.List.Perm.Subperm
import Mdock.Js.Strings

/-! Imported files: the name that is made up for one whose path is taken. -/
namespace Mdock.Web.Import
open Mdock.Js

/-- A counter as it is put into a name. -/
def counted (counter : Nat) : Text := units " (" ++ decimal counter ++ units ")"

def candidate (base extension : Text) (counter : Nat) : Text := base ++ counted counter ++ extension

/-- `while (used.has(candidate))`. -/
def freeFrom (used : List Text) (base extension : Text) : Nat → Nat → Option Text
  | 0, _ => none
  | fuel + 1, counter =>
    if candidate base extension counter ∈ used then freeFrom used base extension fuel (counter + 1)
    else some (candidate base extension counter)

def uniquePath (fuel : Nat) (desiredPath : Text) (used : List Text) : Option Text :=
  if desiredPath ∉ used then some desiredPath
  else
    let extensionIndex := (lastIndexOf desiredPath (unit '.') desiredPath.length).getD 0
    let base := if 0 < extensionIndex then slice desiredPath 0 extensionIndex else desiredPath
    let extension :=
      if 0 < extensionIndex then slice desiredPath extensionIndex desiredPath.length else []
    freeFrom used base extension fuel 1

/-! ### Imports -/

inductive Policy
  | skip | rename | overwrite
  deriving DecidableEq

structure Item where
  path : Text
  content : Text

/-- Whether the requests for an item succeed: that for its file, and that for its directory. -/
structure Outcome where
  file : Bool
  directory : Bool

structure Stats where
  created : Nat
  renamed : Nat
  skipped : Nat
  deriving DecidableEq

/-- `created` are the paths of the files that were created, the last one first. -/
structure State where
  used : List Text
  created : List Text
  stats : Stats

def State.add (st : State) (path : Text) : State := { st with used := path :: st.used }

def State.create (st : State) (path : Text) : State := { st with created := path :: st.created }

/-- The directory is loaded and the item counted. -/
def finish (outcome : Outcome) (f : Stats → Stats) (st : State) : State × Bool :=
  if outcome.directory then ({ st with stats := f st.stats }, true) else (st, false)

/-- The body of the loop of `runImport`, and whether the loop goes on. -/
def importItem (policy : Policy) (item : Item) (outcome : Outcome) (st : State) : State × Bool :=
  if item.path ∈ st.used then
    match policy with
    | .skip => finish outcome (fun s => { s with skipped := s.skipped + 1 }) st
    | .rename =>
      match uniquePath (st.used.length + 1) item.path st.used with
      | none => (st, false)
      | some targetPath =>
        if outcome.file then
          finish outcome (fun s => { s with renamed := s.renamed + 1 })
            ((st.add targetPath).create targetPath)
        else (st.add targetPath, false)
    | .overwrite =>
      if outcome.file then
        finish outcome (fun s => { s with created := s.created + 1 }) (st.add item.path)
      else (st, false)
  else if outcome.file then
    finish outcome (fun s => { s with created := s.created + 1 })
      ((st.create item.path).add item.path)
  else (st, false)

/-- The state at the end of the loop, and whether no request has failed. -/
def importItems (policy : Policy) : List (Item × Outcome) → State → State × Bool
  | [], st => (st, true)
  | (item, outcome) :: items, st =>
    match importItem policy item outcome st with
    | (st', true) => importItems policy items st'
    | (st', false) => (st', false)

def runImport (items : List (Item × Outcome)) (existing : List Text) (policy : Policy) :
    State × Bool :=
  importItems policy items ⟨existing, [], ⟨0, 0, 0⟩⟩

/-! ### Paths -/

/-- The last segment of a path. -/
def segment (path : Text) : Text := path.rtakeWhile (· ≠ unit '/')

/-- What is in front of it. -/
def directory (path : Text) : Text := path.rdropWhile (· ≠ unit '/')

/-- What a name ends with from its last dot on; a dot it begins with is none. -/
def dotSuffix (name : Text) : Text :=
  match lastIndexOf name (unit '.') name.length with
  | some (i + 1) => name.drop (i + 1)
  | _ => []

def extensionOf (path : Text) : Text := dotSuffix (segment path)

/-- The last segment without its extension. -/
def baseOf (path : Text) : Text :=
  (segment path).take ((segment path).length - (extensionOf path).length)

/-- A path with a counter, or without, behind its base name. -/
def Sibling (path r : Text) : Prop :=
  directory r = directory path ∧ extensionOf r = extensionOf path ∧
    ∃ c, (c = [] ∨ ∃ k, c = counted k) ∧
      r = directory path ++ baseOf path ++ c ++ extensionOf path

/-- The last dot of a path, unless it is the first character, stands behind the first character of
the last segment. -/
def DotInSegment (path : Text) : Prop :=
  ∀ i, lastIndexOf path (unit '.') path.length = some i → i = 0 ∨ (directory path).length < i

variable {path d n a b base extension : Text} {c : UInt16}

/-- A directory and a name. -/
def IsSplit (d n : Text) : Prop := unit '/' ∉ n ∧ (d = [] ∨ d.getLast? = some (unit '/'))

theorem exists_split (path : Text) : IsSplit (directory path) (segment path) ∧
    directory path ++ segment path = path := by
  refine ⟨⟨fun hmem => ?_, ?_⟩, List.rdropWhile_append_rtakeWhile⟩
  · simpa using List.mem_rtakeWhile_imp hmem
  · by_cases hnil : directory path = []
    · exact .inl hnil
    · have hlast := List.rdropWhile_last_not (fun c => decide (c ≠ unit '/')) path hnil
      rw [List.getLast?_eq_some_getLast hnil]
      refine .inr (congrArg some ?_)
      by_contra hne
      exact hlast (decide_eq_true hne)

theorem directory_append (h : IsSplit d n) : directory (d ++ n) = d := by
  obtain ⟨hn, hd⟩ := h
  have hall : ∀ c ∈ n.reverse, decide (c ≠ unit '/') = true := fun c hc =>
    decide_eq_true fun heq => hn (heq ▸ List.mem_reverse.mp hc)
  rw [directory, List.rdropWhile, List.reverse_append, List.dropWhile_append_of_pos hall]
  rcases hd with rfl | hd
  · rfl
  · rw [List.getLast?_eq_head?_reverse] at hd
    cases hr : d.reverse with
    | nil => simp [hr] at hd
    | cons c r =>
      obtain rfl : c = unit '/' := by simpa [hr] using hd
      rw [List.dropWhile_cons_of_neg (by simp), ← hr, List.reverse_reverse]

theorem segment_append (h : IsSplit d n) : segment (d ++ n) = n := by
  have hsplit := (exists_split (d ++ n)).2
  rw [directory_append h] at hsplit
  exact List.append_cancel_left hsplit

/-! ### Dots -/

theorem lastIndexOf_notMem (h : c ∉ path) (k : Nat) : lastIndexOf path c k = none :=
  lastIndexOf_eq_none.mpr fun _ _ hr => h (List.mem_of_getElem? hr)

theorem lastIndexOf_append (h : c ∉ b) (hk : a.length ≤ k) :
    lastIndexOf (a ++ c :: b) c k = some a.length := by
  refine lastIndexOf_eq_some.mpr ⟨hk, by simp, fun r hr _ hget => ?_⟩
  obtain ⟨i, rfl⟩ := Nat.exists_eq_add_of_lt hr
  rw [Nat.add_assoc, List.getElem?_append_right (Nat.le_add_right _ _), Nat.add_sub_cancel_left,
    List.getElem?_cons_succ] at hget
  exact h (List.mem_of_getElem? hget)

/-- A text without the character, or cut at the last one. -/
theorem exists_last (c : UInt16) (s : Text) : c ∉ s ∨ ∃ a b, s = a ++ c :: b ∧ c ∉ b := by
  by_cases h : c ∈ s
  · obtain ⟨b, a, heq, hb⟩ := List.eq_append_cons_of_mem (List.mem_reverse.mpr h)
    refine .inr ⟨a.reverse, b.reverse, ?_, fun hmem => hb (List.mem_reverse.mp hmem)⟩
    simpa using congrArg List.reverse heq
  · exact .inl h

theorem dotSuffix_notMem (h : unit '.' ∉ n) : dotSuffix n = [] := by
  rw [dotSuffix, lastIndexOf_notMem h]

theorem dotSuffix_cons (h : unit '.' ∉ b) : dotSuffix (unit '.' :: b) = [] := by
  have hlast := lastIndexOf_append (a := []) (k := (unit '.' :: b).length) h (Nat.zero_le _)
  rw [List.nil_append] at hlast
  rw [dotSuffix, hlast]
  rfl

theorem dotSuffix_append (ha : a ≠ []) (h : unit '.' ∉ b) :
    dotSuffix (a ++ unit '.' :: b) = unit '.' :: b := by
  have hlast := lastIndexOf_append (a := a) (k := (a ++ unit '.' :: b).length) h (by simp)
  obtain ⟨k, hk⟩ := Nat.exists_eq_succ_of_ne_zero fun h0 => ha (List.length_eq_zero_iff.mp h0)
  rw [dotSuffix, hlast, hk]
  simp only
  rw [← Nat.succ_eq_add_one, ← hk, List.drop_left]

theorem notMem_counted (k : Nat) : unit '.' ∉ counted k ∧ unit '/' ∉ counted k := by
  have hno : ∀ c, isDigit c = false → c ∉ units " (" → c ∉ units ")" → c ∉ counted k := by
    intro c hdigit hopen hclose hmem
    simp only [counted, List.mem_append] at hmem
    rcases hmem with (hmem | hmem) | hmem
    · exact hopen hmem
    · rw [isDigit_of_mem_decimal hmem] at hdigit
      simp at hdigit
    · exact hclose hmem
  exact ⟨hno _ (by decide) (by decide) (by decide), hno _ (by decide) (by decide) (by decide)⟩

/-! ### The counter in a name -/

/-- Where the counter goes: behind the text, or in front of the last dot. -/
def cutPath (path : Text) : Text × Text :=
  let i := (lastIndexOf path (unit '.') path.length).getD 0
  if 0 < i then (path.take i, path.drop i) else (path, [])

theorem baseOf_append (path : Text) : baseOf path ++ extensionOf path = segment path := by
  have hcut : ∃ k ≤ (segment path).length, extensionOf path = (segment path).drop k := by
    rw [extensionOf, dotSuffix]
    split
    · next i hi =>
      obtain ⟨-, hget, -⟩ := lastIndexOf_eq_some.mp hi
      exact ⟨i + 1, Nat.le_of_lt (List.getElem?_eq_some_iff.mp hget).1, rfl⟩
    · exact ⟨_, Nat.le_refl _, by rw [List.drop_length]⟩
  obtain ⟨k, hk, hext⟩ := hcut
  rw [baseOf, hext, List.length_drop, Nat.sub_sub_self hk, List.take_append_drop]

theorem sibling_self (path : Text) : Sibling path path :=
  ⟨rfl, rfl, [], .inl rfl, by
    rw [List.append_nil, List.append_assoc, baseOf_append, (exists_split path).2]⟩

/-- A counter behind a segment that has no extension. -/
theorem sibling_end (hsplit : IsSplit d n) (hdot : dotSuffix n = []) (k : Nat)
    (hcounted : dotSuffix (n ++ counted k) = []) :
    Sibling (d ++ n) (candidate (d ++ n) [] k) := by
  have hcandidate : candidate (d ++ n) [] k = d ++ (n ++ counted k) := by simp [candidate]
  have hsplit' : IsSplit d (n ++ counted k) :=
    ⟨by simp [hsplit.1, (notMem_counted k).2], hsplit.2⟩
  have hextension : extensionOf (d ++ n) = [] := by rw [extensionOf, segment_append hsplit, hdot]
  refine ⟨?_, ?_, counted k, .inr ⟨k, rfl⟩, ?_⟩
  · rw [hcandidate, directory_append hsplit, directory_append hsplit']
  · rw [hcandidate, hextension, extensionOf, segment_append hsplit', hcounted]
  · rw [hcandidate, baseOf, hextension, directory_append hsplit, segment_append hsplit]
    simp

theorem counted_ne_nil (k : Nat) : counted k ≠ [] := by simp [counted, units]

/-- A counter in front of the extension. -/
theorem sibling_inside (hsplit : IsSplit d (a ++ unit '.' :: b)) (ha : a ≠ []) (hb : unit '.' ∉ b)
    (k : Nat) :
    Sibling (d ++ (a ++ unit '.' :: b)) (candidate (d ++ a) (unit '.' :: b) k) := by
  have hcandidate : candidate (d ++ a) (unit '.' :: b) k =
      d ++ (a ++ counted k ++ unit '.' :: b) := by simp [candidate]
  have hsplit' : IsSplit d (a ++ counted k ++ unit '.' :: b) := by
    refine ⟨?_, hsplit.2⟩
    simpa [(notMem_counted k).2] using hsplit.1
  have hextension : extensionOf (d ++ (a ++ unit '.' :: b)) = unit '.' :: b := by
    rw [extensionOf, segment_append hsplit, dotSuffix_append ha hb]
  refine ⟨?_, ?_, counted k, .inr ⟨k, rfl⟩, ?_⟩
  · rw [hcandidate, directory_append hsplit, directory_append hsplit']
  · rw [hcandidate, hextension, extensionOf, segment_append hsplit',
      dotSuffix_append (by simp [ha]) hb]
  · rw [hcandidate, baseOf, hextension, directory_append hsplit, segment_append hsplit]
    simp

/-- A counter in front of a segment that begins with a dot makes an extension of it. -/
theorem not_sibling_dot (hsplit : IsSplit d (unit '.' :: b)) (hb : unit '.' ∉ b) (k : Nat) :
    ¬ Sibling (d ++ unit '.' :: b) (candidate d (unit '.' :: b) k) := by
  rintro ⟨-, hextension, -⟩
  have hcandidate : candidate d (unit '.' :: b) k = d ++ (counted k ++ unit '.' :: b) := by
    simp [candidate]
  have hsplit' : IsSplit d (counted k ++ unit '.' :: b) :=
    ⟨by simpa [(notMem_counted k).2] using hsplit.1, hsplit.2⟩
  rw [hcandidate, extensionOf, extensionOf, segment_append hsplit', segment_append hsplit,
    dotSuffix_append (counted_ne_nil k) hb, dotSuffix_cons hb] at hextension
  simp at hextension

/-- A counter in front of a dot in a directory makes another directory of it. -/
theorem not_sibling_directory (hsplit : IsSplit (a ++ unit '.' :: b) n) (k : Nat) :
    ¬ Sibling (a ++ unit '.' :: b ++ n) (candidate a (unit '.' :: b ++ n) k) := by
  rintro ⟨hdirectory, -⟩
  have hcandidate : candidate a (unit '.' :: b ++ n) k =
      a ++ counted k ++ unit '.' :: b ++ n := by simp [candidate]
  have hsplit' : IsSplit (a ++ counted k ++ unit '.' :: b) n :=
    ⟨hsplit.1, .inr (by simpa using hsplit.2)⟩
  rw [hcandidate, directory_append hsplit', directory_append hsplit] at hdirectory
  have hlength := congrArg List.length hdirectory
  have hpos := List.length_pos_iff.mpr (counted_ne_nil k)
  simp only [List.length_append] at hlength
  omega

theorem sibling_iff (path : Text) (k : Nat) :
    Sibling path (candidate (cutPath path).1 (cutPath path).2 k) ↔ DotInSegment path := by
  obtain ⟨hsplit, hpath⟩ := exists_split path
  generalize hd : directory path = d at hsplit hpath
  generalize hn : segment path = n at hsplit hpath
  obtain hdot | ⟨a, b, heq, hb⟩ := exists_last (unit '.') path
  · have hlast := lastIndexOf_notMem hdot path.length
    have hcut : cutPath path = (path, []) := by rw [cutPath, hlast]; rfl
    have hn' : unit '.' ∉ n := fun hmem => hdot (hpath ▸ List.mem_append_right d hmem)
    refine iff_of_true ?_ fun i hi => ?_
    · rw [hcut, ← hpath]
      exact sibling_end hsplit (dotSuffix_notMem hn') k
        (dotSuffix_notMem (by simp [hn', (notMem_counted k).1]))
    · rw [hlast] at hi
      simp at hi
  · have hlast : lastIndexOf path (unit '.') path.length = some a.length := by
      rw [heq]
      exact lastIndexOf_append hb (by simp)
    have hiff : DotInSegment path ↔ a = [] ∨ d.length < a.length := by
      simp [DotInSegment, hlast, hd]
    have hcut : a ≠ [] → cutPath path = (a, unit '.' :: b) := fun ha => by
      rw [cutPath, hlast, Option.getD_some, if_pos (List.length_pos_iff.mpr ha), heq,
        List.take_left, List.drop_left]
    rw [hiff]
    by_cases ha : a = []
    · subst ha
      have hcut' : cutPath path = (path, []) := by rw [cutPath, hlast]; rfl
      refine iff_of_true ?_ (.inl rfl)
      rw [hcut', ← hpath]
      have hdots : unit '.' ∉ counted k := (notMem_counted k).1
      cases d with
      | nil =>
        obtain rfl : n = unit '.' :: b := hpath.trans heq
        exact sibling_end hsplit (dotSuffix_cons hb) k
          (dotSuffix_cons (b := b ++ counted k) (by simp [hb, hdots]))
      | cons c d =>
        obtain ⟨-, rfl⟩ := List.cons.inj (hpath.trans heq)
        have hn' : unit '.' ∉ n := fun hmem => hb (List.mem_append_right d hmem)
        exact sibling_end hsplit (dotSuffix_notMem hn') k (dotSuffix_notMem (by simp [hn', hdots]))
    · rw [hcut ha, ← hpath]
      rcases List.append_eq_append_iff.mp (hpath.trans heq) with ⟨r, rfl, rfl⟩ | ⟨r, rfl, hr⟩
      · by_cases hnil : r = []
        · subst hnil
          rw [List.append_nil]
          exact iff_of_false (not_sibling_dot hsplit hb k) (by simpa using ha)
        · refine iff_of_true (sibling_inside hsplit hnil hb k) (.inr ?_)
          rw [List.length_append]
          exact Nat.lt_add_of_pos_right (List.length_pos_iff.mpr hnil)
      · refine iff_of_false ?_ (by simp [ha])
        cases r with
        | nil =>
          obtain rfl : unit '.' :: b = n := hr
          rw [List.append_nil] at hsplit ⊢
          exact not_sibling_dot hsplit hb k
        | cons c r =>
          obtain ⟨rfl, rfl⟩ := List.cons.inj hr
          exact not_sibling_directory hsplit k

/-! ### A free counter -/

variable {used : List Text} {fuel counter : Nat} {r : Text}

theorem candidate_inj {k j : Nat} (h : candidate base extension k = candidate base extension j) :
    k = j := by
  have hcounted := List.append_cancel_left (List.append_cancel_right h)
  exact decimal_inj (List.append_cancel_left (List.append_cancel_right hcounted))

theorem freeFrom_spec (h : freeFrom used base extension fuel counter = some r) :
    ∃ k, r = candidate base extension k ∧ r ∉ used := by
  induction fuel generalizing counter with
  | zero => simp [freeFrom] at h
  | succ fuel ih =>
    rw [freeFrom] at h
    split_ifs at h with hused
    · exact ih h
    · obtain rfl := Option.some.inj h
      exact ⟨counter, rfl, hused⟩

theorem freeFrom_add (h : freeFrom used base extension fuel counter = some r) (more : Nat) :
    freeFrom used base extension (fuel + more) counter = some r := by
  induction fuel generalizing counter with
  | zero => simp [freeFrom] at h
  | succ fuel ih =>
    rw [Nat.add_right_comm, freeFrom]
    rw [freeFrom] at h
    split_ifs at h ⊢ with hused
    · exact ih h
    · exact h

theorem mem_of_freeFrom (h : freeFrom used base extension fuel counter = none) :
    ∀ k < fuel, candidate base extension (counter + k) ∈ used := by
  induction fuel generalizing counter with
  | zero => simp
  | succ fuel ih =>
    rw [freeFrom] at h
    split_ifs at h with hused
    intro k hk
    cases k with
    | zero => exact hused
    | succ k =>
      have hrest := ih h k (Nat.lt_of_succ_lt_succ hk)
      rwa [Nat.add_right_comm] at hrest

/-- There are not enough used paths to keep the loop going. -/
theorem exists_freeFrom (used : List Text) (base extension : Text) (counter : Nat) :
    ∃ r, freeFrom used base extension (used.length + 1) counter = some r := by
  refine Option.ne_none_iff_exists'.mp fun hnone => ?_
  let candidates := (List.range (used.length + 1)).map fun k =>
    candidate base extension (counter + k)
  have hnodup : candidates.Nodup :=
    List.nodup_range.map fun _ _ h => Nat.add_left_cancel (candidate_inj h)
  have hsubset : candidates ⊆ used := fun p hp => by
    obtain ⟨k, hk, rfl⟩ := List.mem_map.mp hp
    exact mem_of_freeFrom hnone k (List.mem_range.mp hk)
  have hle := (hnodup.subperm hsubset).length_le
  simp only [candidates, List.length_map, List.length_range] at hle
  omega

theorem uniquePath_eq (h : path ∈ used) (fuel : Nat) : uniquePath fuel path used =
    freeFrom used (cutPath path).1 (cutPath path).2 fuel 1 := by
  have hzero : ∀ i : Nat, slice path 0 i = path.take i := fun i => slice_nat path 0 i
  have hrest : ∀ i : Nat, slice path i path.length = path.drop i := fun i => by
    rw [slice_nat, List.take_length]
  simp only [uniquePath, h, not_true, if_false, cutPath, hzero, hrest]
  split_ifs <;> rfl

/-- The path is free and found after finitely many steps. -/
theorem uniquePath_spec (path : Text) (used : List Text) :
    ∃ r, (∀ more, uniquePath (used.length + 1 + more) path used = some r) ∧ r ∉ used ∧
      (path ∉ used → r = path) ∧
      (path ∈ used → ∃ k, r = candidate (cutPath path).1 (cutPath path).2 k) := by
  by_cases h : path ∈ used
  · obtain ⟨r, hr⟩ := exists_freeFrom used (cutPath path).1 (cutPath path).2 1
    obtain ⟨k, hk, hfree⟩ := freeFrom_spec hr
    refine ⟨r, fun more => ?_, hfree, fun hno => absurd h hno, fun _ => ⟨k, hk⟩⟩
    rw [uniquePath_eq h]
    exact freeFrom_add hr more
  · exact ⟨path, fun more => if_pos h, h, fun _ => rfl, fun hyes => absurd hyes h⟩

/-! ### A whole import -/

variable {existing : List Text} {st : State} {item : Item} {outcome : Outcome}

/-- The created paths are distinct and new, and all paths are in the set. -/
structure Distinct (existing : List Text) (st : State) : Prop where
  nodup : st.created.Nodup
  fresh : ∀ p ∈ st.created, p ∉ existing
  existing_used : ∀ p ∈ existing, p ∈ st.used
  created_used : ∀ p ∈ st.created, p ∈ st.used

theorem Distinct.add (h : Distinct existing st) (p : Text) : Distinct existing (st.add p) where
  nodup := h.nodup
  fresh := h.fresh
  existing_used q hq := List.mem_cons_of_mem p (h.existing_used q hq)
  created_used q hq := List.mem_cons_of_mem p (h.created_used q hq)

theorem Distinct.create (h : Distinct existing st) {p : Text} (hp : p ∉ st.used) :
    Distinct existing ((st.create p).add p) where
  nodup := List.nodup_cons.mpr ⟨fun hmem => hp (h.created_used p hmem), h.nodup⟩
  fresh q hq := by
    rcases List.mem_cons.mp hq with rfl | hq
    · exact fun hmem => hp (h.existing_used q hmem)
    · exact h.fresh q hq
  existing_used q hq := List.mem_cons_of_mem p (h.existing_used q hq)
  created_used q hq := by
    rcases List.mem_cons.mp hq with rfl | hq
    · exact List.mem_cons_self
    · exact List.mem_cons_of_mem p (h.created_used q hq)

theorem Distinct.finish (h : Distinct existing st) (f : Stats → Stats) :
    Distinct existing (finish outcome f st).1 := by
  rw [Import.finish]
  split_ifs
  · exact ⟨h.nodup, h.fresh, h.existing_used, h.created_used⟩
  · exact h

theorem importItem_distinct (h : Distinct existing st) :
    Distinct existing (importItem .rename item outcome st).1 := by
  obtain ⟨r, hr, hfree, -⟩ := uniquePath_spec item.path st.used
  have hr' := hr 0
  rw [Nat.add_zero] at hr'
  rw [importItem]
  simp only [hr']
  by_cases hused : item.path ∈ st.used
  · rw [if_pos hused]
    split_ifs
    · exact (h.create hfree).finish _
    · exact h.add r
  · rw [if_neg hused]
    split_ifs
    · exact (h.create hused).finish _
    · exact h

theorem importItems_distinct (items : List (Item × Outcome)) (h : Distinct existing st) :
    Distinct existing (importItems .rename items st).1 := by
  induction items generalizing st with
  | nil => exact h
  | cons i items ih =>
    obtain ⟨item, outcome⟩ := i
    have hstep : Distinct existing (importItem .rename item outcome st).1 := importItem_distinct h
    rw [importItems]
    split
    · next heq =>
      rw [heq] at hstep
      exact ih hstep
    · next heq =>
      rw [heq] at hstep
      exact hstep

/-- A taken path is given a free name, in its place if its last dot is in its last segment, and all
files of an import are new and distinct. -/
theorem uniquePath_iff (path : Text) (used : List Text) (items : List (Item × Outcome))
    (existing : List Text) :
    (∃ r, (∀ more, uniquePath (used.length + 1 + more) path used = some r) ∧
      r ∉ used ∧ (Sibling path r ↔ path ∉ used ∨ DotInSegment path)) ∧
    (runImport items existing .rename).1.created.Nodup ∧
      ∀ p ∈ (runImport items existing .rename).1.created, p ∉ existing := by
  constructor
  · obtain ⟨r, hr, hfree, hsame, hcounted⟩ := uniquePath_spec path used
    refine ⟨r, hr, hfree, ?_⟩
    by_cases h : path ∈ used
    · obtain ⟨k, rfl⟩ := hcounted h
      rw [sibling_iff]
      exact ⟨.inr, fun hor => hor.resolve_left fun hno => hno h⟩
    · rw [hsame h]
      exact iff_of_true (sibling_self path) (.inl h)
  · have hdistinct : Distinct existing ⟨existing, [], ⟨0, 0, 0⟩⟩ :=
      ⟨List.nodup_nil, by simp, fun _ hp => hp, by simp⟩
    have hend := importItems_distinct items hdistinct
    exact ⟨hend.nodup, hend.fresh⟩

/-- The counter goes into the name of the directory. -/
theorem counter_in_directory : uniquePath 2 (units "a.b/c") [units "a.b/c"] =
    some (units "a (1).b/c") ∧ ¬ Sibling (units "a.b/c") (units "a (1).b/c") := by
  refine ⟨by decide, fun h => ?_⟩
  exact absurd h.1 (by decide)

end Mdock.Web.Import
