import Mathlib.Logic.Function.Basic
import Mdock.Locks.Service

/-! What a request leaves in the lock table. The table before and the table after are compared
through their live locks; the fate of a path tells which calls of the lock service reached its
row, and from it one can read off whether the path is left as it was. -/
namespace Mdock.Locks
open Mdock.Go Mdock.Lib

/-- The clock of a request that runs alone: its readings lie in the time the request takes. -/
structure Clock where
  start : Instant
  stop : Instant
  now : Nat → Instant
  after : ∀ i, start ≤ now i
  before : ∀ i, now i ≤ stop

theorem Clock.start_le_stop (c : Clock) : c.start ≤ c.stop := (c.after 0).trans (c.before 0)

/-- A lock in the place of another one: it has the same owner and the same expiry, or it is the
requester's own and expires later. -/
def Renews (me : Bytes) (r r' : Row) : Prop :=
  r'.key = r.key ∧ r'.owner = r.owner ∧
    (r'.expiresAt = r.expiresAt ∨ r.owner = me ∧ r.expiresAt ≤ r'.expiresAt)

/-- A request leaves the table as it found it: no live lock is gone at the end, and none is
there that was not live at the start. -/
structure Framed (c : Clock) (me : Bytes) (t t' : FileLocks) : Prop where
  kept : ∀ r ∈ t.rows, c.stop < r.expiresAt → ∃ r' ∈ t'.rows, Renews me r r'
  noMore : ∀ r' ∈ t'.rows, c.stop < r'.expiresAt →
    ∃ r ∈ t.rows, c.start < r.expiresAt ∧ Renews me r r'

/-- No clean-up at one of the times removes the row. -/
def Outlasts (ns : List Instant) (r : Row) : Prop := ∀ n ∈ ns, ¬ format r.expiresAt ≤ format n

instance outlastsDecidable (ns : List Instant) (r : Row) : Decidable (Outlasts ns r) :=
  inferInstanceAs (Decidable (∀ n ∈ ns, ¬ _))

/-- What happens to the row of a path: expired locks are cleaned up at some times; a lock is
granted and given back; a lock is granted and left, with clean-ups after it. -/
inductive Fate
  | swept (ns : List Instant)
  | givenBack
  | left (r : Row) (ns : List Instant)

namespace Fate

def sweep (n : Instant) : Fate → Fate
  | .swept ns => .swept (ns ++ [n])
  | .givenBack => .givenBack
  | .left r ns => .left r (ns ++ [n])

/-- The row of the path afterwards. -/
def row (x : Option Row) : Fate → Option Row
  | .swept ns => x.filter fun r => decide (Outlasts ns r)
  | .givenBack => none
  | .left r ns => if Outlasts ns r then some r else none

/-- The path is left as it was: what the clean-ups remove is not live, what is given back was
not there before, and what is left is the requester's own lock, which it only prolongs. -/
def Safe (c : Clock) (me : Bytes) (x : Option Row) : Fate → Prop
  | .swept ns => ∀ r, x = some r → c.stop < r.expiresAt → Outlasts ns r
  | .givenBack => ∀ r, x = some r → r.expiresAt ≤ c.stop
  | .left r' ns =>
    (∀ r, x = some r → c.stop < r.expiresAt →
      r.owner = me ∧ r.expiresAt ≤ r'.expiresAt ∧ Outlasts ns r') ∧
    (c.stop < r'.expiresAt → Outlasts ns r' →
      ∃ r, x = some r ∧ r.owner = me ∧ c.start < r.expiresAt)

theorem row_sweep (n : Instant) (f : Fate) (x : Option Row) :
    (f.sweep n).row x = (f.row x).filter fun r => !expiredText n r := by
  have hsnoc : ∀ ns r, Outlasts (ns ++ [n]) r ↔ Outlasts ns r ∧ expiredText n r = false := by
    simp [Outlasts, expiredText, or_imp, forall_and]
  cases f with
  | swept ns =>
    apply Option.ext
    intro r
    simp only [sweep, row, Option.filter_eq_some_iff, decide_eq_true_eq, hsnoc, Bool.not_eq_true',
      and_assoc]
  | givenBack => rfl
  | left r ns =>
    simp only [sweep, row, hsnoc]
    by_cases ho : Outlasts ns r <;> by_cases he : expiredText n r = false <;>
      simp [ho, he, Option.filter_some]

/-- Read through one path, the two halves of a frame say that its fate is safe. -/
theorem framedRow_iff {c : Clock} {me : Bytes} {f : Fate} {x : Option Row} {k : Int × Bytes}
    (hx : ∀ r, x = some r → r.key = k)
    (hown : ∀ r ns, f = .left r ns → r.key = k ∧ r.owner = me) :
    (∀ r, x = some r → c.stop < r.expiresAt → ∃ r', f.row x = some r' ∧ Renews me r r') ∧
      (∀ r', f.row x = some r' → c.stop < r'.expiresAt →
        ∃ r, x = some r ∧ c.start < r.expiresAt ∧ Renews me r r') ↔ f.Safe c me x := by
  cases f with
  | swept ns =>
    simp only [row, Option.filter_eq_some_iff, decide_eq_true_eq, Safe]
    constructor
    · rintro ⟨hkept, -⟩ r hr hlive
      obtain ⟨r', ⟨hr', ho⟩, -⟩ := hkept r hr hlive
      rw [hr] at hr'
      exact Option.some.inj hr' ▸ ho
    · intro hsafe
      refine ⟨fun r hr hlive => ⟨r, ⟨hr, hsafe r hr hlive⟩, rfl, rfl, .inl rfl⟩, ?_⟩
      rintro r ⟨hr, -⟩ hlive
      exact ⟨r, hr, c.start_le_stop.trans_lt hlive, rfl, rfl, .inl rfl⟩
  | givenBack =>
    simp only [row, Safe, reduceCtorEq, false_and, exists_false, imp_false, not_lt, and_true,
      IsEmpty.forall_iff, implies_true]
  | left r₁ ns =>
    obtain ⟨hk₁, ho₁⟩ := hown r₁ ns rfl
    have hrow : ∀ r', (Fate.left r₁ ns).row x = some r' ↔ Outlasts ns r₁ ∧ r' = r₁ := by
      intro r'
      by_cases ho : Outlasts ns r₁ <;> simp [row, ho, eq_comm]
    simp only [hrow, Safe]
    constructor
    · rintro ⟨hkept, hmore⟩
      refine ⟨fun r hr hlive => ?_, fun hlive ho => ?_⟩
      · obtain ⟨r', ⟨ho, rfl⟩, -, howner, hexp⟩ := hkept r hr hlive
        refine ⟨howner ▸ ho₁, ?_, ho⟩
        rcases hexp with he | he
        · exact he.ge
        · exact he.2
      · obtain ⟨r, hr, hstart, -, howner, -⟩ := hmore r₁ ⟨ho, rfl⟩ hlive
        exact ⟨r, hr, howner ▸ ho₁, hstart⟩
    · rintro ⟨hkept, hmore⟩
      refine ⟨fun r hr hlive => ?_, ?_⟩
      · obtain ⟨hme, hle, ho⟩ := hkept r hr hlive
        exact ⟨r₁, ⟨ho, rfl⟩, hk₁.trans (hx r hr).symm, ho₁.trans hme.symm, .inr ⟨hme, hle⟩⟩
      · rintro r' ⟨ho, rfl⟩ hlive
        obtain ⟨r, hr, hme, hstart⟩ := hmore hlive ho
        refine ⟨r, hr, hstart, hk₁.trans (hx r hr).symm, ho₁.trans hme.symm, .inr ⟨hme, ?_⟩⟩
        -- a lock that had run out by the end expires before the one that is live then
        by_cases hold : c.stop < r.expiresAt
        · exact (hkept r hr hold).2.1
        · exact (not_lt.mp hold).trans hlive.le

end Fate

/-! ### From calls to fates -/

abbrev Fates := Int × Bytes → Fate

namespace Fates

/-- Before the first call. -/
def untouched : Fates := fun _ => .swept []

def sweep (f : Fates) (n : Instant) : Fates := fun k => (f k).sweep n

/-- The row `Acquire` finds on a path. -/
def found (f : Fates) (t : FileLocks) (n : Instant) (k : Int × Bytes) : Option Row :=
  (f.sweep n k).row (t.get? k)

/-- An `Acquire` that would put the row `r`, and the release that follows it or not. -/
def acquire (f : Fates) (t : FileLocks) (n : Instant) (r : Row) (release : Bool) : Fates :=
  if validArgs r.vaultID r.path r.owner r.source then
    match checkExisting (f.found t n r.key) n r.owner with
    | .error _ => f.sweep n
    | .ok () => Function.update (f.sweep n) r.key (if release then .givenBack else .left r [])
  else f

end Fates

/-- From `t` every path came to its fate, and what is left is the requester's own. -/
structure Traced (me : Bytes) (t t' : FileLocks) (f : Fates) : Prop where
  row : ∀ k, t'.get? k = (f k).row (t.get? k)
  own : ∀ k r ns, f k = .left r ns → r.key = k ∧ r.owner = me

namespace Traced
variable {me : Bytes} {t t' : FileLocks} {f : Fates}

theorem untouched (t : FileLocks) : Traced me t t Fates.untouched where
  row k := by
    cases hget : t.get? k with
    | none => rfl
    | some r => simp [Fates.untouched, Fate.row, Outlasts, Option.filter_some]
  own k r ns h := by cases h

theorem sweep (h : Traced me t t' f) (n : Instant) :
    Traced me t (cleanupExpired t' n) (f.sweep n) where
  row k := by rw [get?_cleanupExpired, h.row, Fates.sweep, Fate.row_sweep]
  own k r ns hf := by
    unfold Fates.sweep at hf
    cases hk : f k with
    | swept ns' =>
      rw [hk] at hf
      cases hf
    | givenBack =>
      rw [hk] at hf
      cases hf
    | left r' ns' =>
      rw [hk] at hf
      cases hf
      exact h.own k _ _ hk

theorem found (h : Traced me t t' f) (n : Instant) (k : Int × Bytes) :
    (cleanupExpired t' n).get? k = f.found t n k := (h.sweep n).row k

/-- A lock that is granted decides the fate of its path. -/
theorem granted (h : Traced me t t' f) {r : Row} (hr : r.owner = me) (release : Bool) :
    Traced me t (if release then Locks.release (t'.upsert r) r.vaultID r.path r.owner
      else t'.upsert r)
      (Function.update f r.key (if release then .givenBack else .left r [])) where
  row k := by
    by_cases hk : k = r.key
    · subst hk
      rw [Function.update_self]
      cases release with
      | false =>
        simp only [Bool.false_eq_true, if_false, Keyed.get?_upsert_self]
        simp [Fate.row, Outlasts]
      | true =>
        apply Option.eq_none_iff_forall_ne_some.mpr
        intro r' hr'
        rw [if_pos rfl, get?_release_some, Keyed.get?_upsert_self] at hr'
        obtain ⟨he, hno⟩ := hr'
        cases he
        exact hno ⟨rfl, rfl⟩
    · have hups : (t'.upsert r).get? k = t'.get? k := by
        rw [Keyed.get?_upsert, if_neg (Ne.symm hk)]
      rw [Function.update_of_ne hk, ← h.row k, ← hups]
      cases release with
      | false => rfl
      | true =>
        apply Option.ext
        intro r'
        rw [if_pos rfl, get?_release_some]
        exact and_iff_left fun hmine => hk hmine.1
  own k r' ns hf := by
    by_cases hk : k = r.key
    · subst hk
      rw [Function.update_self] at hf
      cases release with
      | false =>
        cases hf
        exact ⟨rfl, hr⟩
      | true => cases hf
    · rw [Function.update_of_ne hk] at hf
      exact h.own k r' ns hf

/-- An `Acquire` that fails, at most, cleans up. -/
theorem refused (h : Traced me t t' f) {n : Instant} {vaultID : Int} {path source : Bytes}
    {ttl : Int} {e : Err} {u : FileLocks}
    (hacq : Locks.acquire t' n vaultID path me source ttl = (.error e, u)) (release : Bool) :
    Traced me t u (f.acquire t n ⟨vaultID, path, me, source, n + ttl, n⟩ release) := by
  unfold Locks.acquire at hacq
  unfold Fates.acquire
  split at hacq
  · rename_i hv
    rw [h.found] at hacq
    rw [if_pos hv]
    split at hacq
    · rename_i e' hc
      cases hacq
      simp only [Row.key, hc]
      exact h.sweep n
    · cases hacq
  · rename_i hv
    cases hacq
    rw [if_neg hv]
    exact h

/-- An `Acquire` that succeeds, with the release that follows it or not. -/
theorem acquired (h : Traced me t t' f) {n : Instant} {vaultID : Int} {path source : Bytes}
    {ttl : Int} {l : Lock} {u : FileLocks}
    (hacq : Locks.acquire t' n vaultID path me source ttl = (.ok l, u)) (release : Bool) :
    Traced me t (if release then Locks.release u vaultID path me else u)
      (f.acquire t n ⟨vaultID, path, me, source, n + ttl, n⟩ release) := by
  unfold Locks.acquire at hacq
  unfold Fates.acquire
  split at hacq
  · rename_i hv
    rw [h.found] at hacq
    rw [if_pos hv]
    split at hacq
    · cases hacq
    · rename_i hc
      cases hacq
      simp only [Row.key, hc]
      exact (h.sweep n).granted rfl release
  · cases hacq

/-- The table is left as it was exactly when the fate of every path is safe. -/
theorem framedTable_iff (h : Traced me t t' f) (c : Clock) :
    Framed c me t t' ↔ ∀ k, (f k).Safe c me (t.get? k) := by
  have hpath : ∀ k, _ ↔ (f k).Safe c me (t.get? k) := fun k =>
    Fate.framedRow_iff (fun r hr => Keyed.key_of_get? hr) (h.own k)
  simp only [← hpath, ← h.row]
  constructor
  · rintro ⟨hkept, hmore⟩ k
    refine ⟨fun r hr hlive => ?_, fun r' hr' hlive => ?_⟩
    · obtain ⟨r', hm, hrenew⟩ := hkept r (Keyed.mem_of_get? hr) hlive
      refine ⟨r', ?_, hrenew⟩
      rw [Keyed.get?_eq_some_iff]
      exact ⟨hm, hrenew.1.trans (Keyed.key_of_get? hr)⟩
    · obtain ⟨r, hm, hstart, hrenew⟩ := hmore r' (Keyed.mem_of_get? hr') hlive
      refine ⟨r, ?_, hstart, hrenew⟩
      rw [Keyed.get?_eq_some_iff]
      exact ⟨hm, hrenew.1.symm.trans (Keyed.key_of_get? hr')⟩
  · intro hall
    refine ⟨fun r hr hlive => ?_, fun r' hr' hlive => ?_⟩
    · obtain ⟨r', hget, hrenew⟩ := (hall r.key).1 r (Keyed.get?_of_mem hr) hlive
      exact ⟨r', Keyed.mem_of_get? hget, hrenew⟩
    · obtain ⟨r, hget, hstart, hrenew⟩ := (hall r'.key).2 r' (Keyed.get?_of_mem hr') hlive
      exact ⟨r, Keyed.mem_of_get? hget, hstart, hrenew⟩

end Traced
end Mdock.Locks
