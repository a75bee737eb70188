import Mathlib.Algebra.Order.Group.Nat
import Mathlib.Data.List.Pairwise
import Mathlib.Data.Option.Basic
import Mdock.Go.Strings

/-! `security.RateLimiter`. Times count the nanoseconds from the zero `time.Time` on, which
no reading of the clock lies before; durations are the 64-bit integers of the source. -/
namespace Mdock.Security
open Mdock.Go

abbrev Duration := Int64

structure AttemptState where
  count : Nat
  windowEnd : Nat
  lastAccess : Nat
  deriving DecidableEq

/-- The map `attempts`. -/
abbrev Attempts := Bytes → Option AttemptState

/-- What `NewRateLimiter` sets, and what it sees to. -/
structure RateLimiter where
  limit : Int
  window : Duration
  limit_pos : 0 < limit
  window_pos : 0 < window.toInt

def newRateLimiter (limit : Int) (window : Duration) : RateLimiter where
  limit := if limit ≤ 0 then 20 else limit
  window := if window.toInt ≤ 0 then 60000000000 else window
  limit_pos := by split <;> omega
  window_pos := by
    split
    · decide
    · omega

/-- `t.Sub(u)`, which stops at the longest durations. -/
def sub (t u : Nat) : Int := max (min (t - u : Int) Int64.maxValue.toInt) Int64.minValue.toInt

def keyOf (key : Bytes) : Bytes := if key = [] then utf8 "unknown" else key

/-- No window is open, or none was ever. -/
def ended (now : Nat) (state : AttemptState) : Prop := state.windowEnd = 0 ∨ state.windowEnd < now

instance (now : Nat) (state : AttemptState) : Decidable (ended now state) :=
  inferInstanceAs (Decidable (_ ∨ _))

namespace RateLimiter
variable (l : RateLimiter)

/-- The window as a number of nanoseconds. -/
def span : Nat := l.window.toInt.toNat

def stale (now : Nat) (state : AttemptState) : Prop :=
  state.windowEnd + l.span < now ∨ (2 * l.window).toInt < sub now state.lastAccess

instance (now : Nat) (state : AttemptState) : Decidable (l.stale now state) :=
  inferInstanceAs (Decidable (_ ∨ _))

def cleanup (now : Nat) (attempts : Attempts) : Attempts := fun key =>
  (attempts key).filter fun state => ¬ l.stale now state

/-- The zero value counts as no window. -/
def state (attempts : Attempts) (key : Bytes) : AttemptState := (attempts key).getD ⟨0, 0, 0⟩

/-- `Allow` behind its cleanup. -/
def look (now : Nat) (key : Bytes) (attempts : Attempts) : Bool × Attempts :=
  let state := state attempts (keyOf key)
  if ended now state then (true, attempts)
  else
    let state := { state with lastAccess := now }
    (decide (state.count < l.limit), Function.update attempts (keyOf key) (some state))

/-- `RecordFailure` behind its cleanup. -/
def note (now : Nat) (key : Bytes) (attempts : Attempts) : Attempts :=
  let state := state attempts (keyOf key)
  if ended now state then
    Function.update attempts (keyOf key) (some ⟨1, now + l.span, now⟩)
  else
    Function.update attempts (keyOf key)
      (some { state with count := state.count + 1, lastAccess := now })

def allow (now : Nat) (key : Bytes) (attempts : Attempts) : Bool × Attempts :=
  l.look now key (l.cleanup now attempts)

def recordFailure (now : Nat) (key : Bytes) (attempts : Attempts) : Attempts :=
  l.note now key (l.cleanup now attempts)

def reset (key : Bytes) (attempts : Attempts) : Attempts :=
  Function.update attempts (keyOf key) none

end RateLimiter

/-! ### Calls and what has become of them -/

inductive Call
  | allow (key : Bytes)
  | recordFailure (key : Bytes)
  | reset (key : Bytes)
  deriving DecidableEq

/-- The calls so far, each with its time. -/
abbrev History := List (Nat × Call)

/-- The times never go back. -/
def History.Ordered (h : History) : Prop := h.Pairwise fun a b => a.1 ≤ b.1

/-- The failures recorded for the key since it was last reset. -/
def failures (key : Bytes) (h : History) : List Nat :=
  h.foldl (fun times call =>
    match call.2 with
    | .allow _ => times
    | .recordFailure k => if keyOf k = keyOf key then times ++ [call.1] else times
    | .reset k => if keyOf k = keyOf key then [] else times) []

/-- The end of the last window and the failures in it: one that comes after the end of a window
opens the next. -/
def lastWindow (span : Nat) (times : List Nat) : Option (Nat × Nat) :=
  times.foldl (fun w t =>
    match w with
    | some (last, n) => if t ≤ last then some (last, n + 1) else some (t + span, 1)
    | none => some (t + span, 1)) none

namespace RateLimiter
variable (l : RateLimiter)

/-- A window of the key is open, and at least `limit` failures were recorded in it. -/
def Exhausted (h : History) (now : Nat) (key : Bytes) : Prop :=
  ∃ last n, lastWindow l.span (failures key h) = some (last, n) ∧ now ≤ last ∧ l.limit ≤ n

/-- One call; `cleans` tells whether the limiter cleans up. -/
def call (cleans : Bool) (attempts : Attempts) (c : Nat × Call) : Attempts :=
  let cleaned := if cleans then l.cleanup c.1 attempts else attempts
  match c.2 with
  | .allow key => (l.look c.1 key cleaned).2
  | .recordFailure key => l.note c.1 key cleaned
  | .reset key => reset key attempts

def after (cleans : Bool) (h : History) : Attempts := h.foldl (l.call cleans) fun _ => none

/-- What `Allow` answers after the calls. -/
def answer (cleans : Bool) (h : History) (now : Nat) (key : Bytes) : Bool :=
  (l.look now key (if cleans then l.cleanup now (l.after cleans h) else l.after cleans h)).1

/-- After any calls the answer is that of a limiter that never cleans up. -/
def CleanupUnobservable : Prop :=
  ∀ (h : History) (now : Nat) (key : Bytes), History.Ordered (h ++ [(now, .allow key)]) →
    l.answer true h now key = l.answer false h now key

/-- After any calls the answer is no exactly where the key is exhausted. -/
def RefusesExhausted : Prop :=
  ∀ (h : History) (now : Nat) (key : Bytes), History.Ordered (h ++ [(now, .allow key)]) →
    (l.answer true h now key = false ↔ l.Exhausted h now key)

end RateLimiter

/-! ### What the map holds -/

theorem failures_recordFailure (key k : Bytes) (h : History) (t : Nat) :
    failures key (h ++ [(t, .recordFailure k)]) =
      if keyOf k = keyOf key then failures key h ++ [t] else failures key h := by
  simp [failures]

theorem failures_reset (key k : Bytes) (h : History) (t : Nat) :
    failures key (h ++ [(t, .reset k)]) =
      if keyOf k = keyOf key then [] else failures key h := by
  simp [failures]

theorem failures_allow (key k : Bytes) (h : History) (t : Nat) :
    failures key (h ++ [(t, .allow k)]) = failures key h := by
  simp [failures]

theorem lastWindow_concat (span : Nat) (times : List Nat) (t : Nat) :
    lastWindow span (times ++ [t]) =
      match lastWindow span times with
      | some (last, n) => if t ≤ last then some (last, n + 1) else some (t + span, 1)
      | none => some (t + span, 1) := by
  simp only [lastWindow, List.foldl_append, List.foldl_cons, List.foldl_nil]

/-- The map holds the open windows of the history. -/
structure Tracks (l : RateLimiter) (now : Nat) (attempts : Attempts) (h : History) : Prop where
  kept : ∀ key s, attempts key = some s →
    0 < s.windowEnd ∧ s.windowEnd ≤ s.lastAccess + l.span ∧ s.lastAccess ≤ now
  isOpen : ∀ key last n, now ≤ last →
    ((∃ s, attempts (keyOf key) = some s ∧ s.windowEnd = last ∧ s.count = n) ↔
      lastWindow l.span (failures key h) = some (last, n))

section Tracks
variable {l : RateLimiter} {now now' : Nat} {attempts : Attempts} {h : History}

theorem tracks_nil (l : RateLimiter) (now : Nat) : Tracks l now (fun _ => none) [] where
  kept key s hs := by cases hs
  isOpen key last n _ := by simp [failures, lastWindow]

theorem Tracks.later (ht : Tracks l now attempts h) (hle : now ≤ now') :
    Tracks l now' attempts h where
  kept key s hs := by
    obtain ⟨hpos, hend, hacc⟩ := ht.kept key s hs
    exact ⟨hpos, hend, hacc.trans hle⟩
  isOpen key last n hlast := ht.isOpen key last n (hle.trans hlast)

/-- `Allow` and `RecordFailure` find a window just where one is open. -/
theorem Tracks.not_ended (ht : Tracks l now attempts h) (key : Bytes) :
    ¬ ended now (RateLimiter.state attempts key) ↔
      ∃ s, attempts key = some s ∧ RateLimiter.state attempts key = s ∧ now ≤ s.windowEnd := by
  unfold RateLimiter.state
  cases hs : attempts key with
  | none => simp [ended]
  | some s =>
    obtain ⟨hpos, -, -⟩ := ht.kept key s hs
    simp only [ended, Option.getD_some, Option.some.injEq, exists_eq_left', true_and]
    omega

theorem look_ended {key : Bytes} (ho : ended now (RateLimiter.state attempts (keyOf key))) :
    l.look now key attempts = (true, attempts) := if_pos ho

theorem look_open {key : Bytes} {s : AttemptState}
    (hs : RateLimiter.state attempts (keyOf key) = s) (ho : ¬ ended now s) :
    l.look now key attempts = (decide ((s.count : Int) < l.limit),
      Function.update attempts (keyOf key) (some { s with lastAccess := now })) := by
  subst hs
  exact if_neg ho

theorem note_ended {key : Bytes} (ho : ended now (RateLimiter.state attempts (keyOf key))) :
    l.note now key attempts =
      Function.update attempts (keyOf key) (some ⟨1, now + l.span, now⟩) := if_pos ho

theorem note_open {key : Bytes} {s : AttemptState}
    (hs : RateLimiter.state attempts (keyOf key) = s) (ho : ¬ ended now s) :
    l.note now key attempts = Function.update attempts (keyOf key)
      (some { s with count := s.count + 1, lastAccess := now }) := by
  subst hs
  exact if_neg ho

/-- A call puts a state that is kept well under its key. -/
theorem Tracks.kept_update (ht : Tracks l now attempts h) {key : Bytes} {s : AttemptState}
    (hs : 0 < s.windowEnd ∧ s.windowEnd ≤ s.lastAccess + l.span ∧ s.lastAccess ≤ now)
    (k : Bytes) (s' : AttemptState) (hs' : Function.update attempts key (some s) k = some s') :
    0 < s'.windowEnd ∧ s'.windowEnd ≤ s'.lastAccess + l.span ∧ s'.lastAccess ≤ now := by
  by_cases hk : k = key
  · subst hk
    rw [Function.update_self] at hs'
    cases hs'
    exact hs
  · rw [Function.update_of_ne hk] at hs'
    exact ht.kept k s' hs'

theorem Tracks.answer (ht : Tracks l now attempts h) (key : Bytes) :
    (l.look now key attempts).1 = false ↔ l.Exhausted h now key := by
  have hopen := ht.not_ended (keyOf key)
  by_cases ho : ended now (RateLimiter.state attempts (keyOf key))
  · simp only [look_ended ho, Bool.true_eq_false, false_iff]
    rintro ⟨last, n, hw, hlast, -⟩
    obtain ⟨s, hs, rfl, -⟩ := (ht.isOpen key last n hlast).mpr hw
    refine absurd ho (hopen.mpr ⟨s, hs, ?_, hlast⟩)
    simp [RateLimiter.state, hs]
  · obtain ⟨s, hs, hst, hlast⟩ := hopen.mp ho
    rw [hst] at ho
    have hw := (ht.isOpen key s.windowEnd s.count hlast).mp ⟨s, hs, rfl, rfl⟩
    simp only [look_open hst ho, decide_eq_false_iff_not, not_lt]
    constructor
    · exact fun hc => ⟨_, _, hw, hlast, hc⟩
    · rintro ⟨last, n, hw', -, hc⟩
      rw [hw] at hw'
      cases hw'
      exact hc

theorem Tracks.look (ht : Tracks l now attempts h) (key : Bytes) :
    Tracks l now (l.look now key attempts).2 (h ++ [(now, .allow key)]) := by
  by_cases ho : ended now (RateLimiter.state attempts (keyOf key))
  · rw [look_ended ho]
    refine ⟨ht.kept, fun k last n hlast => ?_⟩
    rw [failures_allow]
    exact ht.isOpen k last n hlast
  · obtain ⟨s, hs, hst, hlast⟩ := (ht.not_ended (keyOf key)).mp ho
    obtain ⟨hpos, hend, hacc⟩ := ht.kept _ s hs
    rw [hst] at ho
    rw [look_open hst ho]
    refine ⟨ht.kept_update ⟨hpos, hend.trans (Nat.add_le_add_right hacc _), le_rfl⟩,
      fun k last n hle => ?_⟩
    rw [failures_allow, ← ht.isOpen k last n hle]
    by_cases hk : keyOf k = keyOf key
    · simp [hk, hs]
    · simp only [Function.update_of_ne hk]

theorem Tracks.note (ht : Tracks l now attempts h) (key : Bytes) :
    Tracks l now (l.note now key attempts) (h ++ [(now, .recordFailure key)]) := by
  have hopen := ht.not_ended (keyOf key)
  by_cases ho : ended now (RateLimiter.state attempts (keyOf key))
  · have hspan : 0 < l.span := by
      have hpos := l.window_pos
      unfold RateLimiter.span
      omega
    rw [note_ended ho]
    refine ⟨ht.kept_update ⟨Nat.add_pos_right _ hspan, le_rfl, le_rfl⟩, fun k last n hle => ?_⟩
    by_cases hk : keyOf k = keyOf key
    · have hclosed : ∀ last n, lastWindow l.span (failures k h) = some (last, n) → last < now := by
        intro last n hw
        by_contra hle
        obtain ⟨s, hs, rfl, -⟩ := (ht.isOpen k last n (not_lt.mp hle)).mpr hw
        rw [hk] at hs
        exact absurd ho (hopen.mpr ⟨s, hs, by simp [RateLimiter.state, hs], not_lt.mp hle⟩)
      rw [failures_recordFailure, if_pos hk.symm, lastWindow_concat, hk, Function.update_self]
      cases hw : lastWindow l.span (failures k h) with
      | none => simp
      | some w => simp [if_neg (not_le.mpr (hclosed w.1 w.2 hw))]
    · rw [failures_recordFailure, if_neg (Ne.symm hk), Function.update_of_ne hk]
      exact ht.isOpen k last n hle
  · obtain ⟨s, hs, hst, hlast⟩ := hopen.mp ho
    obtain ⟨hpos, hend, hacc⟩ := ht.kept _ s hs
    rw [hst] at ho
    rw [note_open hst ho]
    refine ⟨ht.kept_update ⟨hpos, hend.trans (Nat.add_le_add_right hacc _), le_rfl⟩,
      fun k last n hle => ?_⟩
    by_cases hk : keyOf k = keyOf key
    · have hw := (ht.isOpen k s.windowEnd s.count hlast).mp ⟨s, hk ▸ hs, rfl, rfl⟩
      rw [failures_recordFailure, if_pos hk.symm, lastWindow_concat, hk, Function.update_self, hw]
      simp [if_pos hlast]
    · rw [failures_recordFailure, if_neg (Ne.symm hk), Function.update_of_ne hk]
      exact ht.isOpen k last n hle

theorem Tracks.reset (ht : Tracks l now attempts h) (key : Bytes) :
    Tracks l now (RateLimiter.reset key attempts) (h ++ [(now, .reset key)]) := by
  unfold RateLimiter.reset
  refine ⟨fun k s hs => ?_, fun k last n hle => ?_⟩
  · by_cases hk : k = keyOf key
    · subst hk
      rw [Function.update_self] at hs
      cases hs
    · rw [Function.update_of_ne hk] at hs
      exact ht.kept k s hs
  · rw [failures_reset]
    by_cases hk : keyOf k = keyOf key
    · simp [hk, lastWindow]
    · rw [if_neg (Ne.symm hk), Function.update_of_ne hk]
      exact ht.isOpen k last n hle

theorem stale_iff (state : AttemptState) (hw : l.window.toInt < 2 ^ 62)
    (hacc : state.lastAccess ≤ now) :
    l.stale now state ↔ state.windowEnd + l.span < now ∨ state.lastAccess + 2 * l.span < now := by
  have hpos := l.window_pos
  have hspan : (l.span : Int) = l.window.toInt := Int.toNat_of_nonneg hpos.le
  have htwo : (2 * l.window).toInt = 2 * l.window.toInt := by
    rw [Int64.toInt_mul, show (2 : Int64).toInt = 2 from rfl]
    exact Int.bmod_eq_of_le (by omega) (by omega)
  have hmax : Int64.maxValue.toInt = 2 ^ 63 - 1 := by decide
  have hmin : Int64.minValue.toInt = -2 ^ 63 := by decide
  simp only [RateLimiter.stale, htwo, sub, hmax, hmin]
  omega

/-- What the cleanup drops is no open window. -/
theorem Tracks.cleanup (hw : l.window.toInt < 2 ^ 62) (ht : Tracks l now attempts h) :
    Tracks l now (l.cleanup now attempts) h := by
  have hiff : ∀ key s, l.cleanup now attempts key = some s ↔
      attempts key = some s ∧ ¬ l.stale now s := fun key s => by
    simp [RateLimiter.cleanup, Option.filter_eq_some_iff]
  refine ⟨fun key s hs => ht.kept key s ((hiff key s).mp hs).1, fun key last n hlast => ?_⟩
  rw [← ht.isOpen key last n hlast]
  refine exists_congr fun s => ?_
  rw [hiff, and_assoc, and_congr_right_iff]
  intro hs
  refine and_iff_right_of_imp ?_
  rintro ⟨rfl, -⟩
  obtain ⟨-, hend, hacc⟩ := ht.kept _ s hs
  rw [stale_iff s hw hacc]
  omega

/-- One call, with the cleanup or without. -/
theorem Tracks.call (ht : Tracks l now attempts h) {cleans : Bool}
    (hw : cleans = true → l.window.toInt < 2 ^ 62) (c : Call) :
    Tracks l now (l.call cleans attempts (now, c)) (h ++ [(now, c)]) := by
  have hclean : Tracks l now (if cleans then l.cleanup now attempts else attempts) h := by
    split
    · exact ht.cleanup (hw ‹_›)
    · exact ht
  cases c with
  | allow key => exact hclean.look key
  | recordFailure key => exact hclean.note key
  | reset key => exact ht.reset key

theorem tracks_after {cleans : Bool} (hw : cleans = true → l.window.toInt < 2 ^ 62)
    (h : History) {now : Nat} (hord : h.Ordered) (hnow : ∀ c ∈ h, c.1 ≤ now) :
    Tracks l now (l.after cleans h) h := by
  induction h using List.reverseRecOn generalizing now with
  | nil => exact tracks_nil l now
  | append_singleton h c ih =>
    obtain ⟨hord, -, hlast⟩ := List.pairwise_append.mp hord
    have ht := ih hord fun c' hc' => hlast c' hc' c (List.mem_singleton.mpr rfl)
    rw [RateLimiter.after, List.foldl_append, List.foldl_cons, List.foldl_nil]
    exact (ht.call hw c.2).later (hnow c (by simp))

/-- With the cleanup or without, the answers are read off the history. -/
theorem answer_iff {cleans : Bool} (hw : cleans = true → l.window.toInt < 2 ^ 62) {h : History}
    {now : Nat} {key : Bytes} (hord : History.Ordered (h ++ [(now, .allow key)])) :
    l.answer cleans h now key = false ↔ l.Exhausted h now key := by
  obtain ⟨hord, -, hlast⟩ := List.pairwise_append.mp hord
  have ht := tracks_after hw h hord fun c hc => hlast c hc _ (List.mem_singleton.mpr rfl)
  unfold RateLimiter.answer
  split
  · exact (ht.cleanup (hw ‹_›)).answer key
  · exact ht.answer key

end Tracks

/-! ### A window that is too long to be doubled -/

section Overflow
variable {l : RateLimiter}

/-- Twice the window is negative then, and every entry counts as old. -/
theorem cleanup_overflow (hw : 2 ^ 62 ≤ l.window.toInt) {now : Nat} {attempts : Attempts}
    (hacc : ∀ key s, attempts key = some s → s.lastAccess ≤ now) :
    l.cleanup now attempts = fun _ => none := by
  have hlt : l.window.toInt < 2 ^ 63 := l.window.toInt_lt
  have htwo : (2 * l.window).toInt = 2 * l.window.toInt - 2 ^ 64 := by
    rw [Int64.toInt_mul, show (2 : Int64).toInt = 2 from rfl, ← Int.sub_bmod_right]
    exact Int.bmod_eq_of_le (by omega) (by omega)
  have hmax : Int64.maxValue.toInt = 2 ^ 63 - 1 := by decide
  have hmin : Int64.minValue.toInt = -2 ^ 63 := by decide
  funext key
  rw [RateLimiter.cleanup, Option.filter_eq_none_iff]
  intro s hs
  have hle := hacc key s hs
  simp only [RateLimiter.stale, htwo, sub, hmax, hmin, decide_not, Bool.not_eq_true',
    decide_eq_false_iff_not, not_not]
  omega

/-- Any number of failures at one time. -/
def burst (n : Nat) : History := List.replicate n (0, .recordFailure [])

theorem burst_ordered (n : Nat) : History.Ordered (burst n ++ [(0, .allow [])]) := by
  refine List.pairwise_of_forall_mem_list fun a ha b _ => ?_
  have h0 : a.1 = 0 := by
    rcases List.mem_append.mp ha with ha | ha
    · rw [List.eq_of_mem_replicate ha]
    · rw [List.mem_singleton.mp ha]
  omega

theorem lastWindow_burst (l : RateLimiter) (n : Nat) :
    lastWindow l.span (failures [] (burst (n + 1))) = some (l.span, n + 1) := by
  induction n with
  | zero => simp [burst, failures, lastWindow]
  | succ n ih =>
    have hb : burst (n + 1 + 1) = burst (n + 1) ++ [(0, .recordFailure [])] :=
      List.replicate_succ'
    rw [hb, failures_recordFailure, if_pos rfl, lastWindow_concat, ih]
    simp

theorem lastAccess_note {now : Nat} {attempts : Attempts} {key : Bytes}
    (hacc : ∀ k s, attempts k = some s → s.lastAccess ≤ now) (k : Bytes) (s : AttemptState)
    (hs : l.note now key attempts k = some s) : s.lastAccess ≤ now := by
  by_cases hk : k = keyOf key
  · subst hk
    by_cases ho : ended now (RateLimiter.state attempts (keyOf key))
    · rw [note_ended ho, Function.update_self] at hs
      cases hs
      exact le_rfl
    · rw [note_open rfl ho, Function.update_self] at hs
      cases hs
      exact le_rfl
  · have hold : l.note now key attempts k = attempts k := by
      unfold RateLimiter.note
      split <;> exact Function.update_of_ne hk _ _
    exact hacc k s (hold ▸ hs)

theorem lastAccess_burst (n : Nat) (key : Bytes) (s : AttemptState)
    (hs : l.after true (burst n) key = some s) : s.lastAccess ≤ 0 := by
  induction n generalizing key s with
  | zero => cases hs
  | succ n ih =>
    rw [burst, List.replicate_succ', RateLimiter.after, List.foldl_append] at hs
    refine lastAccess_note (fun k s hs => ?_) key s hs
    exact ih k s (Option.eq_some_of_filter_eq_some hs)

/-- The limiter lets everything through. -/
theorem answer_burst (hw : 2 ^ 62 ≤ l.window.toInt) (n : Nat) :
    l.answer true (burst n) 0 [] = true := by
  unfold RateLimiter.answer
  rw [if_pos rfl, cleanup_overflow hw (lastAccess_burst n)]
  rfl

end Overflow

/-- The cleanup goes unnoticed, and just the exhausted keys are refused, exactly where twice the
window is a duration. -/
theorem cleanup_unobservable_iff (limit : Int) (window : Duration) :
    (newRateLimiter limit window).CleanupUnobservable ∧
        (newRateLimiter limit window).RefusesExhausted ↔
      (newRateLimiter limit window).window.toInt < 2 ^ 62 := by
  generalize newRateLimiter limit window = l
  constructor
  · rintro ⟨-, hrefuse⟩
    by_contra hw
    obtain ⟨n, hn⟩ := Int.eq_succ_of_zero_lt l.limit_pos
    have hex : l.Exhausted (burst (n + 1)) 0 [] :=
      ⟨_, _, lastWindow_burst l n, Nat.zero_le _, by rw [hn]; push_cast; rfl⟩
    have hno := (hrefuse (burst (n + 1)) 0 [] (burst_ordered _)).mpr hex
    rw [answer_burst (not_lt.mp hw)] at hno
    cases hno
  · intro hw
    refine ⟨fun h now key hord => ?_, fun h now key hord => answer_iff (fun _ => hw) hord⟩
    rw [Bool.eq_iff_iff, ← Bool.not_eq_false, ← Bool.not_eq_false, answer_iff (fun _ => hw) hord,
      answer_iff (fun h => by cases h) hord]

/-- A window of 1500000 hours: the failures in it are forgotten at once. -/
def longWindow : Duration := 5400000000000000000

theorem longWindow_forgets :
    ¬ ((newRateLimiter 1 longWindow).CleanupUnobservable ∧
      (newRateLimiter 1 longWindow).RefusesExhausted) := by
  rintro ⟨h, -⟩
  have hyes : (newRateLimiter 1 longWindow).answer true (burst 1) 0 [] = true := by decide +kernel
  have hno : (newRateLimiter 1 longWindow).answer false (burst 1) 0 [] = false := by decide +kernel
  rw [h _ _ _ (burst_ordered 1), hno] at hyes
  cases hyes

end Mdock.Security
