import Mdock.Go.Strings

/-! `vault.SafeRelPath`: the paths of a vault and the names they consist of. -/
namespace Mdock.Vault
open Mdock.Go

inductive PathErr
  | absolute | traversal | git
  deriving DecidableEq

def PathErr.text : PathErr → String
  | .absolute => "absolute paths are not allowed"
  | .traversal => "path traversal is not allowed"
  | .git => ".git access is not allowed"

/-- What a method of the vault service can fail with; `io` is any error of the file system. -/
inductive Err
  | path (e : PathErr) | escapes | io
  deriving DecidableEq

/-- `vault.Info`, less size and times. -/
structure Info where
  path : Bytes
  isDir : Bool
  deriving DecidableEq

/-- `vault.Entry`, less size and times. -/
structure Entry where
  name : Bytes
  path : Bytes
  isDir : Bool
  deriving DecidableEq

def dotGit : Bytes := utf8 ".git"

def safeRelPath (input : Bytes) : Except PathErr Bytes :=
  if input = [] ∨ input = dot ∨ input = [slash] then .ok dot
  else if input.head? = some slash then .error .absolute
  else if clean input = dot then .ok dot
  else if clean input = dotdot ∨ dotdot ++ [slash] <+: clean input then .error .traversal
  else if dotGit ∈ split (clean input) then .error .git
  else .ok (clean input)

/-- A relative path in the form `path.Clean` leaves, that does not lead upwards. -/
def CleanRel (rel : Bytes) : Prop :=
  rel = dot ∨ ∃ names, names ≠ [] ∧ (∀ n ∈ names, IsName n) ∧ rel = join names

theorem normalStack_names_or {stack : List Bytes} (h : NormalStack false stack) :
    (∀ e ∈ stack, IsName e) ∨ stack.getLast? = some dotdot := by
  induction stack with
  | nil => simp
  | cons e stack ih =>
    rcases h with ⟨hn, hs⟩ | ⟨rfl, -, hs⟩
    · rcases ih hs with hall | hlast
      · exact .inl (List.forall_mem_cons.mpr ⟨hn, hall⟩)
      · right
        cases stack with
        | nil => simp at hlast
        | cons f stack => simpa [List.getLast?_cons_cons] using hlast
    · right
      rw [List.getLast?_eq_some_getLast (by simp)]
      refine congrArg some ?_
      rcases List.mem_cons.mp (List.getLast_mem (l := dotdot :: stack) (by simp)) with h | h
      · exact h
      · exact hs _ h

theorem join_dotdot {elems : List Bytes} (h : elems.head? = some dotdot) :
    join elems = dotdot ∨ dotdot ++ [slash] <+: join elems := by
  cases elems with
  | nil => simp at h
  | cons e elems =>
    obtain rfl : e = dotdot := by simpa using h
    cases elems with
    | nil => exact .inl rfl
    | cons f elems =>
      right
      rw [join]
      exact ⟨join (f :: elems), by simp⟩

/-- What a cleaned path looks like when it neither is absolute nor leads upwards. -/
theorem cleanRel_clean {p : Bytes} (hrel : p.head? ≠ some slash)
    (hup : ¬ (clean p = dotdot ∨ dotdot ++ [slash] <+: clean p)) : CleanRel (clean p) := by
  rw [clean_of_relative hrel] at hup ⊢
  split at hup
  · rename_i h
    rw [if_pos h]
    exact .inl rfl
  · rename_i hne
    rw [if_neg hne]
    refine .inr ⟨_, hne, ?_, rfl⟩
    rcases normalStack_names_or (cleanElems_normal false p) with hall | hlast
    · exact fun n hn => hall n (by simpa using hn)
    · rw [List.getLast?_reverse] at hlast
      exact absurd (join_dotdot hlast) hup

/-- What `SafeRelPath` lets through. -/
theorem safeRelPath_ok {input rel : Bytes} (h : safeRelPath input = .ok rel) :
    rel = dot ∨ rel = clean input ∧ rel ≠ dot ∧ CleanRel rel ∧ dotGit ∉ split rel := by
  unfold safeRelPath at h
  split at h
  · exact .inl (Except.ok.inj h).symm
  · split at h
    · cases h
    · rename_i hrel
      split at h
      · exact .inl (Except.ok.inj h).symm
      · rename_i hdot
        split at h
        · cases h
        · rename_i hup
          split at h
          · cases h
          · rename_i hgit
            obtain rfl := Except.ok.inj h
            exact .inr ⟨rfl, hdot, cleanRel_clean hrel hup, hgit⟩

theorem cleanRel_of_safeRelPath {input rel : Bytes} (h : safeRelPath input = .ok rel) :
    CleanRel rel := by
  rcases safeRelPath_ok h with rfl | ⟨-, -, h, -⟩
  · exact .inl rfl
  · exact h

/-- `SafeRelPath` takes a relative path to the root only where `path.Clean` does. -/
theorem safeRelPath_root {input : Bytes} (hrel : input.head? ≠ some slash) (hne : input ≠ [])
    (h : safeRelPath input = .ok dot) : clean input = dot := by
  by_contra hd
  have hin : input ≠ dot := by
    rintro rfl
    exact hd (by decide)
  have hsl : input ≠ [slash] := fun he => hrel (he ▸ rfl)
  unfold safeRelPath at h
  simp only [hne, hin, hsl, or_self, if_false, hrel, hd] at h
  split at h
  · cases h
  · split at h
    · cases h
    · exact hd (Except.ok.inj h)

theorem CleanRel.clean_eq {rel : Bytes} (h : CleanRel rel) : clean rel = rel := by
  rcases h with rfl | ⟨names, hne, hn, rfl⟩
  · decide
  · exact clean_names hne hn

theorem CleanRel.ne_nil {rel : Bytes} (h : CleanRel rel) : rel ≠ [] := by
  rcases h with rfl | ⟨names, hne, hn, rfl⟩
  · decide
  · exact join_ne_nil hne fun n hn' => (hn n hn').1

/-- The names a clean path consists of. -/
def names (rel : Bytes) : List Bytes := if rel = dot then [] else split rel

theorem names_dot : names dot = [] := if_pos rfl

theorem CleanRel.cases {rel : Bytes} (h : CleanRel rel) :
    (rel = dot ∧ names rel = []) ∨
      (names rel ≠ [] ∧ (∀ n ∈ names rel, IsName n) ∧ rel = join (names rel) ∧ rel ≠ dot) := by
  rcases h with rfl | ⟨ns, hne, hn, rfl⟩
  · exact .inl ⟨rfl, names_dot⟩
  · have hdot : join ns ≠ dot := by
      intro he
      have hs := split_join hne fun n hn' => (hn n hn').2.2.2
      rw [he] at hs
      exact absurd rfl (hn dot (by rw [← hs]; decide)).2.1
    have hns : names (join ns) = ns := by
      rw [names, if_neg hdot, split_join hne fun n hn' => (hn n hn').2.2.2]
    right
    rw [hns]
    exact ⟨hne, hn, rfl, hdot⟩

end Mdock.Vault
