import Mdock.Editor.Blocks

/-! What of a text is replaced to make another one of it. -/
namespace Mdock.Editor.Changes
open Mdock.Js Mdock.Editor.Blocks

/-- `start` and `stop` are the fields `from` and `to`. -/
structure Change where
  start : Int
  stop : Int
  insert : Text
  deriving DecidableEq

def minLen (oldContent newContent : Text) : Nat := min oldContent.length newContent.length

def prefixLen (oldContent newContent : Text) : Nat :=
  advance (fun i => oldContent[i]? = newContent[i]?) (minLen oldContent newContent) 0

def suffixLen (oldContent newContent : Text) : Nat :=
  advance (fun i => oldContent[oldContent.length - 1 - i]? = newContent[newContent.length - 1 - i]?)
    (minLen oldContent newContent - prefixLen oldContent newContent) 0

def computeChanges (oldContent newContent : Text) : List Change :=
  let first := prefixLen oldContent newContent
  if first = oldContent.length ∧ first = newContent.length then []
  else
    let last := suffixLen oldContent newContent
    [⟨first, oldContent.length - last, slice newContent first (newContent.length - last)⟩]

/-- A document after changes whose positions are those in it, from a position on. -/
def applyChanges (doc : Text) : Int → List Change → Text
  | k, [] => slice doc k doc.length
  | k, c :: cs => slice doc k c.start ++ c.insert ++ applyChanges doc c.stop cs

variable {oldContent newContent : Text}

theorem prefixLen_le (oldContent newContent : Text) :
    prefixLen oldContent newContent ≤ minLen oldContent newContent :=
  advance_le (Nat.zero_le _)

theorem suffixLen_le (oldContent newContent : Text) :
    prefixLen oldContent newContent + suffixLen oldContent newContent ≤
      minLen oldContent newContent := by
  have hprefix := prefixLen_le oldContent newContent
  have hsuffix : suffixLen oldContent newContent ≤
    minLen oldContent newContent - prefixLen oldContent newContent := advance_le (Nat.zero_le _)
  omega

/-- What the first loop has passed. -/
theorem take_prefixLen (oldContent newContent : Text) :
    oldContent.take (prefixLen oldContent newContent) =
      newContent.take (prefixLen oldContent newContent) := by
  refine List.ext_getElem? fun i => ?_
  by_cases hi : i < prefixLen oldContent newContent
  · rw [List.getElem?_take_of_lt hi, List.getElem?_take_of_lt hi]
    exact of_decide_eq_true (of_lt_advance (Nat.zero_le i) hi)
  · simp only [List.getElem?_take, hi, if_false]

/-- What the second loop has passed. -/
theorem drop_suffixLen :
    oldContent.drop (oldContent.length - suffixLen oldContent newContent) =
      newContent.drop (newContent.length - suffixLen oldContent newContent) := by
  have hle := suffixLen_le oldContent newContent
  have hold : minLen oldContent newContent ≤ oldContent.length := Nat.min_le_left _ _
  have hnew : minLen oldContent newContent ≤ newContent.length := Nat.min_le_right _ _
  refine List.ext_getElem? fun i => ?_
  rw [List.getElem?_drop, List.getElem?_drop]
  by_cases hi : i < suffixLen oldContent newContent
  · have hpass := of_decide_eq_true (of_lt_advance
      (i := suffixLen oldContent newContent - 1 - i) (Nat.zero_le _) (by
        change _ < suffixLen oldContent newContent
        omega))
    have hleft : oldContent.length - 1 - (suffixLen oldContent newContent - 1 - i) =
        oldContent.length - suffixLen oldContent newContent + i := by omega
    have hright : newContent.length - 1 - (suffixLen oldContent newContent - 1 - i) =
        newContent.length - suffixLen oldContent newContent + i := by omega
    rw [hleft, hright] at hpass
    exact hpass
  · rw [List.getElem?_eq_none (by omega), List.getElem?_eq_none (by omega)]

theorem computeChanges_eq_nil_iff : computeChanges oldContent newContent = [] ↔
    oldContent = newContent := by
  simp only [computeChanges]
  constructor
  · intro h
    split_ifs at h with hwhole
    have htake := take_prefixLen oldContent newContent
    rwa [List.take_of_length_le hwhole.1.ge, List.take_of_length_le hwhole.2.ge] at htake
  · rintro rfl
    have hwhole : prefixLen oldContent oldContent = oldContent.length := by
      by_contra hne
      have hlt : prefixLen oldContent oldContent < minLen oldContent oldContent := by
        have := prefixLen_le oldContent oldContent
        rw [minLen, Nat.min_self] at this ⊢
        omega
      have hstop := not_of_advance_lt hlt
      simp at hstop
    rw [if_pos ⟨hwhole, hwhole⟩]

/-- The changes lie in the old text, make the new one of it, and are none if the texts are equal. -/
theorem computeChanges_spec (oldContent newContent : Text) :
    applyChanges oldContent 0 (computeChanges oldContent newContent) = newContent ∧
    (computeChanges oldContent newContent = [] ↔ oldContent = newContent) ∧
    ∀ c ∈ computeChanges oldContent newContent,
      0 ≤ c.start ∧ c.start ≤ c.stop ∧ c.stop ≤ oldContent.length := by
  have hle := suffixLen_le oldContent newContent
  have hold : minLen oldContent newContent ≤ oldContent.length := Nat.min_le_left _ _
  have hnew : minLen oldContent newContent ≤ newContent.length := Nat.min_le_right _ _
  refine ⟨?_, computeChanges_eq_nil_iff, fun c hc => ?_⟩
  · by_cases hequal : oldContent = newContent
    · rw [computeChanges_eq_nil_iff.mpr hequal, applyChanges, ← hequal]
      exact (slice_nat oldContent 0 _).trans (by simp)
    · have hwhole : ¬ (prefixLen oldContent newContent = oldContent.length ∧
          prefixLen oldContent newContent = newContent.length) := fun h => hequal (by
        rw [← computeChanges_eq_nil_iff, computeChanges, if_pos h])
      have hcastOld : (oldContent.length : Int) - suffixLen oldContent newContent =
          ((oldContent.length - suffixLen oldContent newContent : Nat) : Int) := by omega
      have hcastNew : (newContent.length : Int) - suffixLen oldContent newContent =
          ((newContent.length - suffixLen oldContent newContent : Nat) : Int) := by omega
      have hfirst : slice oldContent 0 (prefixLen oldContent newContent) =
          newContent.take (prefixLen oldContent newContent) :=
        (slice_nat oldContent 0 _).trans (take_prefixLen oldContent newContent)
      have hlast : slice oldContent
          (oldContent.length - suffixLen oldContent newContent : Nat) oldContent.length =
          newContent.drop (newContent.length - suffixLen oldContent newContent) := by
        rw [slice_nat, List.take_length, drop_suffixLen]
      simp only [computeChanges, if_neg hwhole, applyChanges, hcastOld, hcastNew, hfirst, hlast,
        slice_nat]
      have hlen : prefixLen oldContent newContent ≤
          (newContent.take (newContent.length - suffixLen oldContent newContent)).length := by
        rw [List.length_take]
        omega
      rw [List.append_assoc, ← List.drop_append_of_le_length hlen, List.take_append_drop,
        List.take_append_drop]
  · simp only [computeChanges] at hc
    split_ifs at hc with hwhole
    · simp at hc
    · obtain rfl := List.mem_singleton.mp hc
      simp only
      omega

end Mdock.Editor.Changes
