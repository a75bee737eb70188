import Mdock.Go.Strings

/-! Percent-encoding of `net/url`, and the path that `url.Parse` reads out of a header. -/
namespace Mdock.Go

def ishex (c : UInt8) : Bool :=
  (0x30 ≤ c && c ≤ 0x39) || (0x61 ≤ c && c ≤ 0x66) || (0x41 ≤ c && c ≤ 0x46)

def unhex (c : UInt8) : UInt8 :=
  if 0x30 ≤ c && c ≤ 0x39 then c - 0x30
  else if 0x61 ≤ c && c ≤ 0x66 then c - 0x61 + 10
  else if 0x41 ≤ c && c ≤ 0x46 then c - 0x41 + 10
  else 0

/-- `url.unescape` in its path modes, `none` being an `EscapeError`. -/
def unescape : Bytes → Option Bytes
  | [] => some []
  | c :: s =>
    if c = percent then
      match s with
      | h :: l :: rest =>
        if ishex h && ishex l then (unescape rest).map ((unhex h <<< 4 ||| unhex l) :: ·) else none
      | _ => none
    else (unescape s).map (c :: ·)

def upperhex (n : UInt8) : UInt8 := if n < 10 then 0x30 + n else 0x41 + (n - 10)

/-- `url.shouldEscape(c, encodePathSegment)`. -/
def shouldEscape (c : UInt8) : Bool :=
  if (0x61 ≤ c && c ≤ 0x7A) || (0x41 ≤ c && c ≤ 0x5A) || (0x30 ≤ c && c ≤ 0x39) then false
  else if c ∈ utf8 "-_.~" then false
  else if c ∈ utf8 "$&+,/:;=?@" then decide (c ∈ utf8 "/;,?")
  else true

def escapeByte (c : UInt8) : Bytes :=
  if shouldEscape c then [percent, upperhex (c >>> 4), upperhex (c &&& 15)] else [c]

/-- `url.PathEscape`. -/
def pathEscape (s : Bytes) : Bytes := s.flatMap escapeByte

def isLetter (c : UInt8) : Bool := (0x61 ≤ c && c ≤ 0x7A) || (0x41 ≤ c && c ≤ 0x5A)

def isSchemeByte (c : UInt8) : Bool :=
  isLetter c || (0x30 ≤ c && c ≤ 0x39) || decide (c ∈ utf8 "+-.")

/-- `url.getScheme`: whether there is a scheme, and what follows it. -/
def getScheme (raw : Bytes) : Option (Bool × Bytes) :=
  let head := raw.takeWhile isSchemeByte
  match raw.drop head.length with
  | c :: rest =>
    if c = 0x3A then
      if head = [] then none
      else if (head.head?.map isLetter).getD false then some (true, rest)
      else some (false, raw)
    else some (false, raw)
  | [] => some (false, raw)

/-- `url.Parse(raw)`, of which only `Path` is kept; `none` is a parse error.
The checks on user info, host and port are left to `authorityOk`. -/
def parseURL (authorityOk : Bytes → Bool) (raw : Bytes) : Option Bytes :=
  let (u, frag) := cut 0x23 raw
  let path : Option Bytes :=
    if u.any fun b => b < 0x20 || b = 0x7F then none
    else if u = utf8 "*" then some u
    else
      (getScheme u).bind fun (hasScheme, afterScheme) =>
        let rest := (cut 0x3F afterScheme).1
        if rest.head? ≠ some slash ∧ hasScheme then some []
        else if rest.head? ≠ some slash ∧ 0x3A ∈ (cut slash rest).1 then none
        else if (hasScheme ∨ ¬ utf8 "///" <+: rest) ∧ utf8 "//" <+: rest then
          let authority := (cut slash (rest.drop 2)).1
          if authorityOk authority then unescape (rest.drop (2 + authority.length)) else none
        else unescape rest
  path.bind fun p => if ((frag.map unescape).getD (some [])).isSome then some p else none

theorem unescape_cons_of_ne {c : UInt8} (h : c ≠ percent) (s : Bytes) :
    unescape (c :: s) = (unescape s).map (c :: ·) := by
  rw [unescape.eq_def]
  simp [h]

theorem unescape_hex {h l : UInt8} (hh : ishex h = true) (hl : ishex l = true) (s : Bytes) :
    unescape (percent :: h :: l :: s) = (unescape s).map ((unhex h <<< 4 ||| unhex l) :: ·) := by
  rw [unescape.eq_def]
  simp [hh, hl]

theorem unescape_append_of_not_mem {s : Bytes} (h : percent ∉ s) (t : Bytes) :
    unescape (s ++ t) = (unescape t).map (s ++ ·) := by
  induction s with
  | nil => simp
  | cons c s ih =>
    simp only [List.mem_cons, not_or] at h
    rw [List.cons_append, unescape_cons_of_ne (Ne.symm h.1), ih h.2]
    simp [Function.comp_def]

theorem unescape_of_not_mem {s : Bytes} (h : percent ∉ s) : unescape s = some s := by
  simpa [unescape] using unescape_append_of_not_mem h []

theorem upperhex_hex (c : UInt8) : ishex (upperhex (c >>> 4)) = true ∧
    ishex (upperhex (c &&& 15)) = true ∧
    unhex (upperhex (c >>> 4)) <<< 4 ||| unhex (upperhex (c &&& 15)) = c := by
  have h : ∀ n : Fin 256, ishex (upperhex (UInt8.ofFin n >>> 4)) = true ∧
      ishex (upperhex (UInt8.ofFin n &&& 15)) = true ∧
      unhex (upperhex (UInt8.ofFin n >>> 4)) <<< 4 ||| unhex (upperhex (UInt8.ofFin n &&& 15)) =
        UInt8.ofFin n := by
    decide +kernel
  simpa using h c.toFin

theorem unescape_escapeByte (c : UInt8) (t : Bytes) :
    unescape (escapeByte c ++ t) = (unescape t).map (c :: ·) := by
  obtain ⟨hh, hl, hc⟩ := upperhex_hex c
  by_cases he : shouldEscape c = true
  · simp only [escapeByte, he, if_true, List.cons_append, List.nil_append]
    rw [unescape_hex hh hl, hc]
  · have hne : c ≠ percent := by
      rintro rfl
      exact he (by decide)
    simp only [escapeByte, he, if_false, Bool.false_eq_true, List.cons_append, List.nil_append]
    exact unescape_cons_of_ne hne t

/-- Decoding undoes `PathEscape` in front of any text. -/
theorem unescape_pathEscape_append (s t : Bytes) :
    unescape (pathEscape s ++ t) = (unescape t).map (s ++ ·) := by
  induction s with
  | nil => simp [pathEscape]
  | cons c s ih =>
    have hcons : pathEscape (c :: s) = escapeByte c ++ pathEscape s := rfl
    rw [hcons, List.append_assoc, unescape_escapeByte, ih]
    simp [Function.comp_def]

theorem unescape_join_pathEscape (parts : List Bytes) (t : Bytes) :
    unescape (join (parts.map pathEscape) ++ t) = (unescape t).map (join parts ++ ·) := by
  induction parts with
  | nil => simp [join]
  | cons p parts ih =>
    cases parts with
    | nil => exact unescape_pathEscape_append p t
    | cons q parts =>
      simp only [List.map_cons] at ih ⊢
      rw [join, List.append_assoc, unescape_pathEscape_append, List.cons_append,
        unescape_cons_of_ne (by decide), ih]
      simp [join, Function.comp_def]

/-- Every escape that is decoded shortens the text by two bytes. -/
theorem unescape_length {s t : Bytes} (h : unescape s = some t) :
    t.length ≤ s.length ∧ (percent ∈ s → t.length + 2 ≤ s.length) := by
  induction s using unescape.induct generalizing t with
  | case1 => simp_all [unescape]
  | case2 hi lo rest hx ih =>
    simp only [Bool.and_eq_true] at hx
    rw [unescape_hex hx.1 hx.2, Option.map_eq_some_iff] at h
    obtain ⟨u, hu, rfl⟩ := h
    have hl := (ih hu).1
    simp only [List.length_cons]
    omega
  | case3 hi lo rest hx =>
    rw [unescape.eq_def] at h
    simp [hx] at h
  | case4 s hs =>
    rw [unescape.eq_def] at h
    cases s with
    | nil => simp at h
    | cons a s =>
      cases s with
      | nil => simp at h
      | cons b s => exact absurd rfl (hs a b s)
  | case5 c s hc ih =>
    rw [unescape_cons_of_ne hc, Option.map_eq_some_iff] at h
    obtain ⟨u, hu, rfl⟩ := h
    obtain ⟨hl, hp⟩ := ih hu
    refine ⟨by simpa using hl, fun hm => ?_⟩
    have hm' : percent ∈ s := by
      rcases List.mem_cons.mp hm with he | hm
      · exact absurd he.symm hc
      · exact hm
    have := hp hm'
    simp only [List.length_cons]
    omega

theorem unescape_ne_nil {s t : Bytes} (h : unescape s = some t) (hs : s ≠ []) : t ≠ [] := by
  cases s with
  | nil => exact absurd rfl hs
  | cons c s =>
    rw [unescape.eq_def] at h
    simp only at h
    split at h
    · split at h
      · split at h
        · obtain ⟨u, -, rfl⟩ := Option.map_eq_some_iff.mp h
          simp
        · cases h
      · cases h
    · obtain ⟨u, -, rfl⟩ := Option.map_eq_some_iff.mp h
      simp

end Mdock.Go
