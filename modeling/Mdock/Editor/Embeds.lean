import Mdock.Editor.Twice

/-! Embeds: the size behind the bar, and the style it is put into. -/
namespace Mdock.Editor.Embeds
open Mdock.Js Mdock.Lib Mdock.Editor.Commands

inductive EmbedType
  | image | pdf | audio | video | note | unknown
  deriving DecidableEq

def EmbedType.name : EmbedType → Text
  | .image => units "image"
  | .pdf => units "pdf"
  | .audio => units "audio"
  | .video => units "video"
  | .note => units "note"
  | .unknown => units "unknown"

def imageExts : List Text :=
  [units "png", units "jpg", units "jpeg", units "webp", units "gif", units "svg", units "bmp",
    units "avif"]

def pdfExts : List Text := [units "pdf"]

def audioExts : List Text :=
  [units "mp3", units "wav", units "ogg", units "flac", units "m4a", units "aac"]

def videoExts : List Text := [units "mp4", units "webm", units "mov", units "mkv", units "avi"]

def noteExts : List Text := [units "md", units "markdown"]

/-- `toLowerCase` is that of strings. -/
def detectEmbedType (toLowerCase : Text → Text) (path : Text) : EmbedType :=
  let ext := toLowerCase ((path.splitOn (unit '.')).getLastD [])
  if ext ∈ imageExts then .image
  else if ext ∈ pdfExts then .pdf
  else if ext ∈ audioExts then .audio
  else if ext ∈ videoExts then .video
  else if ext ∈ noteExts ∨ ext = [] then .note
  else .unknown

/-! ### Sizes -/

structure EmbedSize where
  width : Option Text
  height : Option Text
  raw : Text
  deriving DecidableEq

/-- `\d+(?:\.\d+)?`. -/
def number : Pattern UInt16 :=
  .seq (.plus isDigit) (.optional (.seq (lit ".") (.plus isDigit)))

/-- `(?:px|%)?`. -/
def sign : Pattern UInt16 := .optional (.alt (lit "px") (lit "%"))

/-- `(?:x(\d+(?:\.\d+)?)(?:px|%)?)?`. -/
def second : Pattern UInt16 := .optional (.seq (lit "x") (.seq number sign))

/-- The two groups of `(\d+(?:\.\d+)?)(?:px|%)?(?:x(\d+(?:\.\d+)?)(?:px|%)?)?`. -/
def matchSize (sizeStr : Text) : Option (Text × Option Text) :=
  match Pattern.parts [number, sign, second] sizeStr with
  | some [width, _, group] =>
    match Pattern.parts [lit "x", number, sign] group with
    | some [_, height, _] => some (width, some height)
    | _ => some (width, none)
  | _ => none

def parseEmbedSize (sizeStr : Text) : Option EmbedSize :=
  if sizeStr = [] then none
  else match matchSize sizeStr with
    | none => some ⟨some sizeStr, none, sizeStr⟩
    | some (width, height) => some {
        width := some (width ++ if unit '.' ∈ width ∨ height.isSome then [] else units "px")
        height := height.map (· ++ units "px")
        raw := sizeStr }

structure EmbedMarker where
  path : Text
  size : Option EmbedSize
  type : EmbedType

/-- `!\[\[([^\|\]]+)(\|([^\]]+))?\]\]`. -/
def embedParts : List (Pattern UInt16) :=
  [lit "![[", .plus fun c => decide (c ≠ unit '|' ∧ c ≠ unit ']'),
    .optional (.seq (lit "|") (.plus fun c => decide (c ≠ unit ']'))), lit "]]"]

def parseEmbedMarker (toLowerCase : Text → Text) (text : Text) : Option EmbedMarker :=
  match Pattern.parts embedParts text with
  | some [_, path, group, _] =>
    let path := trim path
    let sizeStr := trim (group.drop 1)
    some {
      path := path
      size := if sizeStr = [] then none else parseEmbedSize sizeStr
      type := detectEmbedType toLowerCase path }
  | _ => none

/-! ### Nodes -/

/-- A child of a paragraph. -/
inductive Child
  | text (value : Text)
  | other

/-- An embed node with the properties its element gets. -/
structure EmbedNode where
  embedPath : Text
  embedSize : Option EmbedSize
  embedType : EmbedType
  hName : Text
  className : List Text
  dataEmbedPath : Text
  dataEmbedType : EmbedType
  dataEmbedWidth : Option Text
  dataEmbedHeight : Option Text

/-- A value that is not empty. -/
def truthy (value : Option Text) : Option Text := value.filter (· ≠ [])

def embedNode (embed : EmbedMarker) : EmbedNode where
  embedPath := embed.path
  embedSize := embed.size
  embedType := embed.type
  hName := units "div"
  className := [units "embed", units "embed-" ++ embed.type.name]
  dataEmbedPath := embed.path
  dataEmbedType := embed.type
  dataEmbedWidth := truthy (embed.size.bind EmbedSize.width)
  dataEmbedHeight := truthy (embed.size.bind EmbedSize.height)

/-- What a paragraph is turned into. -/
def remarkEmbed (toLowerCase : Text → Text) : List Child → Option EmbedNode
  | [.text value] => (parseEmbedMarker toLowerCase value).map embedNode
  | _ => none

/-! ### Styles -/

/-- `if (value) parts.push(...)`. -/
def declared (name : String) (value : Option Text) : List Text :=
  ((truthy value).map (units name ++ ·)).toList

/-- `if (value) parts.push(...); else parts.push(...)`. -/
def declaredOr (name : String) (value : Option Text) (otherwise : String) : List Text :=
  [units name ++ (truthy value).getD (units otherwise)]

def imageStyle (width height : Option Text) : List Text :=
  [units "max-width: 100%", units "height: auto",
    units "border-radius: var(--embed-radius, var(--radius))",
    units "background: var(--embed-image-bg, var(--bg-subtle))",
    units "transition: var(--embed-image-transition, transform 150ms ease-out)"] ++
    declared "width: " width ++ declared "height: " height

def pdfStyle (width height : Option Text) : List Text :=
  [units "border: 1px solid var(--embed-pdf-border, var(--border))",
    units "border-radius: var(--embed-radius, var(--radius))",
    units "background: var(--embed-pdf-bg, var(--bg))", units "overflow: hidden",
    units "display: flex", units "flex-direction: column"] ++
    declaredOr "width: " width "100%" ++
    declaredOr "height: " height "var(--embed-pdf-height, 600px)"

def audioStyle (width : Option Text) : List Text :=
  [units "border-radius: var(--embed-radius, var(--radius))",
    units "background: var(--embed-media-bg, var(--bg))"] ++ declaredOr "width: " width "100%"

def videoStyle (width height : Option Text) : List Text :=
  [units "max-width: 100%", units "border-radius: var(--embed-radius, var(--radius))",
    units "background: var(--embed-media-bg, var(--bg))"] ++
    declared "width: " width ++ declared "height: " height

/-- The parts of the style of the element that shows the file. -/
def rehypeEmbed (node : EmbedNode) : Option (List Text) :=
  if node.dataEmbedPath = [] then none
  else match node.dataEmbedType with
    | .image => some (imageStyle node.dataEmbedWidth node.dataEmbedHeight)
    | .pdf => some (pdfStyle node.dataEmbedWidth node.dataEmbedHeight)
    | .audio => some (audioStyle node.dataEmbedWidth)
    | .video => some (videoStyle node.dataEmbedWidth node.dataEmbedHeight)
    | .note | .unknown => none

/-! ### The sizes there are -/

structure Numeral where
  digits : Text
  fraction : Option Text
  ne : digits ≠ []
  isDigit : ∀ c ∈ digits, isDigit c = true
  fraction_ne : ∀ f ∈ fraction, f ≠ []
  fraction_isDigit : ∀ f ∈ fraction, ∀ c ∈ f, Js.isDigit c = true

/-- A number without a fraction. -/
def Numeral.ofNat (k : Nat) : Numeral :=
  ⟨decimal k, none, decimal_ne_nil k, fun _ => isDigit_of_mem_decimal, by simp, by simp⟩

def Numeral.text (n : Numeral) : Text :=
  n.digits ++ (n.fraction.map (unit '.' :: ·)).getD []

/-- `N`, `NxM`, `N%`, `Npx` and `Nx`. -/
inductive Size
  | plain (n : Numeral)
  | both (n m : Numeral)
  | percent (n : Numeral)
  | px (n : Numeral)
  | loose (n : Numeral)

def Size.text : Size → Text
  | .plain n => n.text
  | .both n m => n.text ++ units "x" ++ m.text
  | .percent n => n.text ++ units "%"
  | .px n => n.text ++ units "px"
  | .loose n => n.text ++ units "x"

def Size.number : Size → Numeral
  | .plain n | .both n _ | .percent n | .px n | .loose n => n

def Size.cssUnit (s : Size) : Text := if unit '%' ∈ s.text then units "%" else units "px"

def Size.cssWidth (s : Size) : Text := s.number.text ++ s.cssUnit

def Size.cssHeight : Size → Option Text
  | .both n m => some (m.text ++ (Size.both n m).cssUnit)
  | _ => none

/-- The size is returned, passed on and put into the style as its numbers with its unit. -/
def KeepsSize (toLowerCase : Text → Text) (path : Text) (s : Size) : Prop :=
  ∃ size node style, parseEmbedSize s.text = some size ∧ size.width = some s.cssWidth ∧
    size.height = s.cssHeight ∧
    remarkEmbed toLowerCase
      [.text (units "![[" ++ path ++ units "|" ++ s.text ++ units "]]")] = some node ∧
    node.dataEmbedWidth = some s.cssWidth ∧ node.dataEmbedHeight = s.cssHeight ∧
    rehypeEmbed node = some style ∧ units "width: " ++ s.cssWidth ∈ style ∧
    ∀ h ∈ s.cssHeight, units "height: " ++ h ∈ style

/-! ### Reading a size -/

variable {n m : Numeral} {s : Size} {v : Text} {c : UInt16}

/-- What numerals are written with. -/
def isNumeric (c : UInt16) : Bool := isDigit c || c = unit '.'

theorem matches_digits {t : Text} :
    (Pattern.plus isDigit).Matches t ↔ t ≠ [] ∧ ∀ c ∈ t, isDigit c = true := by
  rw [Pattern.plus, Pattern.matches_run, ← List.length_pos_iff]
  simp [and_comm, Nat.succ_le_iff]

theorem numeric_of_matches {t : Text} (h : number.Matches t) : ∀ c ∈ t, isNumeric c = true := by
  obtain ⟨u, v, rfl, hu, hv⟩ := Pattern.matches_seq.mp h
  have hdigits : ∀ {t : Text}, (Pattern.plus isDigit).Matches t → ∀ c ∈ t, isNumeric c = true :=
    fun ht c hc => by simp [isNumeric, (matches_digits.mp ht).2 c hc]
  intro c hc
  rcases List.mem_append.mp hc with hc | hc
  · exact hdigits hu c hc
  · rcases Pattern.matches_optional.mp hv with hv | rfl
    · obtain ⟨d, w, rfl, hd, hw⟩ := Pattern.matches_seq.mp hv
      obtain rfl := Pattern.matches_literal.mp hd
      rcases List.mem_append.mp hc with hc | hc
      · rw [List.mem_singleton.mp hc]
        decide
      · exact hdigits hw c hc
    · simp at hc

theorem matches_numeral (n : Numeral) : number.Matches n.text := by
  refine Pattern.matches_seq.mpr ⟨_, _, rfl, matches_digits.mpr ⟨n.ne, n.isDigit⟩, ?_⟩
  rw [Pattern.matches_optional]
  cases h : n.fraction with
  | none => exact .inr rfl
  | some f =>
    refine .inl (Pattern.matches_seq.mpr ⟨[unit '.'], f, rfl, Pattern.matches_literal.mpr rfl, ?_⟩)
    exact matches_digits.mpr ⟨n.fraction_ne f h, n.fraction_isDigit f h⟩

theorem numeric_text (n : Numeral) : ∀ c ∈ n.text, isNumeric c = true :=
  numeric_of_matches (matches_numeral n)

theorem ends_literal_neg {d : UInt16} (h : c ≠ d) (w t : Text) :
    (Pattern.literal (d :: w)).ends (c :: t) = [] :=
  Pattern.ends_seq_eq_nil (Pattern.ends_run_cons_neg (decide_eq_false h))

/-- A sign, or nothing. -/
theorem parts_sign {as : List (Pattern UInt16)} (h : isNumeric c = true ∨ c = unit 'x') (t : Text) :
    Pattern.parts (sign :: as) (c :: t) = (Pattern.parts as (c :: t)).map ([] :: ·) := by
  have hne : c ≠ unit 'p' ∧ c ≠ unit '%' := by
    constructor <;> rintro rfl <;> exact absurd h (by decide)
  have hends : sign.ends (c :: t) = [0] := by
    rw [sign, Pattern.optional, Pattern.ends_alt, Pattern.ends_alt, lit, lit,
      show units "px" = [unit 'p', unit 'x'] from rfl, show units "%" = [unit '%'] from rfl,
      ends_literal_neg hne.1, ends_literal_neg hne.2, Pattern.ends_nothing]
    rfl
  rw [Pattern.parts_of_ends hends]
  rfl

theorem parts_number (as : List (Pattern UInt16))
    (has : ∀ c t, isNumeric c = true → Pattern.parts as (c :: t) = none) (n : Numeral)
    (hv : ∀ c ∈ v.head?, isNumeric c = false) :
    Pattern.parts (number :: as) (n.text ++ v) = (Pattern.parts as v).map (n.text :: ·) :=
  Pattern.parts_whole (fun _ => numeric_of_matches) has (matches_numeral n) hv

theorem parts_second (h : isNumeric c = true) (t : Text) :
    Pattern.parts [sign, second] (c :: t) = none := by
  have hno : ¬ second.Matches (c :: t) := fun hmatch => by
    rcases Pattern.matches_optional.mp hmatch with hmatch | hnil
    · obtain ⟨u, w, heq, hu, -⟩ := Pattern.matches_seq.mp hmatch
      obtain rfl := Pattern.matches_literal.mp hu
      rw [(List.cons.inj heq).1] at h
      exact absurd h (by decide)
    · simp at hnil
  rw [parts_sign (.inl h), Pattern.parts_single, if_neg hno]
  rfl

theorem parts_height (m : Numeral) : Pattern.parts [lit "x", number, sign] (units "x" ++ m.text) =
    some [units "x", m.text, []] := by
  have hnumber := parts_number [sign] (v := []) (fun c t h => by
    rw [parts_sign (.inl h)]
    rfl) m (by simp)
  have hlit := Pattern.parts_literal (units "x") [number, sign] m.text
  rw [List.append_nil] at hnumber
  rw [lit, hlit, hnumber]
  rfl

/-- The groups that a size is read into. -/
def Size.groups : Size → Option (Text × Option Text)
  | .plain n | .percent n | .px n => some (n.text, none)
  | .both n m => some (n.text, some m.text)
  | .loose _ => none

theorem matchSize_text (s : Size) : matchSize s.text = s.groups := by
  have hnumber : ∀ n v, (∀ c ∈ v.head?, isNumeric c = false) →
      Pattern.parts [number, sign, second] (Numeral.text n ++ v) =
        (Pattern.parts [sign, second] v).map (n.text :: ·) := fun n v hv =>
    parts_number _ (fun c t => (parts_second · t)) n hv
  cases s with
  | plain n =>
    have hparts := hnumber n [] (by simp)
    rw [List.append_nil] at hparts
    rw [matchSize, Size.text, hparts]
    rfl
  | percent n =>
    rw [matchSize, Size.text, hnumber n _ (by simp [units]; decide)]
    rfl
  | px n =>
    rw [matchSize, Size.text, hnumber n _ (by simp [units]; decide)]
    rfl
  | loose n =>
    rw [matchSize, Size.text, hnumber n _ (by simp [units]; decide)]
    rfl
  | both n m =>
    have hsecond : second.Matches (units "x" ++ m.text) := by
      refine Pattern.matches_optional.mpr (.inl (Pattern.matches_seq.mpr
        ⟨_, _, rfl, Pattern.matches_literal.mpr rfl, Pattern.matches_seq.mpr
          ⟨m.text, [], (List.append_nil _).symm, matches_numeral m, ?_⟩⟩))
      exact Pattern.matches_optional.mpr (.inr rfl)
    have hgroups : Pattern.parts [sign, second] (units "x" ++ m.text) =
        some [[], units "x" ++ m.text] := by
      have hsign : Pattern.parts [sign, second] (units "x" ++ m.text) =
          (Pattern.parts [second] (units "x" ++ m.text)).map ([] :: ·) :=
        parts_sign (.inr rfl) m.text
      rw [hsign, Pattern.parts_single, if_pos hsecond]
      rfl
    rw [matchSize, Size.text, List.append_assoc, hnumber n _ (by simp [units]; decide), hgroups]
    simp only [Option.map_some, parts_height]
    rfl

/-! ### What is kept of it -/

theorem text_ne_nil (s : Size) : s.text ≠ [] := by
  have hne : ∀ n : Numeral, n.text ≠ [] := fun n h => n.ne (List.append_eq_nil_iff.mp h).1
  cases s <;> simp [Size.text, hne]

theorem point_mem_iff (n : Numeral) : unit '.' ∈ n.text ↔ n.fraction ≠ none := by
  have hdigits : unit '.' ∉ n.digits := fun h => absurd (n.isDigit _ h) (by decide)
  cases h : n.fraction with
  | none => simp [Numeral.text, h, hdigits]
  | some f => simp [Numeral.text, h]

theorem parseEmbedSize_text (s : Size) : parseEmbedSize s.text =
    match s.groups with
    | none => some ⟨some s.text, none, s.text⟩
    | some (width, height) => some ⟨some (width ++ if unit '.' ∈ width ∨ height.isSome then []
        else units "px"), height.map (· ++ units "px"), s.text⟩ := by
  rw [parseEmbedSize, if_neg (text_ne_nil s), matchSize_text]

theorem percent_notMem (n : Numeral) : unit '%' ∉ n.text := fun h =>
  absurd (numeric_text n _ h) (by decide)

/-- The sizes that are read with their unit. -/
def Size.IsRead (s : Size) : Prop :=
  ∃ n : Numeral, n.fraction = none ∧ (s = .plain n ∨ s = .px n)

theorem cssUnit_eq (s : Size) :
    s.cssUnit = match s with
      | .percent _ => units "%"
      | _ => units "px" := by
  have hpercent := percent_notMem
  have hx : unit '%' ∉ units "x" := by decide
  have hpx : unit '%' ∉ units "px" := by decide
  have hself : unit '%' ∈ units "%" := by decide
  cases s <;> simp [Size.cssUnit, Size.text, hpercent, hx, hpx, hself]

/-- The unit is added where there is no point in the number. -/
theorem added_iff (n : Numeral) : (n.text ++ if unit '.' ∈ n.text ∨ (none : Option Text).isSome
    then [] else units "px") = n.text ++ units "px" ↔ n.fraction = none := by
  have hne : units "px" ≠ [] := by decide
  rw [List.append_cancel_left_eq]
  by_cases hpoint : unit '.' ∈ n.text
  · rw [if_pos (.inl hpoint)]
    exact iff_of_false (fun h => hne h.symm) ((point_mem_iff n).mp hpoint)
  · have hfraction : n.fraction = none := by
      by_contra h
      exact hpoint ((point_mem_iff n).mpr h)
    rw [if_neg (by simp [hpoint])]
    exact iff_of_true rfl hfraction

theorem parseEmbedSize_iff (s : Size) : (∃ size, parseEmbedSize s.text = some size ∧
    size.width = some s.cssWidth ∧ size.height = s.cssHeight) ↔ s.IsRead := by
  have hpx : units "px" ≠ units "%" := by decide
  rw [parseEmbedSize_text]
  cases s with
  | plain n =>
    have hadded := added_iff n
    simp only [Size.groups, Option.some.injEq, exists_eq_left', Size.cssWidth, cssUnit_eq,
      Size.number, Size.cssHeight, Option.map_none, and_true, hadded, Size.IsRead, Size.plain.injEq,
      reduceCtorEq, or_false, exists_eq_right']
  | px n =>
    have hadded := added_iff n
    simp only [Size.groups, Option.some.injEq, exists_eq_left', Size.cssWidth, cssUnit_eq,
      Size.number, Size.cssHeight, Option.map_none, and_true, hadded, Size.IsRead, Size.px.injEq,
      reduceCtorEq, false_or, exists_eq_right']
  | percent n =>
    refine iff_of_false ?_ ?_
    · rintro ⟨size, hsize, hwidth, -⟩
      obtain rfl := Option.some.inj hsize
      have hwidth' := List.append_cancel_left (Option.some.inj hwidth)
      have hunit : (Size.percent n).cssUnit = units "%" := cssUnit_eq _
      rw [hunit] at hwidth'
      split_ifs at hwidth' <;> exact absurd hwidth' (by decide)
    · rintro ⟨m, -, h | h⟩ <;> simp at h
  | loose n =>
    refine iff_of_false ?_ ?_
    · rintro ⟨size, hsize, hwidth, -⟩
      obtain rfl := Option.some.inj hsize
      have hwidth' := List.append_cancel_left (Option.some.inj hwidth)
      have hunit : (Size.loose n).cssUnit = units "px" := cssUnit_eq _
      rw [hunit] at hwidth'
      exact absurd hwidth' (by decide)
    · rintro ⟨m, -, h | h⟩ <;> simp at h
  | both n m =>
    refine iff_of_false ?_ ?_
    · rintro ⟨size, hsize, hwidth, -⟩
      obtain rfl := Option.some.inj hsize
      have hwidth' := List.append_cancel_left (Option.some.inj hwidth)
      have hunit : (Size.both n m).cssUnit = units "px" := cssUnit_eq _
      rw [hunit, if_pos (.inr rfl)] at hwidth'
      exact absurd hwidth' (by decide)
    · rintro ⟨m, -, h | h⟩ <;> simp at h

/-! ### A size in its place -/

theorem mem_text (s : Size) (hc : c ∈ s.text) : isNumeric c = true ∨ c ∈ units "px%" := by
  have hsub : ∀ w : String, units w ⊆ units "px%" → c ∈ units w → c ∈ units "px%" :=
    fun _ hw h => hw h
  have hnumber : ∀ n : Numeral, c ∈ n.text → isNumeric c = true := fun n => numeric_text n c
  cases s with
  | plain n => exact .inl (hnumber n hc)
  | percent n => exact (List.mem_append.mp hc).imp (hnumber n) (hsub "%" (by decide))
  | px n => exact (List.mem_append.mp hc).imp (hnumber n) (hsub "px" (by decide))
  | loose n => exact (List.mem_append.mp hc).imp (hnumber n) (hsub "x" (by decide))
  | both n m =>
    rcases List.mem_append.mp hc with hc | hc
    · exact (List.mem_append.mp hc).imp (hnumber n) (hsub "x" (by decide))
    · exact .inl (hnumber m hc)

theorem plain_of_mem (s : Size) (hc : c ∈ s.text) : isSpace c = false ∧ c ≠ unit ']' := by
  have hunit : (units "px%").all fun c => !isSpace c && c != unit ']' := by decide
  rcases mem_text s hc with h | h
  · refine ⟨Bool.eq_false_of_not_eq_true fun hspace => ?_, fun heq => ?_⟩
    · rw [isNumeric, (head_of_isSpace hspace).2.1, Bool.false_or, decide_eq_true_iff] at h
      exact absurd (h ▸ hspace) (by decide)
    · exact absurd (heq ▸ h) (by decide)
  · simpa using List.all_eq_true.mp hunit c h

theorem trim_eq_self (hv : ∀ c ∈ v, isSpace c = false) : trim v = v := by
  have hstart : ∀ u : Text, (∀ c ∈ u, isSpace c = false) → trimStart u = u := fun u hu => by
    cases u with
    | nil => rfl
    | cons c u => exact List.dropWhile_cons_of_neg (by simp [hu c List.mem_cons_self])
  rw [trim, hstart v hv, hstart _ fun c hc => hv c (List.mem_reverse.mp hc), List.reverse_reverse]

/-- Paths that are written in front of a bar. -/
def IsPath (path : Text) : Prop :=
  path ≠ [] ∧ ∀ c ∈ path, c ≠ unit '|' ∧ c ≠ unit ']'

/-- `(\|([^\]]+))?`. -/
theorem matches_group {t : Text} :
    (Pattern.optional (.seq (lit "|") (.plus fun c => decide (c ≠ unit ']')))).Matches t ↔
      t = [] ∨ ∃ u, u ≠ [] ∧ (∀ c ∈ u, c ≠ unit ']') ∧ t = unit '|' :: u := by
  rw [Pattern.matches_optional, Pattern.matches_seq, or_comm]
  refine or_congr_right ⟨?_, ?_⟩
  · rintro ⟨v, u, rfl, hv, hu⟩
    obtain rfl := Pattern.matches_literal.mp hv
    obtain ⟨hall, -, hlength⟩ := Pattern.matches_run.mp hu
    exact ⟨u, List.length_pos_iff.mp hlength, fun c hc => of_decide_eq_true (hall c hc), rfl⟩
  · rintro ⟨u, hne, hu, rfl⟩
    refine ⟨[unit '|'], u, rfl, Pattern.matches_literal.mpr rfl,
      Pattern.matches_run.mpr ⟨?_, ?_, ?_⟩⟩
    · exact fun c hc => decide_eq_true (hu c hc)
    · simp
    · exact List.length_pos_iff.mpr hne

theorem parts_close (h : c ≠ unit ']') (t : Text) : Pattern.parts [lit "]]"] (c :: t) = none := by
  have hlit : lit "]]" = Pattern.literal [unit ']', unit ']'] := rfl
  rw [hlit, Pattern.parts_of_nil (ends_literal_neg h _ t)]

theorem parts_embed {path size : Text} (hpath : IsPath path) (hsize : size ≠ [])
    (hmem : ∀ c ∈ size, c ≠ unit ']') :
    Pattern.parts embedParts (units "![[" ++ path ++ units "|" ++ size ++ units "]]") =
      some [units "![[", path, unit '|' :: size, units "]]"] := by
  have hopen : ∀ c t, decide (c ≠ unit '|' ∧ c ≠ unit ']') = true → Pattern.parts
      [.optional (.seq (lit "|") (.plus fun c => decide (c ≠ unit ']'))), lit "]]"]
      (c :: t) = none := by
    intro c t hc
    obtain ⟨hbar, hclose⟩ := of_decide_eq_true hc
    have hends : (Pattern.optional (.seq (lit "|") (.plus fun c => decide (c ≠ unit ']')))).ends
        (c :: t) = [0] := by
      have hlit : lit "|" = Pattern.literal [unit '|'] := rfl
      rw [Pattern.optional, Pattern.ends_alt, hlit,
        Pattern.ends_seq_eq_nil (ends_literal_neg hbar [] t), Pattern.ends_nothing, List.nil_append]
    rw [Pattern.parts_of_ends hends, List.drop_zero, parts_close hclose]
    rfl
  have hbar := Pattern.parts_literal (units "![[") (embedParts.drop 1)
    (path ++ ((unit '|' :: size) ++ units "]]"))
  have hrun : Pattern.parts (embedParts.drop 1) (path ++ ((unit '|' :: size) ++ units "]]")) =
      (Pattern.parts (embedParts.drop 2) ((unit '|' :: size) ++ units "]]")).map (path :: ·) :=
    Pattern.parts_run hopen (fun c hc => decide_eq_true (hpath.2 c hc))
    (by simp) (List.length_pos_iff.mpr hpath.1) (by simp)
  have hgroup : Pattern.parts (embedParts.drop 2) ((unit '|' :: size) ++ units "]]") =
      (Pattern.parts [lit "]]"] (units "]]")).map ((unit '|' :: size) :: ·) := by
    refine Pattern.parts_whole (p := fun c => decide (c ≠ unit ']')) (fun t ht c hc => ?_)
      (fun c t hc => parts_close (of_decide_eq_true hc) t)
      (matches_group.mpr (.inr ⟨size, hsize, hmem, rfl⟩)) (by simp [units, unit])
    rcases matches_group.mp ht with rfl | ⟨u, -, hu, rfl⟩
    · simp at hc
    · rcases List.mem_cons.mp hc with rfl | hc
      · decide
      · exact decide_eq_true (hu c hc)
  have hrest : Pattern.parts (embedParts.drop 1) (path ++ ((unit '|' :: size) ++ units "]]")) =
      some [path, unit '|' :: size, units "]]"] := by
    rw [hrun, hgroup]
    rfl
  have htext : units "![[" ++ path ++ units "|" ++ size ++ units "]]" =
      units "![[" ++ (path ++ ((unit '|' :: size) ++ units "]]")) := by simp [units, unit]
  rw [hrest] at hbar
  rw [htext]
  exact hbar

theorem parseEmbedMarker_size (toLowerCase : Text → Text) {path : Text} (hpath : IsPath path)
    (s : Size) :
    parseEmbedMarker toLowerCase (units "![[" ++ path ++ units "|" ++ s.text ++ units "]]") =
      some ⟨trim path, parseEmbedSize s.text, detectEmbedType toLowerCase (trim path)⟩ := by
  have htrim : trim s.text = s.text := trim_eq_self fun c hc => (plain_of_mem s hc).1
  rw [parseEmbedMarker,
    parts_embed hpath (text_ne_nil s) fun c hc => (plain_of_mem s hc).2]
  simp only [List.drop_one, List.tail_cons, htrim, text_ne_nil, if_false]

/-- Files that are shown at a size. -/
def IsShown (type : EmbedType) : Prop := type ∉ [.note, .unknown]

theorem rehypeEmbed_width (node : EmbedNode) (hpath : node.dataEmbedPath ≠ [])
    (hshown : IsShown node.dataEmbedType) (hv : v ≠ []) (hwidth : node.dataEmbedWidth = some v) :
    ∃ style, rehypeEmbed node = some style ∧ units "width: " ++ v ∈ style := by
  have htruthy : truthy node.dataEmbedWidth = some v := by simp [hwidth, truthy, hv]
  have hdeclared : units "width: " ++ v ∈ declared "width: " node.dataEmbedWidth := by
    simp [declared, htruthy]
  have hdeclaredOr : ∀ otherwise,
      units "width: " ++ v ∈ declaredOr "width: " node.dataEmbedWidth otherwise := by
    simp [declaredOr, htruthy]
  rw [rehypeEmbed, if_neg hpath]
  cases htype : node.dataEmbedType with
  | image =>
    exact ⟨_, rfl, List.mem_append_left _ (List.mem_append_right _ hdeclared)⟩
  | pdf =>
    exact ⟨_, rfl, List.mem_append_left _ (List.mem_append_right _ (hdeclaredOr _))⟩
  | audio => exact ⟨_, rfl, List.mem_append_right _ (hdeclaredOr _)⟩
  | video => exact ⟨_, rfl, List.mem_append_left _ (List.mem_append_right _ hdeclared)⟩
  | note | unknown => simp [IsShown, htype] at hshown

/-- The sizes that keep their number and unit are the numbers without a fraction, alone or in
pixels. -/
theorem keepsSize_iff (toLowerCase : Text → Text) {path : Text} (hpath : IsPath path)
    (hne : trim path ≠ []) (hshown : IsShown (detectEmbedType toLowerCase (trim path))) (s : Size) :
    KeepsSize toLowerCase path s ↔ s.IsRead := by
  constructor
  · rintro ⟨size, _, _, hsize, hwidth, hheight, -⟩
    exact (parseEmbedSize_iff s).mp ⟨size, hsize, hwidth, hheight⟩
  · intro hread
    obtain ⟨size, hsize, hwidth, hheight⟩ := (parseEmbedSize_iff s).mpr hread
    have hnone : s.cssHeight = none := by
      obtain ⟨n, -, rfl | rfl⟩ := hread <;> rfl
    have hv : s.cssWidth ≠ [] := fun h =>
      s.number.ne (List.append_eq_nil_iff.mp (List.append_eq_nil_iff.mp h).1).1
    have htruthy : truthy size.width = some s.cssWidth := by simp [hwidth, truthy, hv]
    have hnode := congrArg (Option.map embedNode) (parseEmbedMarker_size toLowerCase hpath s)
    rw [hsize, Option.map_some] at hnode
    obtain ⟨style, hstyle, hmem⟩ := rehypeEmbed_width
      (embedNode ⟨trim path, some size, detectEmbedType toLowerCase (trim path)⟩)
      hne hshown hv htruthy
    refine ⟨size, _, style, hsize, hwidth, hheight, hnode, htruthy, ?_, hstyle, hmem, ?_⟩
    · rw [hnone]
      exact congrArg truthy (hheight.trans hnone)
    · simp [hnone]

theorem keepsSize_pixels : IsPath (units "a.png") ∧ trim (units "a.png") ≠ [] ∧
    IsShown (detectEmbedType id (trim (units "a.png"))) ∧
    (KeepsSize id (units "a.png") (.px (.ofNat 10)) ↔ (Size.px (.ofNat 10)).IsRead) :=
  have hpath : IsPath (units "a.png") := by
    have hall : (units "a.png").all fun c => c != unit '|' && c != unit ']' := by decide
    exact ⟨by decide, by simpa using List.all_eq_true.mp hall⟩
  have hne : trim (units "a.png") ≠ [] := by decide
  have hshown : IsShown (detectEmbedType id (trim (units "a.png"))) := by
    unfold IsShown
    decide
  ⟨hpath, hne, hshown, keepsSize_iff id hpath hne hshown _⟩

/-- Half of the width becomes fifty pixels. -/
theorem percent_is_pixels :
    (remarkEmbed id [.text (units "![[a.png|50%]]")]).map EmbedNode.dataEmbedWidth =
      some (some (units "50px")) ∧
    ¬ KeepsSize id (units "a.png") (.percent (.ofNat 50)) := by
  have hsize : parseEmbedSize (Size.percent (.ofNat 50)).text =
    some ⟨some (units "50px"), none, units "50%"⟩ := by decide
  refine ⟨by decide, ?_⟩
  rintro ⟨size, _, _, hread, hwidth, -⟩
  obtain rfl := Option.some.inj (hsize.symm.trans hread)
  exact absurd (Option.some.inj hwidth) (by decide)

end Mdock.Editor.Embeds
