import Mathlib.Data.List.DropRight
import Mdock.Editor.Blocks

/-! Callouts: block quotes that begin with a marker. -/
namespace Mdock.Editor.Callouts
open Mdock.Js Mdock.Lib Mdock.Editor.Commands Mdock.Editor.Blocks

/-! ### The marker -/

inductive Fold
  | none | collapsed | expanded
  deriving DecidableEq

structure Marker where
  type : Text
  fold : Fold
  title : Option Text
  deriving DecidableEq

def calloutTypes : List Text :=
  [units "note", units "info", units "tip", units "warning", units "danger", units "success",
    units "question"]

/-- `\w`. -/
def isWord (c : UInt16) : Bool :=
  isDigit c || (unit 'a' ≤ c && c ≤ unit 'z') || (unit 'A' ≤ c && c ≤ unit 'Z') || c = unit '_'

/-- `toLowerCase` of an ASCII text. -/
def toLowerCase (s : Text) : Text :=
  s.map fun c => if unit 'A' ≤ c && c ≤ unit 'Z' then c + 32 else c

def isCalloutType (str : Text) : Bool := toLowerCase str ∈ calloutTypes

/-- `\[\s*!(\w+)([+-]?)\s*\]\s*(.*)`. -/
def markerParts : List (Pattern UInt16) :=
  [lit "[", .star isSpace, lit "!", .plus isWord, .opt (· ∈ units "+-"), .star isSpace, lit "]",
    .star isSpace, .star dot]

def parseCalloutMarker (text : Text) : Option Marker :=
  match Pattern.parts markerParts text with
  | some [_, _, _, type, fold, _, _, _, title] =>
    if isCalloutType (toLowerCase type) then
      some {
        type := toLowerCase type
        fold := if fold = units "-" then .collapsed
          else if fold = units "+" then .expanded else .none
        title := if trim title = [] then none else some (trim title) }
    else none
  | _ => none

/-! ### The tree -/

structure CalloutData where
  calloutType : Text
  calloutFold : Fold
  calloutTitle : Option Text
  hName : Text
  className : List Text
  dataCalloutType : Text
  role : Text
  deriving DecidableEq

/-- A node of the syntax tree; `other` is any node the plugin knows nothing of. -/
inductive Node
  | text (value : Text)
  | lineBreak
  | paragraph (children : List Node)
  | blockquote (children : List Node)
  | callout (data : CalloutData) (children : List Node)
  | other (type value : Text) (children : List Node)

/-- The marker a block quote with these children begins with. -/
def markerOf : List Node → Option Marker
  | .paragraph (.text value :: _) :: _ => parseCalloutMarker value
  | _ => none

def calloutData (marker : Marker) : CalloutData where
  calloutType := marker.type
  calloutFold := marker.fold
  calloutTitle := marker.title
  hName := units "div"
  className := [units "callout", units "callout-" ++ marker.type] ++
    if marker.fold = .collapsed then [units "callout-folded"] else []
  dataCalloutType := marker.type
  role := units "region"

/-- What becomes of a node: what stands in its place afterwards, and the node itself, which is
changed on the way. A paragraph that has become empty is cut off the block quote only, and what
its children are turned into goes there. -/
def turn (marker : Marker) : List (Node × Node) → Node × Node
  | (.paragraph nodes, _) :: rest =>
    match marker.title, nodes.tail with
    | some title, _ =>
      let children := .paragraph [.text title] :: rest.map Prod.fst
      (.callout (calloutData marker) children, .blockquote children)
    | none, [] =>
      (.callout (calloutData marker) (.paragraph [] :: rest.map Prod.snd),
        .blockquote (rest.map Prod.fst))
    | none, kept =>
      let children := .paragraph kept :: rest.map Prod.fst
      (.callout (calloutData marker) children, .blockquote children)
  | visited => (.blockquote (visited.map Prod.fst), .blockquote (visited.map Prod.fst))

mutual

/-- The walk over the tree: a node, then its children. -/
def visit : Node → Node × Node
  | .text value => (.text value, .text value)
  | .lineBreak => (.lineBreak, .lineBreak)
  | .paragraph children =>
    (.paragraph ((visitAll children).map Prod.fst), .paragraph ((visitAll children).map Prod.fst))
  | .blockquote children =>
    match markerOf children with
    | some marker => turn marker (visitAll children)
    | none =>
      (.blockquote ((visitAll children).map Prod.fst),
        .blockquote ((visitAll children).map Prod.fst))
  | .callout data children =>
    (.callout data ((visitAll children).map Prod.fst),
      .callout data ((visitAll children).map Prod.fst))
  | .other type value children =>
    (.other type value ((visitAll children).map Prod.fst),
      .other type value ((visitAll children).map Prod.fst))

def visitAll : List Node → List (Node × Node)
  | [] => []
  | node :: nodes => visit node :: visitAll nodes

end

/-- On the children of the root. -/
def remarkCallout (children : List Node) : List Node := (visitAll children).map Prod.fst

/-! ### What is written -/

/-- Adjacent texts are one node. -/
def joinText : List Node → List Node
  | [] => []
  | .text v :: nodes =>
    match joinText nodes with
    | .text w :: rest => .text (v ++ w) :: rest
    | rest => .text v :: rest
  | node :: nodes => node :: joinText nodes

/-- A text without newlines or inline markup. -/
def Node.isInline : Node → Bool
  | .text v => !v.isEmpty && !v.contains newline
  | .other _ _ _ => true
  | _ => false

/-- A line of the first paragraph behind the one with the marker, set off by a newline or by a
break. -/
structure Line where
  hard : Bool
  nodes : List Node
  ne : nodes ≠ []
  inline : ∀ n ∈ nodes, n.isInline = true

def Line.children (l : Line) : List Node :=
  (if l.hard then .lineBreak else .text [newline]) :: l.nodes

/-- The forms of a callout: its title is empty where it has none, `rest` is what is behind the
first paragraph. -/
structure Source where
  type : Text
  fold : Fold
  title : Text
  lines : List Line
  rest : List Node
  known : type ∈ calloutTypes

def Fold.sign : Fold → Text
  | .none => []
  | .collapsed => units "-"
  | .expanded => units "+"

/-- `[!type]- title`. -/
def markerText (type : Text) (fold : Fold) (title : Text) : Text :=
  units "[!" ++ type ++ units "]" ++ (fold.sign ++ if title = [] then [] else units " " ++ title)

/-- The tree of a callout as it is parsed. -/
def Source.tree (c : Source) : Node :=
  .blockquote (.paragraph (joinText
    (.text (markerText c.type c.fold c.title) :: c.lines.flatMap Line.children)) :: c.rest)

/-! ### What is kept -/

inductive Piece
  | char (c : UInt16)
  | node (n : Node)

def chars (v : Text) : List Piece := (v.filter (· ≠ newline)).map .char

/-- The characters of a text and the other inline nodes; what only sets lines off is none. -/
def inlinePieces : Node → List Piece
  | .text v => chars v
  | .lineBreak => []
  | n => [.node n]

def pieces : Node → List Piece
  | .paragraph nodes => nodes.flatMap inlinePieces
  | n => inlinePieces n

/-- The block quote becomes a callout with its type, its fold state and its title, and its children
are the title and the body, with everything in the body as it is turned on its own. -/
def KeepsCallout (c : Source) (before after : List Node) : Prop :=
  ∃ data children,
    (remarkCallout (before ++ c.tree :: after))[before.length]? = some (.callout data children) ∧
    data.calloutType = c.type ∧ data.calloutFold = c.fold ∧
    data.calloutTitle = (if c.title = [] then none else some c.title) ∧
    children.flatMap pieces = chars c.title ++
      (remarkCallout (c.lines.flatMap Line.nodes ++ c.rest)).flatMap pieces

/-- A block quote that the walk turns into a callout. -/
def Node.isMarked : Node → Bool
  | .blockquote children => (markerOf children).isSome
  | _ => false

/-- The text that nodes begin with. -/
def leadText : List Node → Text
  | .text v :: _ => v
  | _ => []

/-- The forms that are kept: without a title, the first line of the body is behind a break or begins
with no text, or no block behind the marker alone is a callout; with one, it is trimmed and on one
line, and no line of the body is in its paragraph. -/
def WrittenFor (c : Source) : Prop :=
  if c.title = [] then
    match c.lines with
    | [] => ∀ n ∈ c.rest, n.isMarked = false
    | l :: _ => l.hard = true ∨ leadText l.nodes = []
  else trim c.title = c.title ∧ c.title.all dot = true ∧ c.lines = []

variable {type r : Text}

/-! ### Reading the marker -/

theorem isWord_bounds {c : UInt16} (h : isWord c = true) : unit '0' ≤ c ∧ c ≤ unit 'z' := by
  simp only [isWord, isDigit, Bool.or_eq_true, Bool.and_eq_true, decide_eq_true_iff] at h
  rcases h with ((h | h) | h) | rfl
  · exact ⟨h.1, UInt16.le_trans h.2 (by decide)⟩
  · exact ⟨UInt16.le_trans (by decide) h.1, h.2⟩
  · exact ⟨UInt16.le_trans (by decide) h.1, UInt16.le_trans h.2 (by decide)⟩
  · decide

theorem isSpace_of_isWord {c : UInt16} (h : isWord c = true) : isSpace c = false := by
  obtain ⟨hlow, hhigh⟩ := isWord_bounds h
  by_contra hspace
  simp only [Bool.not_eq_false, isSpace, Bool.or_eq_true, decide_eq_true_iff, List.mem_cons,
    List.not_mem_nil, or_false, Bool.and_eq_true] at hspace
  rcases hspace with
    (rfl | rfl | rfl | rfl | rfl | rfl | rfl | rfl | rfl | rfl | rfl | rfl | rfl | rfl) | ⟨hsep, -⟩
  all_goals first
    | exact absurd h (by decide)
    | exact absurd (UInt16.le_trans hsep hhigh) (by decide)

theorem parts_literal_ne {c d : UInt16} (h : c ≠ d) (as : List (Pattern UInt16)) (t : Text) :
    Pattern.parts (.literal [d] :: as) (c :: t) = none :=
  Pattern.parts_of_nil (Pattern.ends_seq_eq_nil (Pattern.ends_run_cons_neg (decide_eq_false h)))

/-- Behind a part of the type stands no closing bracket. -/
theorem parts_inside {c : UInt16} (h : isWord c = true) (t : Text) :
    Pattern.parts [.opt (· ∈ units "+-"), .star isSpace, lit "]", .star isSpace, .star dot]
      (c :: t) = none := by
  have hsign : decide (c ∈ units "+-") = false := decide_eq_false fun hmem => by
    have hcases : c = unit '+' ∨ c = unit '-' := by simpa [units, unit] using hmem
    rcases hcases with rfl | rfl <;> exact absurd h (by decide)
  have hbracket : c ≠ unit ']' := by
    rintro rfl
    exact absurd h (by decide)
  have hskip : ∀ as, Pattern.parts (.opt (· ∈ units "+-") :: as) (c :: t) =
      (Pattern.parts as (c :: t)).map ([] :: ·) :=
    fun as => Pattern.parts_skip (p := fun c => decide (c ∈ units "+-")) hsign as t
  have hspace : ∀ as, Pattern.parts (.star isSpace :: as) (c :: t) =
      (Pattern.parts as (c :: t)).map ([] :: ·) :=
    fun as => Pattern.parts_skip (isSpace_of_isWord h) as t
  have hclose : Pattern.parts [lit "]", .star isSpace, .star dot] (c :: t) = none :=
    parts_literal_ne hbracket _ t
  rw [hskip, hspace, hclose]
  rfl

theorem parts_marker (hne : type ≠ []) (hword : ∀ c ∈ type, isWord c = true) (r : Text) :
    Pattern.parts markerParts (units "[!" ++ type ++ units "]" ++ r) =
      if (r.dropWhile isSpace).all dot then
        some [units "[", [], units "!", type, [], [], units "]", r.takeWhile isSpace,
          r.dropWhile isSpace]
      else none := by
  have hunits : units "[!" ++ type ++ units "]" ++ r =
      units "[" ++ (units "!" ++ (type ++ (units "]" ++ r))) := by
    rw [List.append_assoc, List.append_assoc]
    rfl
  have hspace : ∀ as t, Pattern.parts (.star isSpace :: as) (units "!" ++ t) =
      (Pattern.parts as (units "!" ++ t)).map ([] :: ·) :=
    fun as t => Pattern.parts_skip (by decide) as t
  have hend : ∀ c ∈ (units "]" ++ r).head?, isWord c = false := fun c hc => by
    obtain rfl := Option.some.inj hc
    decide
  have hword' : ∀ as, (∀ c t, isWord c = true → Pattern.parts as (c :: t) = none) →
      Pattern.parts (.plus isWord :: as) (type ++ (units "]" ++ r)) =
        (Pattern.parts as (units "]" ++ r)).map (type :: ·) := fun as has =>
    Pattern.parts_run has hword hend (List.length_pos_iff.mpr hne) (by simp)
  have hsign : ∀ as, Pattern.parts (.opt (· ∈ units "+-") :: as) (units "]" ++ r) =
      (Pattern.parts as (units "]" ++ r)).map ([] :: ·) :=
    fun as => Pattern.parts_skip (by decide) as r
  have hspace' : ∀ as, Pattern.parts (.star isSpace :: as) (units "]" ++ r) =
      (Pattern.parts as (units "]" ++ r)).map ([] :: ·) :=
    fun as => Pattern.parts_skip (by decide) as r
  have hlit : ∀ s as t, Pattern.parts (lit s :: as) (units s ++ t) =
      (Pattern.parts as t).map (units s :: ·) := fun s => Pattern.parts_literal (units s)
  rw [hunits, markerParts, hlit, hspace, hlit, hword' _ fun c t h => parts_inside h t, hsign,
    hspace', hlit, Pattern.parts_star_star]
  split_ifs <;> rfl

theorem trim_dropWhile (r : Text) : trim (r.dropWhile isSpace) = trim r := by
  simp only [trim, trimStart, List.dropWhile_idempotent isSpace]

/-- Types that are known are written in small letters. -/
theorem known_type (h : type ∈ calloutTypes) : type ≠ [] ∧ (∀ c ∈ type, isWord c = true) ∧
    toLowerCase type = type ∧ isCalloutType type = true := by
  have hall : calloutTypes.all (fun t => !t.isEmpty && t.all isWord && decide (toLowerCase t = t) &&
      isCalloutType t) = true := by decide
  simpa [and_assoc] using List.all_eq_true.mp hall type h

def titleOf (r : Text) : Option Text := if trim r = [] then none else some (trim r)

/-- What stands behind the bracket is the title, if it is all on one line. -/
theorem parse_marker (h : type ∈ calloutTypes) (r : Text) :
    parseCalloutMarker (units "[!" ++ type ++ units "]" ++ r) =
      if (r.dropWhile isSpace).all dot then some ⟨type, .none, titleOf r⟩ else none := by
  obtain ⟨hne, hword, hlower, hknown⟩ := known_type h
  rw [parseCalloutMarker, parts_marker hne hword]
  by_cases hall : (r.dropWhile isSpace).all dot = true
  · simp only [if_pos hall, hlower, hknown, if_true, trim_dropWhile, titleOf]
    rfl
  · simp only [if_neg hall]

/-! ### The walk -/

variable {ns ms : List Node} {n : Node}

theorem visitAll_eq (ns : List Node) : visitAll ns = ns.map visit := by
  induction ns with
  | nil => rfl
  | cons n ns ih => rw [visitAll, ih, List.map_cons]

theorem remarkCallout_eq (ns : List Node) : remarkCallout ns = ns.map fun n => (visit n).1 := by
  rw [remarkCallout, visitAll_eq, List.map_map]
  rfl

theorem visit_of_not_marked (h : n.isMarked = false) : (visit n).1 = (visit n).2 := by
  cases n with
  | blockquote children =>
    have hnone : markerOf children = none := by simpa [Node.isMarked] using h
    rw [visit, hnone]
  | text v => rw [visit]
  | lineBreak => rw [visit]
  | paragraph ns => rw [visit]
  | callout data ns => rw [visit]
  | other type value ns => rw [visit]

theorem markerOf_eq_some {marker : Marker} (h : markerOf ns = some marker) :
    ∃ v nodes rest, ns = .paragraph (.text v :: nodes) :: rest := by
  unfold markerOf at h
  split at h
  · exact ⟨_, _, _, rfl⟩
  · simp at h

theorem visit_of_marked (h : n.isMarked = true) : ∃ data ns ms,
    visit n = (.callout data ns, .blockquote ms) := by
  cases n with
  | blockquote children =>
    obtain ⟨marker, hmarker⟩ := Option.isSome_iff_exists.mp h
    obtain ⟨v, nodes, rest, rfl⟩ := markerOf_eq_some hmarker
    rw [visit, hmarker]
    simp only [visitAll, visit, List.map_cons, turn]
    split <;> exact ⟨_, _, _, rfl⟩
  | text v => simp [Node.isMarked] at h
  | lineBreak => simp [Node.isMarked] at h
  | paragraph ns => simp [Node.isMarked] at h
  | callout data ns => simp [Node.isMarked] at h
  | other type value ns => simp [Node.isMarked] at h

theorem visit_blockquote (ns : List Node) : ∃ ms, (visit (.blockquote ns)).2 = .blockquote ms := by
  cases h : (Node.blockquote ns).isMarked with
  | true =>
    obtain ⟨data, children, ms, heq⟩ := visit_of_marked h
    exact ⟨ms, by rw [heq]⟩
  | false =>
    have hnone : markerOf ns = none := by simpa [Node.isMarked] using h
    exact ⟨_, by rw [visit, hnone]⟩

/-- What becomes of a node has as many pieces in either place. -/
theorem length_pieces_visit (n : Node) :
    (pieces (visit n).1).length = (pieces (visit n).2).length := by
  cases h : n.isMarked with
  | false => rw [visit_of_not_marked h]
  | true =>
    obtain ⟨data, ns, ms, heq⟩ := visit_of_marked h
    rw [heq]
    rfl

/-- The pieces are the same in both places where no node is turned. -/
theorem pieces_visit_iff (ns : List Node) :
    ns.flatMap (fun n => pieces (visit n).2) = ns.flatMap (fun n => pieces (visit n).1) ↔
      ∀ n ∈ ns, n.isMarked = false := by
  induction ns with
  | nil => simp
  | cons n ns ih =>
    rw [List.flatMap_cons, List.flatMap_cons, List.forall_mem_cons, ← ih]
    constructor
    · intro h
      obtain ⟨hhead, htail⟩ := List.append_inj h (length_pieces_visit n).symm
      refine ⟨Bool.eq_false_of_not_eq_true fun hmarked => ?_, htail⟩
      obtain ⟨data, ns, ms, heq⟩ := visit_of_marked hmarked
      simp [heq, pieces, inlinePieces] at hhead
    · rintro ⟨hhead, htail⟩
      rw [visit_of_not_marked hhead, htail]

/-! ### Joined texts -/

def behindText : List Node → List Node
  | .text _ :: ns => ns
  | ns => ns

theorem joinText_text (v : Text) (ns : List Node) : joinText (.text v :: ns) =
    .text (v ++ leadText (joinText ns)) :: behindText (joinText ns) := by
  rw [joinText]
  split
  next w rest heq => rw [heq]; rfl
  next rest hne =>
    cases hj : joinText ns with
    | nil => simp [leadText, behindText]
    | cons n ms =>
      cases n with
      | text w => exact absurd hj (hne w ms)
      | lineBreak => simp [leadText, behindText]
      | paragraph ns => simp [leadText, behindText]
      | blockquote ns => simp [leadText, behindText]
      | callout data ns => simp [leadText, behindText]
      | other type value ns => simp [leadText, behindText]

theorem chars_append (v w : Text) : chars (v ++ w) = chars v ++ chars w := by
  simp [chars]

/-- The pieces of inline nodes as they are turned. -/
def turnedPieces (ns : List Node) : List Piece := ns.flatMap fun n => inlinePieces (visit n).1

theorem turnedPieces_cons (n : Node) (ns : List Node) :
    turnedPieces (n :: ns) = inlinePieces (visit n).1 ++ turnedPieces ns := List.flatMap_cons

theorem turnedPieces_append (ns ms : List Node) :
    turnedPieces (ns ++ ms) = turnedPieces ns ++ turnedPieces ms := List.flatMap_append

theorem turnedPieces_text (v : Text) (ns : List Node) :
    turnedPieces (.text v :: ns) = chars v ++ turnedPieces ns := by
  rw [turnedPieces_cons, visit]
  rfl

theorem turnedPieces_lead (ns : List Node) :
    turnedPieces ns = chars (leadText ns) ++ turnedPieces (behindText ns) := by
  cases ns with
  | nil => rfl
  | cons n ns =>
    cases n with
    | text v => exact turnedPieces_text v ns
    | lineBreak => rfl
    | paragraph ns => rfl
    | blockquote ns => rfl
    | callout data ns => rfl
    | other type value ns => rfl

theorem turnedPieces_joinText (ns : List Node) : turnedPieces (joinText ns) = turnedPieces ns := by
  induction ns with
  | nil => rfl
  | cons n ns ih =>
    have hcons : ∀ {n}, joinText (n :: ns) = n :: joinText ns →
        turnedPieces (joinText (n :: ns)) = turnedPieces (n :: ns) := fun h => by
      rw [h, turnedPieces_cons, ih, turnedPieces_cons]
    cases n with
    | text v =>
      rw [joinText_text, turnedPieces_text, turnedPieces_text, chars_append, List.append_assoc,
        ← turnedPieces_lead, ih]
    | lineBreak => exact hcons rfl
    | paragraph ns => exact hcons rfl
    | blockquote ns => exact hcons rfl
    | callout data ns => exact hcons rfl
    | other type value ns => exact hcons rfl

theorem turnedPieces_children (ls : List Line) :
    turnedPieces (ls.flatMap Line.children) = turnedPieces (ls.flatMap Line.nodes) := by
  induction ls with
  | nil => rfl
  | cons l ls ih =>
    have hbefore : turnedPieces l.children = turnedPieces l.nodes := by
      rw [Line.children, turnedPieces_cons]
      split <;> rw [visit] <;> rfl
    rw [List.flatMap_cons, List.flatMap_cons, turnedPieces_append, turnedPieces_append, hbefore, ih]

/-- Inline nodes are no paragraphs. -/
theorem pieces_inline (h : ∀ n ∈ ns, n.isInline = true) :
    ns.flatMap (fun n => pieces (visit n).1) = turnedPieces ns := by
  induction ns with
  | nil => rfl
  | cons n ns ih =>
    obtain ⟨hn, hns⟩ := List.forall_mem_cons.mp h
    rw [List.flatMap_cons, turnedPieces_cons, ih hns]
    congr 1
    cases n with
    | text v => rw [visit]; rfl
    | other type value ns => rw [visit]; rfl
    | lineBreak => simp [Node.isInline] at hn
    | paragraph ns => simp [Node.isInline] at hn
    | blockquote ns => simp [Node.isInline] at hn
    | callout data ns => simp [Node.isInline] at hn

/-! ### What becomes of a callout -/

variable {c : Source} {d : UInt16} {before after : List Node}

/-- The first paragraph behind its leading text. -/
def Source.joined (c : Source) : List Node := joinText (c.lines.flatMap Line.children)

/-- What stands behind the bracket in the first text of the paragraph. -/
def Source.tail (c : Source) : Text :=
  c.fold.sign ++ (if c.title = [] then [] else units " " ++ c.title) ++ leadText c.joined

/-- The pieces of the rest as it is turned on its own. -/
def Source.restPieces (c : Source) : List Piece := c.rest.flatMap fun n => pieces (visit n).1

theorem body_pieces (c : Source) :
    (remarkCallout (c.lines.flatMap Line.nodes ++ c.rest)).flatMap pieces =
      chars (leadText c.joined) ++ (turnedPieces (behindText c.joined) ++ c.restPieces) := by
  have hinline : ∀ n ∈ c.lines.flatMap Line.nodes, n.isInline = true := fun n hn => by
    obtain ⟨l, -, hl⟩ := List.mem_flatMap.mp hn
    exact l.inline n hl
  rw [remarkCallout_eq, List.flatMap_map, List.flatMap_append, pieces_inline hinline,
    ← turnedPieces_children, ← turnedPieces_joinText, turnedPieces_lead, List.append_assoc]
  rfl

/-- The children of the callout. -/
def Source.children (c : Source) : List Node :=
  match titleOf c.tail with
  | some title => .paragraph [.text title] :: c.rest.map fun n => (visit n).1
  | none => .paragraph ((behindText c.joined).map fun n => (visit n).1) ::
      c.rest.map fun n => if behindText c.joined = [] then (visit n).2 else (visit n).1

theorem visit_tree (c : Source) : (visit c.tree).1 =
    if (c.tail.dropWhile isSpace).all dot then
      .callout (calloutData ⟨c.type, .none, titleOf c.tail⟩) c.children
    else (visit c.tree).2 := by
  have hvalue : markerText c.type c.fold c.title ++ leadText c.joined =
      units "[!" ++ c.type ++ units "]" ++ c.tail := by
    simp only [markerText, Source.tail, List.append_assoc]
  have htree : c.tree = .blockquote (.paragraph
      (.text (units "[!" ++ c.type ++ units "]" ++ c.tail) :: behindText c.joined) :: c.rest) := by
    rw [← hvalue, Source.tree, joinText_text]
    rfl
  have hmarker : markerOf (.paragraph (.text (units "[!" ++ c.type ++ units "]" ++ c.tail) ::
      behindText c.joined) :: c.rest) = _ := parse_marker c.known c.tail
  rw [htree, visit, hmarker]
  by_cases hall : (c.tail.dropWhile isSpace).all dot = true
  · rw [if_pos hall, if_pos hall, Source.children]
    simp only [visitAll_eq, List.map_cons, visit, List.map_map, turn, List.tail_cons]
    cases titleOf c.tail with
    | some title => rfl
    | none =>
      cases behindText c.joined with
      | nil => rfl
      | cons n ns => rfl
  · rw [if_neg hall, if_neg hall]

theorem children_pieces (c : Source) : c.children.flatMap pieces =
    match titleOf c.tail with
    | some title => chars title ++ c.restPieces
    | none => turnedPieces (behindText c.joined) ++
        if behindText c.joined = [] then c.rest.flatMap fun n => pieces (visit n).2
        else c.restPieces := by
  rw [Source.children]
  cases titleOf c.tail with
  | some title => simp [pieces, inlinePieces, Source.restPieces, List.flatMap_map]
  | none =>
    simp only [List.flatMap_cons, pieces, List.flatMap_map]
    split_ifs <;> rfl

/-- A callout keeps what it should, in terms of what is behind the bracket. -/
theorem keepsCallout_eq (c : Source) (before after : List Node) : KeepsCallout c before after ↔
    (c.tail.dropWhile isSpace).all dot = true ∧ c.fold = .none ∧
      titleOf c.tail = (if c.title = [] then none else some c.title) ∧
      c.children.flatMap pieces = chars c.title ++ (chars (leadText c.joined) ++
        (turnedPieces (behindText c.joined) ++ c.restPieces)) := by
  have hslot : (remarkCallout (before ++ c.tree :: after))[before.length]? =
      some (visit c.tree).1 := by
    simp [remarkCallout_eq]
  rw [KeepsCallout, hslot, visit_tree, body_pieces]
  by_cases hall : (c.tail.dropWhile isSpace).all dot = true
  · rw [if_pos hall, and_iff_right hall]
    constructor
    · rintro ⟨data, children, heq, -, hfold, htitle, hpieces⟩
      obtain ⟨rfl, rfl⟩ := Node.callout.inj (Option.some.inj heq)
      exact ⟨hfold.symm, htitle, hpieces⟩
    · rintro ⟨hfold, htitle, hpieces⟩
      exact ⟨_, _, rfl, rfl, hfold.symm, htitle, hpieces⟩
  · obtain ⟨ms, hms⟩ := visit_blockquote (.paragraph (joinText (.text (markerText c.type c.fold
      c.title) :: c.lines.flatMap Line.children)) :: c.rest)
    rw [if_neg hall, show (visit c.tree).2 = .blockquote ms from hms]
    simp [hall]

/-- What is trimmed begins with no space. -/
theorem dropWhile_trim (s : Text) : (trim s).dropWhile isSpace = trim s := by
  have hpre : trim s <+: s.dropWhile isSpace := List.rdropWhile_prefix isSpace _
  cases h : trim s with
  | nil => rfl
  | cons c t =>
    obtain ⟨u, hu⟩ := hpre
    rw [h, List.cons_append] at hu
    have hc := Pattern.head_dropWhile (p := isSpace) (s := s) (c := c) (by rw [← hu]; rfl)
    rw [List.dropWhile_cons_of_neg (by simp [hc])]

theorem trim_cons (h : isSpace d = true) (s : Text) : trim (d :: s) = trim s := by
  rw [← trim_dropWhile (d :: s), List.dropWhile_cons_of_pos h, trim_dropWhile]

theorem joined_nil (h : c.lines = []) : c.joined = [] := by
  rw [Source.joined, h]
  rfl

theorem chars_ne_nil {v : Text} (h : (Node.text v).isInline = true) : chars v ≠ [] := by
  simp only [Node.isInline, Bool.and_eq_true, Bool.not_eq_true', List.isEmpty_eq_false_iff,
    List.contains_eq_mem, decide_eq_false_iff_not] at h
  have hfilter : v.filter (· ≠ newline) = v := List.filter_eq_self.mpr fun c hc => by
    have hne : c ≠ newline := fun heq => h.2 (heq ▸ hc)
    simpa using hne
  rw [chars, hfilter]
  simpa using h.1

/-- A line of the body has something in it. -/
theorem turnedPieces_line (l : Line) : turnedPieces l.nodes ≠ [] := by
  obtain ⟨n, ns, hnodes⟩ := List.exists_cons_of_ne_nil l.ne
  have hinline := l.inline n (by simp [hnodes])
  rw [hnodes, turnedPieces_cons]
  refine fun hnil => absurd (List.append_eq_nil_iff.mp hnil).1 ?_
  cases n with
  | text v =>
    rw [visit]
    exact chars_ne_nil hinline
  | other type value ns => simp [visit, inlinePieces]
  | lineBreak => simp [Node.isInline] at hinline
  | paragraph ns => simp [Node.isInline] at hinline
  | blockquote ns => simp [Node.isInline] at hinline
  | callout data ns => simp [Node.isInline] at hinline

theorem chars_lead_ne_nil {l : Line} (h : leadText l.nodes ≠ []) :
    chars (leadText l.nodes) ≠ [] := by
  cases hnodes : l.nodes with
  | nil => exact absurd hnodes l.ne
  | cons n ns =>
    rw [hnodes] at h
    cases n with
    | text v => exact chars_ne_nil (l.inline (.text v) (by simp [hnodes]))
    | lineBreak => exact absurd rfl h
    | paragraph ns => exact absurd rfl h
    | blockquote ns => exact absurd rfl h
    | callout data ns => exact absurd rfl h
    | other type value ns => exact absurd rfl h

/-- What the paragraph begins with behind the marker. -/
theorem joined_cons {l : Line} {ls : List Line} (h : c.lines = l :: ls) :
    (l.hard = true ∧ leadText c.joined = [] ∧ behindText c.joined ≠ []) ∨
    (l.hard = false ∧ leadText l.nodes = [] ∧ leadText c.joined = [newline] ∧
      behindText c.joined ≠ []) ∨
    (l.hard = false ∧ leadText l.nodes ≠ [] ∧
      ∃ w, leadText c.joined = newline :: (leadText l.nodes ++ w)) := by
  obtain ⟨n, ns, hnodes⟩ := List.exists_cons_of_ne_nil l.ne
  have hinline := l.inline n (by simp [hnodes])
  rw [Source.joined, h, List.flatMap_cons, Line.children, hnodes, List.cons_append,
    List.cons_append]
  cases hhard : l.hard with
  | true => exact .inl ⟨rfl, rfl, by simp [joinText, behindText]⟩
  | false =>
    rw [if_neg Bool.false_ne_true, joinText_text]
    cases n with
    | text v =>
      rw [joinText_text]
      refine .inr (.inr ⟨rfl, ?_, _, rfl⟩)
      intro hv
      simp [Node.isInline, show v = [] from hv] at hinline
    | other type value ns => exact .inr (.inl ⟨rfl, rfl, rfl, by simp [joinText, behindText]⟩)
    | lineBreak => simp [Node.isInline] at hinline
    | paragraph ns => simp [Node.isInline] at hinline
    | blockquote ns => simp [Node.isInline] at hinline
    | callout data ns => simp [Node.isInline] at hinline

theorem titleOf_eq_some {title : Text} (h : titleOf r = some title) : trim r = title := by
  rw [titleOf] at h
  split_ifs at h
  exact Option.some.inj h

/-- What is kept where there is a title; a line of the body in the first paragraph is lost. -/
theorem kept_titled (ht : c.title ≠ []) (hfold : c.fold = .none) :
    ((c.tail.dropWhile isSpace).all dot = true ∧ titleOf c.tail = some c.title ∧
      c.children.flatMap pieces = chars c.title ++ (chars (leadText c.joined) ++
        (turnedPieces (behindText c.joined) ++ c.restPieces))) ↔
      trim c.title = c.title ∧ c.title.all dot = true ∧ c.lines = [] := by
  have hspace : isSpace (unit ' ') = true := by decide
  have htail : c.lines = [] → c.tail = unit ' ' :: c.title := fun hlines => by
    rw [Source.tail, hfold, if_neg ht, joined_nil hlines]
    exact List.append_nil _
  rw [children_pieces]
  constructor
  · rintro ⟨hall, htitle, hpieces⟩
    have hlines : c.lines = [] := by
      rw [htitle] at hpieces
      have hbody : turnedPieces c.joined = [] := by
        rw [turnedPieces_lead]
        have hlen := congrArg List.length hpieces
        simp only [List.length_append] at hlen
        exact List.eq_nil_of_length_eq_zero (by rw [List.length_append]; omega)
      rw [Source.joined, turnedPieces_joinText, turnedPieces_children] at hbody
      by_contra hne
      obtain ⟨l, ls, hcons⟩ := List.exists_cons_of_ne_nil hne
      rw [hcons, List.flatMap_cons, turnedPieces_append] at hbody
      exact turnedPieces_line l (List.append_eq_nil_iff.mp hbody).1
    have htrim := titleOf_eq_some htitle
    rw [htail hlines, trim_cons hspace] at htrim
    rw [htail hlines, List.dropWhile_cons_of_pos hspace, ← htrim, dropWhile_trim, htrim] at hall
    exact ⟨htrim, hall, hlines⟩
  · rintro ⟨htrim, hall, hlines⟩
    have htitle : titleOf c.tail = some c.title := by
      rw [htail hlines, titleOf, trim_cons hspace, htrim, if_neg ht]
    rw [htitle, joined_nil hlines]
    refine ⟨?_, rfl, rfl⟩
    rw [htail hlines, List.dropWhile_cons_of_pos hspace, ← htrim, dropWhile_trim, htrim]
    exact hall

/-- What is kept where there is no title. -/
theorem kept_untitled (ht : c.title = []) (hfold : c.fold = .none) :
    ((c.tail.dropWhile isSpace).all dot = true ∧ titleOf c.tail = none ∧
      c.children.flatMap pieces = chars (leadText c.joined) ++
        (turnedPieces (behindText c.joined) ++ c.restPieces)) ↔
      match c.lines with
      | [] => ∀ n ∈ c.rest, n.isMarked = false
      | l :: _ => l.hard = true ∨ leadText l.nodes = [] := by
  have htail : c.tail = leadText c.joined := by
    rw [Source.tail, hfold, if_pos ht]
    rfl
  rw [children_pieces, htail]
  cases hlines : c.lines with
  | nil =>
    rw [joined_nil hlines, ← pieces_visit_iff]
    exact ⟨fun h => h.2.2, fun h => ⟨rfl, rfl, h⟩⟩
  | cons l ls =>
    rcases joined_cons hlines with
      ⟨hhard, hlead, hne⟩ | ⟨-, hnone, hlead, hne⟩ | ⟨hsoft, hsome, w, hlead⟩
    · refine iff_of_true ?_ (.inl hhard)
      have htitle : titleOf [] = none := rfl
      simp only [hlead, htitle, if_neg hne]
      exact ⟨rfl, trivial, rfl⟩
    · refine iff_of_true ?_ (.inr hnone)
      have htitle : titleOf [newline] = none := by decide
      have hchars : chars [newline] = [] := by simp [chars]
      simp only [hlead, htitle, if_neg hne, hchars]
      exact ⟨by decide, trivial, rfl⟩
    · refine iff_of_false ?_ fun h => h.elim (fun hhard => by simp [hsoft] at hhard) hsome
      rintro ⟨-, htitle, hpieces⟩
      rw [htitle] at hpieces
      have hrest : (if behindText c.joined = [] then c.rest.flatMap fun n => pieces (visit n).2
          else c.restPieces).length = c.restPieces.length := by
        split_ifs
        · simp only [Source.restPieces, List.length_flatMap, length_pieces_visit]
        · rfl
      have hlen := congrArg List.length hpieces
      rw [List.length_append, hrest, List.length_append, List.length_append] at hlen
      have hnil : chars (leadText c.joined) = [] := List.eq_nil_of_length_eq_zero (by omega)
      rw [hlead, ← List.singleton_append, chars_append, chars_append] at hnil
      exact chars_lead_ne_nil hsome
        (List.append_eq_nil_iff.mp (List.append_eq_nil_iff.mp hnil).2).1

/-- A callout keeps its type, its fold state, its title and its body exactly where it has no fold
sign and is written for it. -/
theorem callout_kept_iff (c : Source) (before after : List Node) :
    KeepsCallout c before after ↔ c.fold = .none ∧ WrittenFor c := by
  have hiff := keepsCallout_eq c before after
  by_cases hfold : c.fold = .none
  · rw [hiff, and_iff_right hfold, WrittenFor, and_iff_right hfold]
    split_ifs with ht
    · have hchars : chars c.title = [] := by rw [ht]; rfl
      rw [← kept_untitled ht hfold, hchars, List.nil_append]
    · rw [← kept_titled ht hfold]
  · exact iff_of_false (fun h => hfold (hiff.mp h).2.1) fun h => hfold h.1

/-- A note with a title and a paragraph behind it. -/
theorem callout_kept_note : KeepsCallout
    ⟨units "note", .none, units "T", [], [.paragraph [.text (units "a")]], by decide⟩ [] [] :=
  (callout_kept_iff _ [] []).mpr ⟨rfl, by
    rw [WrittenFor, if_neg (by decide)]
    exact ⟨by decide, by decide, rfl⟩⟩

/-- The line of a note without a title becomes its title. -/
theorem callout_takes_line : ∃ l : Line,
    ¬ KeepsCallout ⟨units "note", .none, [], [l], [], by decide⟩ [] [] :=
  ⟨⟨false, [.text (units "a")], by simp, by decide⟩, fun h =>
    absurd ((keepsCallout_eq _ _ _).mp h).2.2.1 (by decide)⟩

/-! ### The command -/

section
variable {state : EditorState}

theorem newline_notMem_marker (h : type ∈ calloutTypes) {title : Text} (ht : newline ∉ title) :
    newline ∉ units "> " ++ markerText type .none title := by
  have hall : calloutTypes.all (fun t => !t.contains newline) = true := by decide
  have htype : newline ∉ type := by simpa using List.all_eq_true.mp hall type h
  simp only [markerText, List.mem_append, not_or]
  refine ⟨by decide, ⟨⟨by decide, htype⟩, by decide⟩, by decide, ?_⟩
  split_ifs
  · exact List.not_mem_nil
  · rw [List.mem_append]
    exact fun hmem => hmem.elim (absurd · (by decide)) ht

/-- The command writes the marker and the lines of the selection into a block quote. -/
theorem insertCallout_text (h : type ∈ calloutTypes) {title : Text} (ht : newline ∉ title) :
    ∃ text, (insertCallout state (.ofText type) (.ofText title)).bind Spec.text =
        some (slice state.text 0 (selectedText state).start ++ text ++
          slice state.text (selectedText state).stop state.text.length) ∧
      lines text = (units "> " ++ markerText type .none title) ::
        (lines (selectedText state).value).map (units "> " ++ ·) := by
  refine ⟨units "> " ++ markerText type .none title ++
    newline :: mapLines (units "> " ++ ·) (selectedText state).value, ?_, ?_⟩
  · have hbody : (if (selectedText state).value = [] then units "> "
        else mapLines (units "> " ++ ·) (selectedText state).value) =
        mapLines (units "> " ++ ·) (selectedText state).value := by
      split_ifs with hnil
      · rw [hnil]
        decide
      · rfl
    have hunits : units "> [!" = units "> " ++ units "[!" := rfl
    have hnewline : units "\n" = [newline] := rfl
    have htitle : (if title ≠ [] then some (units " " ++ title) else some []) =
        some (if title = [] then [] else units " " ++ title) := by
      by_cases hnil : title = [] <;> simp [hnil]
    simp only [insertCallout, Value.ofText, decide_eq_true_iff, Option.map_some, htitle,
      Option.bind_eq_bind, Option.bind_some, replaceSelection, replaceRange, hbody, markerText,
      Fold.sign, hunits, hnewline, List.append_assoc, List.nil_append, List.cons_append,
      Option.pure_def]
  · rw [lines_append_newline, lines_eq_singleton (newline_notMem_marker h ht), mapLines, join,
      lines_join (by simpa using lines_ne_nil _)]
    · rfl
    · intro l hl
      obtain ⟨l', hl', rfl⟩ := List.mem_map.mp hl
      rw [List.mem_append]
      exact fun hmem => hmem.elim (absurd · (by decide)) (newline_notMem _ l' hl')

end

end Mdock.Editor.Callouts
