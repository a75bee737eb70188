import Mdock.Js.Strings
import Mdock.Lib.Pattern

/-! The editing commands of the package: each computes from a document and a selection a new
document and a new selection. -/
namespace Mdock.Editor.Commands
open Mdock.Js Mdock.Lib

/-- The state a command is given; `selectionStart ≤ selectionEnd`. -/
structure EditorState where
  text : Text
  selectionStart : Nat
  selectionEnd : Nat

structure Change where
  start : Nat
  stop : Nat
  insert : Text
  deriving DecidableEq

/-- A number as a position in a text, `none` where it is no integer. -/
abbrev Position := Option Int

/-- The objects that commands return and `dispatch` takes; a field that is not set is
`undefined`. -/
structure Spec where
  text : Option Text := none
  selectionStart : Option Position := none
  selectionEnd : Option Position := none
  changes : Option Change := none
  selection : Option (Nat × Nat) := none
  deriving DecidableEq

/-! ### Values -/

/-- How `formatYamlValue` tells values apart. -/
inductive Shape
  | array (items : List (Option Text))
  | plain
  | other

/-- What the commands ask of a JavaScript value: whether it is truthy, what a template and
`String` make of it, its `length`, how many elements `Array.from` gives a `length` of it, and
its shape. What throws is `none`. -/
structure Value where
  truthy : Bool
  template : Option Text
  string : Option Text
  length : Position
  elements : Option Nat
  shape : Shape

/-- A string; as a `length` it is never used. -/
def Value.ofText (s : Text) : Value := ⟨s ≠ [], some s, some s, some s.length, none, .other⟩

/-- A small integer literal. -/
def Value.ofNat (n : Nat) : Value :=
  ⟨n ≠ 0, some (decimal n), some (decimal n), none, some n, .plain⟩

/-- `v || w`. -/
def Value.or (v w : Value) : Value := if v.truthy then v else w

def Value.undefined : Value :=
  ⟨false, some (units "undefined"), some (units "undefined"), none, some 0, .other⟩

/-- The entries of the object of values. -/
abbrev Values := List (Text × Value)

def Values.get (values : Values) (key : String) : Value :=
  ((values.find? fun e => e.1 = units key).map Prod.snd).getD .undefined

/-! ### Selections -/

structure Range where
  start : Nat
  stop : Nat
  value : Text

def selectedText (state : EditorState) : Range :=
  let start := min state.selectionStart state.selectionEnd
  let stop := max state.selectionStart state.selectionEnd
  ⟨start, stop, slice state.text start stop⟩

def selectedLineBlock (state : EditorState) : Range :=
  let selection := selectedText state
  let start := (lastIndexOf state.text newline (selection.start - 1)).elim 0 (· + 1)
  let stop := (indexOf state.text newline selection.stop).getD state.text.length
  ⟨start, stop, slice state.text start stop⟩

def replaceRange (state : EditorState) (start stop : Nat) (value : Text)
    (selectionStart selectionEnd : Position) : Spec where
  text := some (slice state.text 0 start ++ value ++ slice state.text stop state.text.length)
  selectionStart := some selectionStart
  selectionEnd := some selectionEnd

def replaceSelection (state : EditorState) (value : Text) (selectionStart selectionEnd : Position) :
    Spec :=
  let selection := selectedText state
  replaceRange state selection.start selection.stop value selectionStart selectionEnd

/-- The end of the commands that rewrite the lines of the selection. -/
def replaceBlock (state : EditorState) (next : Text → Text) : Spec :=
  let block := selectedLineBlock state
  replaceRange state block.start block.stop (next block.value) (some block.start)
    (some (block.start + (next block.value).length : Nat))

def mapLines (mapper : Text → Text) (s : Text) : Text := join [newline] ((lines s).map mapper)

def mapSelectedLines (state : EditorState) (mapper : Text → Text) : Spec :=
  replaceBlock state (mapLines mapper)

def blank (line : Text) : Bool := trim line = []

/-! ### Lines -/

def lit (s : String) : Pattern UInt16 := .literal (units s)

def oneOf (s : String) : Pattern UInt16 := .one (· ∈ units s)

/-- `\d+[.)]\s+`. -/
def numbered : Pattern UInt16 := .seq (.plus isDigit) (.seq (oneOf ".)") (.plus isSpace))

/-- `- \[[..]\]\s+`. -/
def checkbox (p : UInt16 → Bool) : Pattern UInt16 :=
  .seq (lit "- [") (.seq (.one p) (.seq (lit "]") (.plus isSpace)))

def listPrefix : Pattern UInt16 :=
  .alt (.seq (oneOf "-*+") (.plus isSpace)) (.alt numbered (checkbox (· ≠ unit ']')))

def stripListPrefix (line : Text) : Text := Pattern.keepFirst (.star isSpace) listPrefix [] line

/-- `^>\s?`, `^>\s+` and `^#{1,6}\s+`. -/
def quoteMark : Pattern UInt16 := .seq (lit ">") (.opt isSpace)
def quoteMarks : Pattern UInt16 := .seq (lit ">") (.plus isSpace)
def headingMark : Pattern UInt16 := .seq (.run (· = unit '#') 1 (some 6) true) (.plus isSpace)

def stripBlockPrefix (line : Text) : Text :=
  headingMark.cut (quoteMark.cut (stripListPrefix line))

def setParagraph (state : EditorState) : Spec := mapSelectedLines state stripBlockPrefix

def headingLine (level : Nat) (line : Text) : Text :=
  repeated (units "#") level ++ units " " ++ quoteMarks.cut (headingMark.cut line)

def setHeading (state : EditorState) (level : Nat) : Spec :=
  if level < 1 ∨ 6 < level then setParagraph state
  else mapSelectedLines state (headingLine level)

/-- The pattern of a toggle in two parts, of which its replacement keeps the first. -/
structure Toggle where
  mark : Text
  keep : Pattern UInt16
  pattern : Pattern UInt16

def Toggle.test (t : Toggle) (line : Text) : Bool := (Pattern.find₂ t.keep t.pattern line).isSome

def Toggle.strip (t : Toggle) (line : Text) : Text := Pattern.keepFirst t.keep t.pattern [] line

def toggledLines (t : Toggle) (s : Text) : Text :=
  let ls := lines s
  let allPrefixed := ls.all fun line => blank line || t.test line
  join [newline] (ls.map fun line =>
    if blank line then line
    else if allPrefixed then t.strip line
    else line.takeWhile isSpace ++ t.mark ++ trimStart (stripListPrefix line))

def toggleLinePrefix (state : EditorState) (t : Toggle) : Spec := replaceBlock state (toggledLines t)

def quote : Toggle := ⟨units "> ", lit "", quoteMark⟩
def bullet : Toggle := ⟨units "- ", .star isSpace, listPrefix⟩
def task : Toggle := ⟨units "- [ ] ", .star isSpace, checkbox (· ≠ unit ']')⟩

def toggleBlockquote (state : EditorState) : Spec := toggleLinePrefix state quote
def toggleBulletList (state : EditorState) : Spec := toggleLinePrefix state bullet
def toggleTaskList (state : EditorState) : Spec := toggleLinePrefix state task

def orderedLines (s : Text) : Text :=
  let ls := lines s
  let allOrdered := ls.all fun line =>
    blank line || (Pattern.find₂ (.star isSpace) numbered line).isSome
  join [newline] (ls.mapIdx fun index line =>
    if blank line then line
    else if allOrdered then Pattern.keepFirst (.star isSpace) numbered [] line
    else line.takeWhile isSpace ++ decimal (index + 1) ++ units ". " ++
      trimStart (stripListPrefix line))

def toggleOrderedList (state : EditorState) : Spec := replaceBlock state orderedLines

def taskDoneLine (line : Text) : Text :=
  let isDone := checkbox (· ∈ units "xX")
  if (Pattern.find₂ (.star isSpace) isDone line).isSome then
    Pattern.keepFirst (.star isSpace) isDone (units "- [ ] ") line
  else Pattern.keepFirst (.star isSpace) (checkbox (· ≠ unit ']')) (units "- [x] ") line

def toggleTaskDone (state : EditorState) : Spec := mapSelectedLines state taskDoneLine

def indentLine (line : Text) : Text := if line = [] then line else units "  " ++ line

def indentLines (state : EditorState) : Spec := mapSelectedLines state indentLine

def outdentLine (line : Text) : Text :=
  Pattern.cut (.alt (.run (· = unit ' ') 1 (some 2) true) (lit "\t")) line

def outdentLines (state : EditorState) : Spec := mapSelectedLines state outdentLine

/-! ### Inline marks -/

/-- `[ \t]+`. -/
def gap : Pattern UInt16 := .plus (· ∈ units " \t")

def structuralMark : Pattern UInt16 :=
  .alt (.seq (.run (· = unit '#') 1 (some 6) true) gap) <|
  .alt quoteMark <|
  .alt (.seq (lit "-") (.seq (.plus isSpace) (.seq (lit "[") (.seq (.opt (· ∈ units " xX"))
    (.seq (lit "]") (.plus isSpace)))))) <|
  .alt (.seq (oneOf "-*+") gap) <|
  .seq (.run isDigit 1 (some 9) true) (.seq (oneOf ".)") gap)

def structuralPrefix (line : Text) : Text := line.take ((structuralMark.find line).getD 0)

def coversStructuralPrefix (state : EditorState) (selection : Range) : Bool :=
  if newline ∈ selection.value then true
  else
    let line := selectedLineBlock state
    let prefixLength := (structuralPrefix line.value).length
    decide (0 < prefixLength) && decide ((selection.start : Int) - line.start ≤ prefixLength)

/-- The text stands between two markers that do not overlap. -/
def marked (marker s : Text) : Bool :=
  marker.isPrefixOf s && marker.isSuffixOf s && decide (marker.length * 2 ≤ s.length)

def unmark (marker s : Text) : Text := slice s marker.length (s.length - marker.length)

def inlineLine (marker line : Text) : Text :=
  if blank line then line
  else
    let lead := structuralPrefix line
    let content := slice line lead.length line.length
    if marked marker content then lead ++ unmark marker content
    else lead ++ marker ++ content ++ marker

def applyInlineOverLines (state : EditorState) (marker : Text) : Spec :=
  replaceBlock state (mapLines (inlineLine marker))

/-- The selection stands between two markers. -/
def betweenMarks (state : EditorState) (marker : Text) : Bool :=
  let selection := selectedText state
  slice state.text (selection.start - marker.length) selection.start = marker ∧
    slice state.text selection.stop (selection.stop + marker.length) = marker

/-- The mark goes on each line of the selection. -/
def overLines (state : EditorState) : Bool :=
  let selection := selectedText state
  selection.value ≠ [] ∧
    (newline ∈ selection.value ∨ coversStructuralPrefix state selection = true)

def toggleInlineMark (state : EditorState) (marker : Text) : Spec :=
  let selection := selectedText state
  if betweenMarks state marker then
    replaceRange state (selection.start - marker.length) (selection.stop + marker.length)
      (slice state.text selection.start selection.stop)
      (some (selection.start - marker.length : Int)) (some (selection.stop - marker.length : Int))
  else if marked marker selection.value then
    let unwrapped := unmark marker selection.value
    replaceRange state selection.start selection.stop unwrapped (some selection.start)
      (some (selection.start + unwrapped.length : Nat))
  else if overLines state then applyInlineOverLines state marker
  else replaceSelection state (marker ++ selection.value ++ marker)
    (some (selection.start + marker.length : Nat)) (some (selection.stop + marker.length : Nat))

def inlineCodeMarker (state : EditorState) : Text :=
  if unit '`' ∈ (selectedText state).value then units "``" else units "`"

def toggleInlineCode (state : EditorState) : Spec :=
  toggleInlineMark state (inlineCodeMarker state)

def toggleComment (state : EditorState) : Spec := toggleInlineMark state (units "%%")

def insertInlineMath (state : EditorState) : Spec := toggleInlineMark state (units "$")

/-! ### Insertions -/

/-- What a block is set off with from what stands before and after it. -/
def blockBefore (state : EditorState) : Text :=
  let selection := selectedText state
  if 0 < selection.start ∧ state.text[selection.start - 1]? ≠ some newline then units "\n\n" else []

def blockAfter (state : EditorState) : Text :=
  let selection := selectedText state
  if selection.stop < state.text.length ∧ state.text[selection.stop]? ≠ some newline then
    units "\n\n"
  else []

def insertBlock (state : EditorState) (block : Text) : Spec :=
  let selection := selectedText state
  let before := blockBefore state
  replaceSelection state (before ++ block ++ blockAfter state)
    (some (selection.start + before.length : Nat))
    (some (selection.start + before.length + block.length : Nat))

def insertCodeBlock (state : EditorState) (language : Value) : Option Spec := do
  let selection := selectedText state
  let lang ← language.template
  let block := units "```" ++ lang ++ units "\n" ++ selection.value ++ units "\n```"
  let start : Position := language.length.map ((selection.start + 4 : Nat) + ·)
  return replaceSelection state block start (start.map (· + selection.value.length))

def insertHorizontalRule (state : EditorState) : Spec := insertBlock state (units "---")

def tableRow (cells : List Text) : Text := units "| " ++ join (units " | ") cells ++ units " |"

def table (rows columns : Nat) : Text :=
  join (units "\n") (tableRow (List.replicate columns []) ::
    tableRow (List.replicate columns (units "---")) ::
    List.replicate rows (tableRow (List.replicate columns [])))

def insertTable (state : EditorState) (rows columns : Value) : Option Spec := do
  let n ← columns.elements
  let m ← rows.elements
  return insertBlock state (table m n)

/-- `insertMarkdownLink` and `insertImage`: the text in brackets, the address behind it. -/
def insertReference (state : EditorState) (sign : Text) (url text : Value) (fallback : Text) :
    Option Spec := do
  let selection := selectedText state
  let text := (text.or (.ofText selection.value)).or (.ofText fallback)
  let label ← text.template
  let address ← url.template
  let value := sign ++ units "[" ++ label ++ units "](" ++ address ++ units ")"
  let start := selection.start + sign.length + 1
  return replaceSelection state value (some (start : Nat)) (text.length.map ((start : Nat) + ·))

def insertMarkdownLink (state : EditorState) (url label : Value) : Option Spec :=
  insertReference state [] url label (units "link")

def insertImage (state : EditorState) (url alt : Value) : Option Spec :=
  insertReference state (units "!") url alt (units "image")

def insertWikilink (state : EditorState) (target aliasText : Value) : Option Spec := do
  let selection := selectedText state
  let linkTarget := (target.or (.ofText selection.value)).or (.ofText (units "Page"))
  let page ← linkTarget.template
  let value ← (if aliasText.truthy then
      aliasText.template.map fun name => units "[[" ++ page ++ units "|" ++ name ++ units "]]"
    else some (units "[[" ++ page ++ units "]]"))
  return replaceSelection state value (some (selection.start + 2 : Nat))
    (linkTarget.length.map ((selection.start + 2 : Nat) + ·))

def insertEmbed (state : EditorState) (target : Value) : Option Spec := do
  let selection := selectedText state
  let file ← ((target.or (.ofText selection.value)).or (.ofText (units "File"))).template
  let value := units "![[" ++ file ++ units "]]"
  return replaceSelection state value (some (selection.start + 3 : Nat))
    (some (selection.start + value.length - 2 : Nat))

def insertCallout (state : EditorState) (type title : Value) : Option Spec := do
  let selection := selectedText state
  let body := selection.value
  let kind ← type.template
  let heading ← (if title.truthy then title.template.map (units " " ++ ·) else some [])
  let firstLine := units "> [!" ++ kind ++ units "]" ++ heading
  let quotedBody := if body = [] then units "> " else mapLines (units "> " ++ ·) body
  return replaceSelection state (firstLine ++ units "\n" ++ quotedBody) (some selection.start)
    (some (selection.start + firstLine.length : Nat))

def insertBlockMath (state : EditorState) : Spec :=
  let selection := selectedText state
  let body := selection.value
  replaceSelection state (units "$$\n" ++ body ++ units "\n$$") (some (selection.start + 3 : Nat))
    (some (selection.start + 3 + body.length : Nat))

def insertFootnote (state : EditorState) (id text : Value) : Option Spec := do
  let selection := selectedText state
  let name ← id.template
  let note ← text.template
  let reference := units "[^" ++ name ++ units "]"
  let definition := units "\n\n[^" ++ name ++ units "]: " ++ note
  let start := selection.stop + reference.length + 2
  return replaceSelection state (selection.value ++ reference ++ definition) (some (start : Nat))
    (text.length.map ((start : Nat) + ·))

/-- `random` is what `Math.random` gives for a block without an id. -/
def insertBlockId (random : Text) (state : EditorState) (blockId : Value) : Option Spec := do
  let selection := selectedText state
  let id ← (blockId.or (.ofText (units "block-" ++ random))).template
  let blockIdMarker := units "^" ++ id
  if selection.value ≠ [] then
    return replaceSelection state
      (units "[[#" ++ blockIdMarker ++ units "|" ++ selection.value ++ units "]]")
      (some (selection.start + 2 : Nat)) (some (selection.start + 2 + selection.value.length : Nat))
  else
    return replaceSelection state blockIdMarker
      (some (selection.start + blockIdMarker.length : Nat))
      (some (selection.start + blockIdMarker.length : Nat))

def formatYamlValue (value : Value) : Option Text :=
  match value.shape with
  | .array items => do
    let strings ← items.mapM id
    return units "[" ++ join (units ", ") (strings.map stringify) ++ units "]"
  | .plain => value.string
  | .other => value.string.map stringify

def frontmatterBlock (entries : Values) : Option Text := do
  let yaml ← entries.mapM fun e => (formatYamlValue e.2).map fun v => e.1 ++ units ": " ++ v
  return units "---\n" ++ join [newline] yaml ++ units "\n---\n"

/-- The front matter a document has. -/
def frontmatter : Pattern UInt16 :=
  .seq (lit "---\n") (.seq (.run (fun _ => true) 0 none false)
    (.seq (lit "\n---") (.opt (· = newline))))

def ensureFrontmatter (state : EditorState) (entries : Values) : Option Spec := do
  let block ← frontmatterBlock entries
  match frontmatter.find state.text with
  | some n =>
    return replaceRange state 0 n block (some state.selectionStart) (some state.selectionEnd)
  | none =>
    return replaceRange state 0 0 block (some (state.selectionStart + block.length : Nat))
      (some (state.selectionEnd + block.length : Nat))

/-! ### The commands -/

inductive Command
  | paragraph | heading1 | heading2 | heading3 | heading4 | heading5 | heading6 | quote | bold
  | italic | strikethrough | highlight | inlineCode | comment | bulletList | orderedList
  | taskList | taskDone | indent | outdent | codeBlock | horizontalRule | table | link | image
  | wikilink | embed | callout | inlineMath | blockMath | footnote | blockId | metadata

/-- What `executeCommand` hands to `dispatch`; `none` where it throws. -/
def executeCommand (random : Text) (state : EditorState) (values : Values) :
    Command → Option Spec
  | .paragraph => some (setParagraph state)
  | .heading1 => some (setHeading state 1)
  | .heading2 => some (setHeading state 2)
  | .heading3 => some (setHeading state 3)
  | .heading4 => some (setHeading state 4)
  | .heading5 => some (setHeading state 5)
  | .heading6 => some (setHeading state 6)
  | .quote => some (toggleBlockquote state)
  | .bold => some (toggleInlineMark state (units "**"))
  | .italic => some (toggleInlineMark state (units "*"))
  | .strikethrough => some (toggleInlineMark state (units "~~"))
  | .highlight => some (toggleInlineMark state (units "=="))
  | .inlineCode => some (toggleInlineCode state)
  | .comment => some (toggleComment state)
  | .bulletList => some (toggleBulletList state)
  | .orderedList => some (toggleOrderedList state)
  | .taskList => some (toggleTaskList state)
  | .taskDone => some (toggleTaskDone state)
  | .indent => some (indentLines state)
  | .outdent => some (outdentLines state)
  | .codeBlock => insertCodeBlock state ((values.get "lang").or (.ofText []))
  | .horizontalRule => some (insertHorizontalRule state)
  | .table => insertTable state ((values.get "rows").or (.ofNat 2)) ((values.get "cols").or (.ofNat 2))
  | .link => insertMarkdownLink state ((values.get "url").or (.ofText []))
      ((values.get "label").or (.ofText []))
  | .image => insertImage state ((values.get "url").or (.ofText []))
      ((values.get "alt").or (.ofText []))
  | .wikilink => insertWikilink state ((values.get "target").or (.ofText []))
      ((values.get "alias").or (.ofText []))
  | .embed => insertEmbed state ((values.get "target").or (.ofText []))
  | .callout => insertCallout state ((values.get "type").or (.ofText (units "note")))
      ((values.get "title").or (.ofText []))
  | .inlineMath => some (insertInlineMath state)
  | .blockMath => some (insertBlockMath state)
  | .footnote => insertFootnote state ((values.get "id").or (.ofText (units "1")))
      ((values.get "text").or (.ofText []))
  | .blockId => insertBlockId random state ((values.get "blockId").or (.ofText []))
  | .metadata => ensureFrontmatter state values

end Mdock.Editor.Commands
