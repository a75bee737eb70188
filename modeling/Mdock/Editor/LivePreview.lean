import Mdock.Editor.Lookup
import Mdock.Lib.Run

/-! The state field of live preview, and where typing leaves the block of the caret in source
form. -/
namespace Mdock.Editor.LivePreview
open Mdock.Js Mdock.Lib Mdock.Editor.Blocks
open Commands (Change)

/-- What the editor does with a set of changes: the new document, and where a position goes. -/
structure ChangeSets (C : Type) where
  apply : C → Text → Text
  mapPos : C → Nat → Nat
  replace : Change → C

/-- Where a position goes by default: it stays in front of what is inserted at it or put across
it. -/
def moved (c : Change) (position : Nat) : Nat :=
  if position < c.start then position
  else if position < c.stop ∨ position = c.start then c.start
  else position - c.stop + (c.start + c.insert.length)

def replaced (c : Change) (doc : Text) : Text := doc.take c.start ++ c.insert ++ doc.drop c.stop

structure ChangeSets.Laws {C : Type} (K : ChangeSets C) : Prop where
  apply_replace : ∀ c doc, c.start ≤ c.stop → c.stop ≤ doc.length →
    K.apply (K.replace c) doc = replaced c doc
  mapPos_replace : ∀ c position, K.mapPos (K.replace c) position = moved c position

/-- `start` and `stop` are the fields `from` and `to`. -/
structure ActiveBlock where
  start : Nat
  stop : Nat
  sourceTo : Nat

/-- A focused block; the widgets leave `blockIndex` out. -/
structure FocusedBlock where
  start : Nat
  stop : Nat
  sourceTo : Nat
  blockIndex : Option Nat

inductive Effect
  | setActiveBlock (block : Option ActiveBlock)
  | setFocusedBlock (block : Option FocusedBlock)
  | other

/-- The main range. -/
structure Selection where
  anchor : Nat
  head : Nat

def Selection.start (s : Selection) : Nat := min s.anchor s.head

def Selection.stop (s : Selection) : Nat := max s.anchor s.head

/-- `changes` is `none` where the document is not changed; `main` is the selection afterwards, and
`input` says that the event is one of `input`. -/
structure Transaction (C : Type) where
  changes : Option C
  selection : Bool
  main : Selection
  effects : List Effect
  input : Bool

/-- The two blocks the field remembers. -/
structure Held where
  activeBlock : Option ActiveBlock
  focusedBlock : Option FocusedBlock

variable {C : Type}

def Held.mapped (K : ChangeSets C) (changes : Option C) (h : Held) : Held :=
  match changes with
  | none => h
  | some c =>
    ⟨h.activeBlock.map fun b => ⟨K.mapPos c b.start, K.mapPos c b.stop, K.mapPos c b.sourceTo⟩,
      h.focusedBlock.map fun b =>
        ⟨K.mapPos c b.start, K.mapPos c b.stop, K.mapPos c b.sourceTo, b.blockIndex⟩⟩

def Held.effect (h : Held) : Effect → Held
  | .setActiveBlock b => ⟨b, if b.isSome then none else h.focusedBlock⟩
  | .setFocusedBlock b => ⟨h.activeBlock, b⟩
  | .other => h

/-- Typing in the focused block activates it. -/
def Held.autoActivate (input : Bool) (sel : Selection) (h : Held) : Held :=
  match h.activeBlock, h.focusedBlock with
  | none, some b =>
    if input = true ∧ b.start ≤ sel.start ∧ sel.stop ≤ b.stop then
      ⟨some ⟨b.start, b.stop, b.sourceTo⟩, none⟩
    else h
  | _, _ => h

/-- A selection elsewhere clears the focused block. -/
def Held.clearFocus (selection : Bool) (sel : Selection) (h : Held) : Held :=
  match h.focusedBlock with
  | some b =>
    if selection = true ∧ (sel.start < b.start ∨ b.stop < sel.stop) then ⟨h.activeBlock, none⟩ else h
  | none => h

def Held.update (K : ChangeSets C) (t : Transaction C) (h : Held) : Held :=
  ((t.effects.foldl Held.effect (h.mapped K t.changes)).autoActivate t.input t.main).clearFocus
    t.selection t.main

/-- The rendered document, a block as source, or a rendered block; `isFocused` is `none` where it
is `null`. -/
inductive Decoration
  | document
  | source (block : SplitBlock)
  | rendered (block : SplitBlock) (isFocused : Option Bool)
  deriving DecidableEq

def isActiveBlock (block : SplitBlock) (activeBlock : ActiveBlock) : Bool :=
  decide (block.start < activeBlock.sourceTo) && decide (activeBlock.start < block.sourceTo)

def buildDecorations (blocks : List SplitBlock) (h : Held) : List Decoration :=
  match h.activeBlock with
  | none => [.document]
  | some active => blocks.mapIdx fun i block =>
    if isActiveBlock block active then .source block
    else .rendered block (h.focusedBlock.map fun f => decide (f.blockIndex = some i))

/-- An editor with the value of its field. -/
structure Preview where
  doc : Text
  selection : Selection
  held : Held
  decorations : List Decoration

def create (random : Nat → Text) (doc : Text) (selection : Selection) : Preview :=
  ⟨doc, selection, ⟨none, none⟩, buildDecorations (splitBlocks random doc) ⟨none, none⟩⟩

def Preview.update (K : ChangeSets C) (random : Nat → Text) (s : Preview) (t : Transaction C) :
    Preview :=
  let doc := t.changes.elim s.doc fun c => K.apply c s.doc
  let held := s.held.update K t
  if t.changes.isNone = true ∧ t.selection = false ∧ t.effects.isEmpty = true then
    ⟨doc, t.main, held, s.decorations⟩
  else ⟨doc, t.main, held, buildDecorations (splitBlocks random doc) held⟩

/-- An editor under any transactions. -/
def editor (K : ChangeSets C) (random : Nat → Text) : Machine Preview (Transaction C) where
  init s := ∃ doc selection, s = create random doc selection
  step s t := some (s.update K random t)

/-- The block of a document that contains a position; the last one holds its end. -/
def Contains (doc : Text) (b : SplitBlock) (p : Nat) : Prop :=
  b.start ≤ p ∧ (p < b.stop ∨ p = doc.length ∧ b.stop = doc.length)

instance (doc : Text) (b : SplitBlock) (p : Nat) : Decidable (Contains doc b p) :=
  inferInstanceAs (Decidable (_ ∧ _))

/-- The caret is in no block that is rendered. -/
def SourceAtCaret (random : Nat → Text) (s : Preview) : Prop :=
  ∀ b ∈ splitBlocks random s.doc, Contains s.doc b s.selection.head → .source b ∈ s.decorations

/-- The caret is in a block that is shown as source. -/
def CaretInSource (random : Nat → Text) (s : Preview) : Prop :=
  ∃ b ∈ splitBlocks random s.doc, Contains s.doc b s.selection.head ∧ .source b ∈ s.decorations

/-- Typing or pasting over the selection, or deleting it or text next to the caret. -/
structure IsInput (K : ChangeSets C) (s : Preview) (t : Transaction C) (c : Change) : Prop where
  changes : t.changes = some (K.replace c)
  valid : c.start ≤ c.stop ∧ c.stop ≤ s.doc.length
  atSelection : (c.start = s.selection.start ∧ c.stop = s.selection.stop) ∨
    (c.insert = [] ∧ s.selection.anchor = s.selection.head ∧ c.start ≤ s.selection.head ∧
      s.selection.head ≤ c.stop)
  caret : t.main = ⟨c.start + c.insert.length, c.start + c.insert.length⟩
  effects : ∀ b, Effect.setActiveBlock b ∉ t.effects

/-- In the text after the change no block begins from where the end of the remembered range goes
up to the caret, if the change reaches that end, and the block of the caret has text behind where
the beginning of the range goes. -/
def Keeps (random : Nat → Text) (s : Preview) (c : Change) : Prop :=
  let doc := replaced c s.doc
  let caret := c.start + c.insert.length
  ∀ active, s.held.activeBlock = some active →
    (c.stop < active.sourceTo ∨
      ∀ b ∈ splitBlocks random doc, moved c active.sourceTo ≤ b.start → caret < b.start) ∧
    ∀ b ∈ splitBlocks random doc, Contains doc b caret → moved c active.start < b.sourceTo

variable {K : ChangeSets C} {random : Nat → Text} {s : Preview} {t : Transaction C} {c : Change}
  {h : Held} {active : ActiveBlock} {blocks : List SplitBlock} {b : SplitBlock}

theorem source_mem_buildDecorations (hactive : h.activeBlock = some active) :
    .source b ∈ buildDecorations blocks h ↔ b ∈ blocks ∧ isActiveBlock b active = true := by
  simp only [buildDecorations, hactive, List.mem_mapIdx]
  constructor
  · rintro ⟨i, hi, heq⟩
    split_ifs at heq with hb
    obtain rfl := Decoration.source.inj heq
    exact ⟨List.getElem_mem hi, hb⟩
  · rintro ⟨hb, hactive⟩
    obtain ⟨i, hi, rfl⟩ := List.getElem_of_mem hb
    exact ⟨i, hi, if_pos hactive⟩

theorem activeBlock_effects {effects : List Effect}
    (hno : ∀ b, Effect.setActiveBlock b ∉ effects) :
    (effects.foldl Held.effect h).activeBlock = h.activeBlock := by
  induction effects generalizing h with
  | nil => rfl
  | cons e effects ih =>
    rw [List.foldl_cons, ih fun b hb => hno b (List.mem_cons_of_mem e hb)]
    cases e with
    | setActiveBlock b => exact absurd List.mem_cons_self (hno b)
    | setFocusedBlock b => rfl
    | other => rfl

theorem activeBlock_autoActivate {input : Bool} {sel : Selection}
    (hactive : h.activeBlock = some active) :
    (h.autoActivate input sel).activeBlock = some active := by
  simp only [Held.autoActivate, hactive]

theorem activeBlock_clearFocus {selection : Bool} {sel : Selection} :
    (h.clearFocus selection sel).activeBlock = h.activeBlock := by
  unfold Held.clearFocus
  split
  · split_ifs <;> rfl
  · rfl

/-- The range an input leaves the field with. -/
theorem activeBlock_update (hK : K.Laws) (ht : IsInput K s t c)
    (hactive : s.held.activeBlock = some active) : (s.held.update K t).activeBlock =
      some ⟨moved c active.start, moved c active.stop, moved c active.sourceTo⟩ := by
  rw [Held.update, activeBlock_clearFocus]
  refine activeBlock_autoActivate ?_
  rw [activeBlock_effects ht.effects]
  simp only [Held.mapped, ht.changes, hactive, Option.map_some, hK.mapPos_replace]

theorem update_input (random : Nat → Text) (hK : K.Laws) (ht : IsInput K s t c) :
    (s.update K random t).doc = replaced c s.doc ∧
      (s.update K random t).selection.head = c.start + c.insert.length ∧
      (s.update K random t).held = s.held.update K t ∧
      (s.update K random t).decorations =
        buildDecorations (splitBlocks random (replaced c s.doc)) (s.held.update K t) := by
  have hdoc := hK.apply_replace c s.doc ht.valid.1 ht.valid.2
  simp [Preview.update, ht.changes, ht.caret, hdoc]

/-- Behind the beginning of a block every position is in a block, that one or a later. -/
theorem exists_contains {doc : Text} {q p : Nat} {x : SplitBlock} (h : Tiles doc q blocks)
    (hx : x ∈ blocks) (hp : x.start ≤ p) (hlen : p ≤ doc.length) :
    ∃ b ∈ blocks, Contains doc b p ∧ x.start ≤ b.start := by
  induction blocks generalizing q x with
  | nil => simp at hx
  | cons b blocks ih =>
    obtain ⟨-, hlt, hto, -, hstop, -, -, -, hrest⟩ := h
    cases blocks with
    | nil =>
      obtain rfl : x = b := by simpa using hx
      have hend : x.stop = doc.length := hstop
      exact ⟨x, hx, ⟨hp, by omega⟩, Nat.le_refl _⟩
    | cons b' blocks =>
      have hnext : b.stop = b'.start := hstop
      by_cases hin : p < b.stop
      · have hfirst : x = b := by
          rcases List.mem_cons.mp hx with hx | hx
          · exact hx
          · have hle : b.stop ≤ x.start := by
              rcases List.mem_cons.mp hx with rfl | hx
              · exact hnext.le
              · obtain ⟨-, hlt', -, -, -, -, -, -, hrest'⟩ := hrest
                have := hrest'.start_le hx
                omega
            omega
        exact ⟨b, List.mem_cons_self, ⟨hfirst ▸ hp, .inl hin⟩, hfirst ▸ Nat.le_refl _⟩
      · obtain ⟨y, hy, hyp, hxy⟩ : ∃ y ∈ b' :: blocks, y.start ≤ p ∧ x.start ≤ y.start := by
          rcases List.mem_cons.mp hx with rfl | hx
          · exact ⟨b', List.mem_cons_self, by omega, by omega⟩
          · exact ⟨x, hx, hp, Nat.le_refl _⟩
        obtain ⟨z, hz, hcontains, hyz⟩ := ih hrest hy hyp
        exact ⟨z, List.mem_cons_of_mem b hz, hcontains, Nat.le_trans hxy hyz⟩

/-- An input leaves the block of the caret in source form exactly if it meets the condition. -/
theorem sourceAtCaret_update (hK : K.Laws) (ht : IsInput K s t c)
    (hactive : s.held.activeBlock = some active) :
    SourceAtCaret random (s.update K random t) ↔ Keeps random s c := by
  obtain ⟨hdoc, hhead, -, hdecorations⟩ := update_input random hK ht
  have htiles := tiles_splitBlocks random (replaced c s.doc)
  simp only [SourceAtCaret, hdoc, hhead, hdecorations,
    source_mem_buildDecorations (activeBlock_update hK ht hactive), Keeps, hactive,
    Option.some.injEq, forall_eq', isActiveBlock, Bool.and_eq_true, decide_eq_true_iff]
  constructor
  · intro hshown
    refine ⟨.inr fun x hx hmoved => ?_, fun b hb hin => (hshown b hb hin).2.2⟩
    by_contra hle
    have hlen : c.start + c.insert.length ≤ (replaced c s.doc).length := by
      have := ht.valid
      simp [replaced]
      omega
    obtain ⟨b, hb, hin, hxb⟩ := exists_contains htiles hx (Nat.le_of_not_lt hle) hlen
    have := (hshown b hb hin).2.1
    omega
  · rintro ⟨hend, hstart⟩ b hb hin
    refine ⟨hb, ?_, hstart b hb hin⟩
    rcases hend with hbehind | hend
    · have hvalid := ht.valid.1
      have hmoved : moved c active.sourceTo =
          active.sourceTo - c.stop + (c.start + c.insert.length) := by
        rw [moved, if_neg (by omega), if_neg (by omega)]
      have := hin.1
      omega
    · by_contra hge
      have := hend b hb (Nat.le_of_not_lt hge)
      have := hin.1
      omega

/-- Nothing is remembered anew where nothing happens. -/
theorem update_idle (hchanges : t.changes = none) (hselection : t.selection = false)
    (heffects : t.effects = []) (hactive : h.activeBlock = some active) : h.update K t = h := by
  have hfocus : ∀ h : Held, h.clearFocus false t.main = h := fun h => by
    unfold Held.clearFocus
    split
    · rw [if_neg (by simp)]
    · rfl
  rw [Held.update, hselection, hfocus, heffects, List.foldl_nil, hchanges]
  simp only [Held.mapped, Held.autoActivate, hactive]

/-- The decorations are those of the field, or those of a document without an active block. -/
theorem decorations_of_reach (hs : (editor K random).Reach s) :
    s.decorations = buildDecorations (splitBlocks random s.doc) s.held ∨
      s.decorations = [.document] := by
  refine hs.invariant (p := fun s => s.decorations =
      buildDecorations (splitBlocks random s.doc) s.held ∨ s.decorations = [.document]) ?_ ?_
  · rintro s ⟨doc, selection, rfl⟩
    exact .inl rfl
  · rintro s t s' hinv hstep
    obtain rfl := Option.some.inj hstep
    unfold Preview.update
    simp only
    split
    next hidle =>
      obtain ⟨hchanges, hselection, heffects⟩ := hidle
      rw [Option.isNone_iff_eq_none] at hchanges
      simp only [hchanges, Option.elim_none]
      cases hactive : s.held.activeBlock with
      | some active =>
        rwa [update_idle hchanges hselection (List.isEmpty_iff.mp heffects) hactive]
      | none =>
        refine .inr (hinv.elim (fun heq => ?_) id)
        rw [heq, buildDecorations, hactive]
    next => exact .inl rfl

theorem exists_active (hs : (editor K random).Reach s) (hb : .source b ∈ s.decorations) :
    ∃ active, s.held.activeBlock = some active := by
  refine Option.ne_none_iff_exists'.mp fun hnone => ?_
  have hdocument : s.decorations = [.document] := by
    rcases decorations_of_reach hs with h | h
    · rw [h, buildDecorations, hnone]
    · exact h
  rw [hdocument] at hb
  simp at hb

theorem contains_unique {doc : Text} {p : Nat} {b' : SplitBlock}
    (hb : b ∈ splitBlocks random doc) (hb' : b' ∈ splitBlocks random doc) (h : Contains doc b p)
    (h' : Contains doc b' p) : b = b' := by
  have htiles := tiles_splitBlocks random doc
  have hin := htiles.of_mem hb
  have hin' := htiles.of_mem hb'
  obtain ⟨hstart, hstop⟩ := h
  obtain ⟨hstart', hstop'⟩ := h'
  rcases htiles.trichotomy hb hb' with heq | ⟨hle, -⟩ | ⟨hle, -⟩
  · exact heq
  · omega
  · omega

/-- The editor from a state on. -/
def editorFrom (K : ChangeSets C) (random : Nat → Text) (s : Preview) :
    Machine Preview (Transaction C) where
  init s' := s' = s
  step := (editor K random).step

/-- From a state that is reached and shows the block of the caret as source, inputs that meet the
condition lead only to states that do, and an input that does not leads to one that does not. -/
theorem input_keeps_source (K : ChangeSets C) (hK : K.Laws) (random : Nat → Text) (s : Preview)
    (hs : (editor K random).Reach s) (hshown : CaretInSource random s) :
    (∀ s', (editorFrom K random s).ReachVia (fun s t => ∃ c, IsInput K s t c ∧ Keeps random s c) s' →
      SourceAtCaret random s') ∧
    ∀ t c, IsInput K s t c → (SourceAtCaret random (s.update K random t) ↔ Keeps random s c) := by
  obtain ⟨b, hb, hin, hsource⟩ := hshown
  obtain ⟨active, hactive⟩ := exists_active hs hsource
  refine ⟨fun s' hs' => ?_, fun t c ht => sourceAtCaret_update hK ht hactive⟩
  refine (hs'.invariant (p := fun s => (∃ active, s.held.activeBlock = some active) ∧
    SourceAtCaret random s) ?_ ?_).2
  · rintro s' rfl
    refine ⟨⟨active, hactive⟩, fun b' hb' hin' => ?_⟩
    rwa [contains_unique hb' hb hin' hin]
  · rintro s t s' ⟨⟨active, hactive⟩, -⟩ ⟨c, ht, hkeeps⟩ hstep
    obtain rfl := Option.some.inj hstep
    obtain ⟨-, -, hheld, -⟩ := update_input random hK ht
    rw [hheld]
    exact ⟨⟨_, activeBlock_update hK ht hactive⟩, (sourceAtCaret_update hK ht hactive).mpr hkeeps⟩

/-! ### A run -/

/-- Sets of one change. -/
def single : ChangeSets Change := ⟨replaced, moved, id⟩

theorem single_laws : single.Laws := ⟨fun _ _ _ _ => rfl, fun _ _ => rfl⟩

/-- A block is activated with the caret at its end. -/
def activated : Preview :=
  (create (fun _ => []) (units "abc") ⟨3, 3⟩).update single (fun _ => [])
    ⟨none, false, ⟨3, 3⟩, [.setActiveBlock (some ⟨0, 3, 3⟩)], false⟩

theorem reach_activated : (editor single fun _ => []).Reach activated :=
  .step (.init ⟨_, _, rfl⟩) trivial rfl

theorem activated_inSource : CaretInSource (fun _ => []) activated :=
  ⟨⟨.paragraph, 0, 3, 3, units "abc", units "block-"⟩, by decide +kernel, by decide +kernel,
    by decide +kernel⟩

/-- `s` put in at the end. -/
def typed (s : Text) : Transaction Change :=
  ⟨some ⟨3, 3, s⟩, true, ⟨3 + s.length, 3 + s.length⟩, [], true⟩

theorem typed_isInput (s : Text) : IsInput single activated (typed s) ⟨3, 3, s⟩ :=
  ⟨rfl, ⟨Nat.le_refl 3, Nat.le_refl 3⟩, .inl ⟨rfl, rfl⟩, rfl, fun _ => List.not_mem_nil⟩

theorem input_keeps_source_typed :
    SourceAtCaret (fun _ => []) (activated.update single (fun _ => []) (typed (units "d"))) :=
  ((input_keeps_source single single_laws (fun _ => []) activated reach_activated
    activated_inSource).2 (typed (units "d")) _ (typed_isInput _)).mpr fun active hactive => by
      obtain rfl := Option.some.inj hactive
      exact ⟨.inr (by decide +kernel), by decide +kernel⟩

/-- A paste that begins a block behind the remembered range is rendered at once. -/
theorem paste_is_rendered : ∃ (s : Preview) (t : Transaction Change) (c : Change),
    (editor single fun _ => []).Reach s ∧ CaretInSource (fun _ => []) s ∧ IsInput single s t c ∧
      ¬ SourceAtCaret (fun _ => []) (s.update single (fun _ => []) t) := by
  refine ⟨activated, typed (units "\n\nxyz"), _, reach_activated, activated_inSource,
    typed_isInput _, fun h => ?_⟩
  have hrendered := h ⟨.paragraph, 5, 8, 8, units "xyz", units "block-"⟩ (by decide +kernel)
    (by decide +kernel)
  exact absurd hrendered (by decide +kernel)

end Mdock.Editor.LivePreview
