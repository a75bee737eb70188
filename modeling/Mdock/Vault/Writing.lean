import Mdock.Go.Strings
import Mdock.Lib.Run

/-! `WriteFile` on an existing file, step by step, beside others that read it. `os.WriteFile`
opens the file with truncation, writes, and closes it; any of these may fail. The file is
read by `ReadFile` and by `git add`, whose result the next commit holds; none of the three
waits for a call of `WriteFile` to return. -/
namespace Mdock.Vault.Writing
open Mdock.Go Mdock.Lib

inductive WritePhase
  | mkdirAll
  | open
  | write (written : Nat)
  | close (failed : Bool)
  | sync
  | returned (failed : Bool)
  deriving DecidableEq

/-- A call of `WriteFile`. For the record: the content it found, its own data, and the data of
every other call that ran at the same time or began later. -/
structure Call where
  data : Bytes
  phase : WritePhase
  offered : List Bytes
  deriving DecidableEq

inductive Read
  | reading (add : Bool) (data : Bytes)
  | done (data : Bytes)
  | failed
  deriving DecidableEq

/-- The file, its version in the index and in `HEAD`, and, for the record, the complete
versions there were before the first call. -/
structure State where
  content : Bytes
  index : Bytes
  head : Bytes
  calls : List Call
  reads : List Read
  before : List Bytes
  deriving DecidableEq

def WritePhase.running : WritePhase → Bool
  | .returned _ => false
  | _ => true

/-- What the running calls are to write. -/
def State.beside (s : State) : List Bytes :=
  (s.calls.filter fun c => c.phase.running).map Call.data

/-- The complete versions of the file. -/
def State.versions (s : State) : List Bytes := s.before ++ s.calls.map Call.data

def Call.offer (data : Bytes) (c : Call) : Call := { c with offered := data :: c.offered }

def State.begin (s : State) (data : Bytes) : State :=
  { s with
    calls := s.calls.map (Call.offer data) ++ [⟨data, .mkdirAll, s.content :: data :: s.beside⟩] }

def State.advance (s : State) (i : Nat) (c : Call) (p : WritePhase) : State :=
  { s with calls := s.calls.set i { c with phase := p } }

/-- A write of `chunk` at offset `w`; the file may have been truncated meanwhile. -/
def writeAt (content : Bytes) (w : Nat) (chunk : Bytes) : Bytes :=
  content.take w ++ List.replicate (w - content.length) 0 ++ chunk ++
    content.drop (w + chunk.length)

inductive Act
  | writeFile (data : Bytes)
  | mkdirAll (i : Nat) (ok : Bool)
  | open (i : Nat) (ok : Bool)
  | write (i n : Nat)
  | writeFails (i : Nat)
  | written (i : Nat)
  | close (i : Nat) (ok : Bool)
  | sync (i : Nat) (ok : Bool)
  | readFile
  | gitAdd
  | read (i n : Nat)
  | readFails (i : Nat)
  | eof (i : Nat)
  | commit

def step (fsyncWrites : Bool) (s : State) : Act → Option State
  | .writeFile data => some (s.begin data)
  | .mkdirAll i ok =>
    match s.calls[i]? with
    | some c@⟨_, .mkdirAll, _⟩ => some (s.advance i c (if ok then .open else .returned true))
    | _ => none
  | .open i ok =>
    match s.calls[i]? with
    | some c@⟨_, .open, _⟩ =>
      if ok then some { s.advance i c (.write 0) with content := [] }
      else some (s.advance i c (.returned true))
    | _ => none
  | .write i n =>
    match s.calls[i]? with
    | some c@⟨data, .write w, _⟩ =>
      if 0 < n ∧ w + n ≤ data.length then
        some { s.advance i c (.write (w + n)) with
          content := writeAt s.content w ((data.drop w).take n) }
      else none
    | _ => none
  | .writeFails i =>
    match s.calls[i]? with
    | some c@⟨_, .write _, _⟩ => some (s.advance i c (.close true))
    | _ => none
  | .written i =>
    match s.calls[i]? with
    | some c@⟨data, .write w, _⟩ =>
      if w = data.length then some (s.advance i c (.close false)) else none
    | _ => none
  | .close i ok =>
    match s.calls[i]? with
    | some c@⟨_, .close failed, _⟩ =>
      some (s.advance i c (if failed || !ok then .returned true
        else if fsyncWrites then .sync else .returned false))
    | _ => none
  | .sync i ok =>
    match s.calls[i]? with
    | some c@⟨_, .sync, _⟩ => some (s.advance i c (.returned !ok))
    | _ => none
  | .readFile => some { s with reads := s.reads ++ [.reading false []] }
  | .gitAdd => some { s with reads := s.reads ++ [.reading true []] }
  | .read i n =>
    match s.reads[i]? with
    | some (.reading add d) =>
      some { s with reads := s.reads.set i (.reading add (d ++ (s.content.drop d.length).take n)) }
    | _ => none
  | .readFails i =>
    match s.reads[i]? with
    | some (.reading _ _) => some { s with reads := s.reads.set i .failed }
    | _ => none
  | .eof i =>
    match s.reads[i]? with
    | some (.reading add d) =>
      if s.content.length ≤ d.length then
        some { s with reads := s.reads.set i (.done d), index := if add then d else s.index }
      else none
    | _ => none
  | .commit => some { s with head := s.index }

def machine (fsyncWrites : Bool) : Machine State Act where
  init s := s.calls = [] ∧ s.reads = [] ∧ s.content ∈ s.before ∧ s.index ∈ s.before ∧
    s.head ∈ s.before
  step := step fsyncWrites

/-! ### Old or new -/

/-- Since a call began, the file holds what the call found, its data, or the data of a call
that ran beside it or began later: the old or the new content where no other call did. -/
def State.whole (s : State) : Prop := ∀ c ∈ s.calls, s.content ∈ c.offered

/-- What has been read, staged and committed are complete versions. -/
def State.readsWhole (s : State) : Prop :=
  s.index ∈ s.versions ∧ s.head ∈ s.versions ∧ ∀ d, .done d ∈ s.reads → d ∈ s.versions

/-- The file is truncated only where empty is a version to write or to replace, and one write
takes all the data and covers what the file holds. -/
def wholeWrites (s : State) : Act → Prop
  | .open _ true => [] ∈ s.content :: s.beside
  | .write i n => ∀ c ∈ s.calls[i]?, n = c.data.length ∧ s.content.length ≤ n
  | _ => True

/-- A reader has not begun, or is at the end of the file and of what it will hold. -/
def Read.apart (s : State) (size : Nat) : Read → Prop
  | .reading _ d => d = [] ∨ s.content.length ≤ d.length ∧ size ≤ d.length
  | _ => True

/-- No reader is inside the file when it changes. -/
def apartReads (s : State) : Act → Prop
  | .open _ true => ∀ r ∈ s.reads, r.apart s 0
  | .write _ n => ∀ r ∈ s.reads, r.apart s n
  | _ => True

def wholeApart (s : State) (a : Act) : Prop := wholeWrites s a ∧ apartReads s a

/-! ### What a step does -/

inductive Effect (s : State) : Act → State → Prop
  | begin (data : Bytes) : Effect s (.writeFile data) (s.begin data)
  | advance {a : Act} {i : Nat} {c : Call} (p : WritePhase) : s.calls[i]? = some c →
      c.phase.running → Effect s a (s.advance i c p)
  | truncate {i : Nat} {c : Call} (p : WritePhase) : s.calls[i]? = some c → c.phase.running →
      Effect s (.open i true) { s.advance i c p with content := [] }
  | write {i n w : Nat} {c : Call} (p : WritePhase) : s.calls[i]? = some c → c.phase.running →
      w + n ≤ c.data.length → Effect s (.write i n) { s.advance i c p with
        content := writeAt s.content w ((c.data.drop w).take n) }
  | opens {a : Act} (add : Bool) : Effect s a { s with reads := s.reads ++ [.reading add []] }
  | read {a : Act} {i : Nat} {add : Bool} {d : Bytes} (n : Nat) :
      s.reads[i]? = some (.reading add d) → Effect s a { s with
        reads := s.reads.set i (.reading add (d ++ (s.content.drop d.length).take n)) }
  | readFails {a : Act} (i : Nat) : Effect s a { s with reads := s.reads.set i .failed }
  | eof {a : Act} {i : Nat} {add : Bool} {d : Bytes} : s.reads[i]? = some (.reading add d) →
      s.content.length ≤ d.length → Effect s a { s with
        reads := s.reads.set i (.done d), index := if add then d else s.index }
  | commit {a : Act} : Effect s a { s with head := s.index }

theorem step_effect {fsyncWrites : Bool} {s t : State} {a : Act}
    (h : step fsyncWrites s a = some t) : Effect s a t := by
  cases a with
  | writeFile data =>
    cases h
    exact .begin data
  | mkdirAll i ok | sync i ok | close i ok | writeFails i =>
    simp only [step] at h
    split at h
    · rename_i hc
      cases h
      exact .advance _ hc rfl
    · cases h
  | «open» i ok =>
    simp only [step] at h
    split at h
    · rename_i hc
      cases ok with
      | true =>
        cases h
        exact .truncate _ hc rfl
      | false =>
        cases h
        exact .advance _ hc rfl
    · cases h
  | write i n =>
    simp only [step] at h
    split at h
    · rename_i hc
      split at h
      · rename_i hn
        cases h
        exact .write _ hc rfl hn.2
      · cases h
    · cases h
  | written i =>
    simp only [step] at h
    split at h
    · rename_i hc
      split at h
      · cases h
        exact .advance _ hc rfl
      · cases h
    · cases h
  | readFile | gitAdd =>
    cases h
    exact .opens _
  | read i n =>
    simp only [step] at h
    split at h
    · rename_i hr
      cases h
      exact .read n hr
    · cases h
  | readFails i =>
    simp only [step] at h
    split at h
    · cases h
      exact .readFails i
    · cases h
  | eof i =>
    simp only [step] at h
    split at h
    · rename_i hr
      split at h
      · rename_i hd
        cases h
        exact .eof hr hd
      · cases h
    · cases h
  | commit =>
    cases h
    exact .commit

theorem mem_advance {s : State} {i : Nat} {c c' : Call} {p : WritePhase}
    (hc : s.calls[i]? = some c) (hc' : c' ∈ (s.advance i c p).calls) :
    ∃ b ∈ s.calls, c'.data = b.data ∧ c'.offered = b.offered ∧
      (c.phase.running → c'.phase.running → b.phase.running) := by
  rcases List.mem_or_eq_of_mem_set hc' with hc' | rfl
  · exact ⟨c', hc', rfl, rfl, fun _ h => h⟩
  · exact ⟨c, List.mem_of_getElem? hc, rfl, rfl, fun h _ => h⟩

theorem advance_versions {s : State} {i : Nat} {c : Call} (p : WritePhase)
    (hc : s.calls[i]? = some c) : (s.advance i c p).versions = s.versions := by
  have hd : (s.calls.map Call.data)[i]? = some c.data := by rw [List.getElem?_map, hc]; rfl
  have hset : (s.calls.set i { c with phase := p }).map Call.data = s.calls.map Call.data := by
    rw [List.map_set]
    apply List.ext_getElem?
    intro j
    rw [List.getElem?_set]
    split
    · rename_i hij
      subst hij
      rw [hd, if_pos (by simpa using (List.getElem?_eq_some_iff.mp hc).1)]
    · rfl
  simp only [State.versions, State.advance, hset]

theorem begin_versions (s : State) (data : Bytes) :
    (s.begin data).versions = s.versions ++ [data] := by
  simp [State.versions, State.begin, Function.comp_def, Call.offer]

theorem mem_beside {s : State} {v : Bytes} :
    v ∈ s.beside ↔ ∃ c ∈ s.calls, c.phase.running ∧ c.data = v := by
  simp only [State.beside, List.mem_map, List.mem_filter, and_assoc]

theorem mem_versions {s : State} {c : Call} (hc : c ∈ s.calls) : c.data ∈ s.versions :=
  List.mem_append_right _ (List.mem_map_of_mem hc)

/-- A write that takes all the data and covers the file leaves the data. -/
theorem writeAt_all {content data : Bytes} {w n : Nat} (hw : w + n ≤ data.length)
    (hn : n = data.length) (hc : content.length ≤ n) :
    writeAt content w ((data.drop w).take n) = data := by
  obtain rfl : w = 0 := by omega
  subst hn
  simp [writeAt, List.drop_eq_nil_of_le hc]

/-- What a running call writes is offered to every call. -/
def Offers (s : State) : Prop := ∀ v ∈ s.beside, ∀ c ∈ s.calls, v ∈ c.offered

theorem Offers.begin {s : State} (h : Offers s) (data : Bytes) : Offers (s.begin data) := by
  intro v hv c hc
  have hv : v ∈ data :: s.beside := by
    obtain ⟨b, hb, hr, rfl⟩ := mem_beside.mp hv
    rcases List.mem_append.mp hb with hb | hb
    · obtain ⟨b₀, hb₀, rfl⟩ := List.mem_map.mp hb
      exact List.mem_cons_of_mem _ (mem_beside.mpr ⟨b₀, hb₀, hr, rfl⟩)
    · cases List.mem_singleton.mp hb
      exact List.mem_cons_self
  rcases List.mem_append.mp hc with hc | hc
  · obtain ⟨c₀, hc₀, rfl⟩ := List.mem_map.mp hc
    rcases List.mem_cons.mp hv with rfl | hv
    · exact List.mem_cons_self
    · exact List.mem_cons_of_mem _ (h v hv c₀ hc₀)
  · cases List.mem_singleton.mp hc
    exact List.mem_cons_of_mem _ hv

theorem Offers.advance {s : State} {i : Nat} {c : Call} (h : Offers s) (p : WritePhase)
    (hc : s.calls[i]? = some c) (hr : c.phase.running) : Offers (s.advance i c p) := by
  intro v hv c' hc'
  obtain ⟨a, ha, har, rfl⟩ := mem_beside.mp hv
  obtain ⟨b, hb, hd, -, hbr⟩ := mem_advance hc ha
  obtain ⟨b', hb', -, ho, -⟩ := mem_advance hc hc'
  rw [hd, ho]
  exact h _ (mem_beside.mpr ⟨b, hb, hbr hr har, rfl⟩) b' hb'

/-- What a file holds that is or may become some call's version is whole and complete. -/
structure Kept (s : State) : Prop where
  offers : Offers s
  whole : s.whole
  complete : s.content ∈ s.versions

theorem Kept.begin {s : State} (h : Kept s) (data : Bytes) : Kept (s.begin data) := by
  refine ⟨h.offers.begin data, ?_, ?_⟩
  · intro c hc
    rcases List.mem_append.mp hc with hc | hc
    · obtain ⟨c₀, hc₀, rfl⟩ := List.mem_map.mp hc
      exact List.mem_cons_of_mem _ (h.whole c₀ hc₀)
    · cases List.mem_singleton.mp hc
      exact List.mem_cons_self
  · rw [begin_versions]
    exact List.mem_append_left _ h.complete

/-- A call goes on, and the file then holds what it held or what a running call writes. -/
theorem Kept.advance {s : State} {i : Nat} {c : Call} {content : Bytes} (h : Kept s)
    (p : WritePhase) (hc : s.calls[i]? = some c) (hr : c.phase.running)
    (hcontent : content ∈ s.content :: s.beside) :
    Kept { s.advance i c p with content := content } := by
  refine ⟨h.offers.advance p hc hr, ?_, ?_⟩
  · intro c' hc'
    obtain ⟨b, hb, -, ho, -⟩ := mem_advance hc hc'
    rw [ho]
    rcases List.mem_cons.mp hcontent with rfl | hv
    · exact h.whole b hb
    · exact h.offers _ hv b hb
  · have hmem : content ∈ s.versions := by
      rcases List.mem_cons.mp hcontent with rfl | hv
      · exact h.complete
      · obtain ⟨b, hb, -, rfl⟩ := mem_beside.mp hv
        exact mem_versions hb
    rwa [← advance_versions p hc] at hmem

theorem Kept.step {fsyncWrites : Bool} {s t : State} {a : Act} (h : Kept s)
    (hg : wholeWrites s a) (hs : step fsyncWrites s a = some t) : Kept t := by
  cases step_effect hs with
  | begin data => exact h.begin data
  | advance p hc hr => exact h.advance p hc hr List.mem_cons_self
  | truncate p hc hr => exact h.advance p hc hr hg
  | write p hc hr hw =>
    obtain ⟨hn, hlen⟩ := hg _ hc
    refine h.advance p hc hr (List.mem_cons_of_mem _ ?_)
    rw [writeAt_all hw hn hlen]
    exact mem_beside.mpr ⟨_, List.mem_of_getElem? hc, hr, rfl⟩
  | opens | read | readFails | eof | commit => exact ⟨h.offers, h.whole, h.complete⟩

theorem kept_init {fsyncWrites : Bool} {s : State} (h : (machine fsyncWrites).init s) : Kept s := by
  obtain ⟨hc, -, hcontent, -⟩ := h
  refine ⟨?_, ?_, List.mem_append_left _ hcontent⟩
  · intro v _ c hmem
    rw [hc] at hmem
    cases hmem
  · intro c hmem
    rw [hc] at hmem
    cases hmem

/-! ### Readers -/

/-- What has been read so far is the beginning of the file, or a version at least as long. -/
def Read.fits (s : State) : Read → Prop
  | .reading _ d => d <+: s.content ∨ d ∈ s.versions ∧ s.content.length ≤ d.length
  | .done d => d ∈ s.versions
  | .failed => True

structure Fits (s : State) : Prop where
  index : s.index ∈ s.versions
  head : s.head ∈ s.versions
  reads : ∀ r ∈ s.reads, r.fits s

/-- What does not touch the readers keeps what they have read, where the file stays or they
are apart. -/
theorem Fits.mono {s t : State} (h : Fits s) (hk : Kept s) (hv : ∀ v ∈ s.versions, v ∈ t.versions)
    (hindex : t.index = s.index) (hhead : t.head = s.head) (hreads : t.reads = s.reads)
    (hcontent : t.content = s.content ∨ ∀ r ∈ s.reads, r.apart s t.content.length) : Fits t := by
  refine ⟨by rw [hindex]; exact hv _ h.index, by rw [hhead]; exact hv _ h.head, ?_⟩
  intro r hr
  rw [hreads] at hr
  have hf := h.reads r hr
  cases r with
  | done d => exact hv _ hf
  | failed => trivial
  | reading add d =>
    rcases hcontent with hcontent | hcontent
    · simp only [Read.fits, hcontent]
      exact hf.imp_right fun hf => ⟨hv _ hf.1, hf.2⟩
    · rcases hcontent _ hr with rfl | ⟨hlen, hsize⟩
      · exact .inl List.nil_prefix
      · refine .inr ⟨hv _ ?_, hsize⟩
        rcases hf with hf | hf
        · rw [hf.eq_of_length (by have := hf.length_le; omega)]
          exact hk.complete
        · exact hf.1

theorem Fits.read {s : State} (h : Fits s) {i n : Nat} {add : Bool} {d : Bytes}
    (hr : s.reads[i]? = some (.reading add d)) : Fits { s with
      reads := s.reads.set i (.reading add (d ++ (s.content.drop d.length).take n)) } := by
  refine ⟨h.index, h.head, fun r hmem => ?_⟩
  rcases List.mem_or_eq_of_mem_set hmem with hmem | rfl
  · exact h.reads r hmem
  · rcases h.reads _ (List.mem_of_getElem? hr) with hf | ⟨hv, hlen⟩
    · refine .inl ?_
      obtain ⟨rest, hrest⟩ := hf
      rw [← hrest, List.drop_left]
      exact (List.prefix_append_right_inj d).mpr (List.take_prefix n rest)
    · refine .inr ?_
      rw [List.drop_eq_nil_of_le hlen, List.take_nil, List.append_nil]
      exact ⟨hv, hlen⟩

theorem Fits.eof {s : State} (h : Fits s) (hk : Kept s) {i : Nat} {add : Bool} {d : Bytes}
    (hr : s.reads[i]? = some (.reading add d)) (hlen : s.content.length ≤ d.length) :
    Fits { s with reads := s.reads.set i (.done d), index := if add then d else s.index } := by
  have hd : d ∈ s.versions := by
    rcases h.reads _ (List.mem_of_getElem? hr) with hf | hf
    · rw [hf.eq_of_length (by have := hf.length_le; omega)]
      exact hk.complete
    · exact hf.1
  refine ⟨?_, h.head, fun r hmem => ?_⟩
  · cases add with
    | true => exact hd
    | false => exact h.index
  · rcases List.mem_or_eq_of_mem_set hmem with hmem | rfl
    · exact h.reads r hmem
    · exact hd

theorem Fits.step {fsyncWrites : Bool} {s t : State} {a : Act} (h : Fits s) (hk : Kept s)
    (hg : wholeApart s a) (hs : step fsyncWrites s a = some t) : Fits t := by
  cases step_effect hs with
  | begin data =>
    refine h.mono hk (fun v hv => ?_) rfl rfl rfl (.inl rfl)
    rw [begin_versions]
    exact List.mem_append_left _ hv
  | advance p hc =>
    exact h.mono hk (fun v hv => (advance_versions p hc).symm ▸ hv) rfl rfl rfl (.inl rfl)
  | truncate p hc =>
    exact h.mono hk (fun v hv => (advance_versions p hc).symm ▸ hv) rfl rfl rfl (.inr hg.2)
  | write p hc hr hw =>
    obtain ⟨hn, hlen⟩ := hg.1 _ hc
    refine h.mono hk (fun v hv => (advance_versions p hc).symm ▸ hv) rfl rfl rfl (.inr ?_)
    simp only [writeAt_all hw hn hlen, ← hn]
    exact hg.2
  | opens add =>
    refine ⟨h.index, h.head, fun r hr => ?_⟩
    rcases List.mem_append.mp hr with hr | hr
    · exact h.reads r hr
    · cases List.mem_singleton.mp hr
      exact .inl List.nil_prefix
  | read n hr => exact h.read hr
  | readFails i =>
    refine ⟨h.index, h.head, fun r hr => ?_⟩
    rcases List.mem_or_eq_of_mem_set hr with hr | rfl
    · exact h.reads r hr
    · trivial
  | eof hr hlen => exact h.eof hk hr hlen
  | commit => exact ⟨h.index, h.index, h.reads⟩

theorem fits_init {fsyncWrites : Bool} {s : State} (h : (machine fsyncWrites).init s) : Fits s := by
  obtain ⟨-, hr, -, hindex, hhead⟩ := h
  refine ⟨List.mem_append_left _ hindex, List.mem_append_left _ hhead, fun r hmem => ?_⟩
  rw [hr] at hmem
  cases hmem

theorem kept {fsyncWrites : Bool} {s : State} (h : (machine fsyncWrites).ReachVia wholeWrites s) :
    Kept s :=
  h.invariant (fun _ hi => kept_init hi) fun _ _ _ hk hg hs => hk.step hg hs

theorem fits {fsyncWrites : Bool} {s : State} (h : (machine fsyncWrites).ReachVia wholeApart s) :
    Fits s := by
  induction h with
  | init hi => exact fits_init hi
  | step hr hg hs ih => exact ih.step (kept (hr.mono fun _ _ hg => hg.1)) hg hs

/-- Where the file is truncated only when that loses nothing and one write takes all the data,
it holds at every moment the old or the new content. Where besides no reader is inside the
file when it changes, only complete versions are read, staged and committed. -/
theorem writeFile_whole {fsyncWrites : Bool} {s : State} :
    ((machine fsyncWrites).ReachVia wholeWrites s → s.whole) ∧
      ((machine fsyncWrites).ReachVia wholeApart s → s.readsWhole) := by
  refine ⟨fun h => (kept h).whole, fun h => ?_⟩
  exact ⟨(fits h).index, (fits h).head, fun d hd => (fits h).reads _ hd⟩

/-! ### Runs -/

def file (content : Bytes) : State := ⟨content, content, content, [], [], [content]⟩

theorem file_init (fsyncWrites : Bool) (content : Bytes) :
    (machine fsyncWrites).init (file content) :=
  ⟨rfl, rfl, List.mem_singleton_self _, List.mem_singleton_self _, List.mem_singleton_self _⟩

instance (s : State) : Decidable s.whole :=
  inferInstanceAs (Decidable (∀ c ∈ s.calls, s.content ∈ c.offered))

instance (s : State) (size : Nat) (r : Read) : Decidable (r.apart s size) := by
  unfold Read.apart
  split <;> infer_instance

instance (s : State) (a : Act) : Decidable (wholeApart s a) := by
  unfold wholeApart wholeWrites apartReads
  cases a with
  | «open» i ok => cases ok <;> infer_instance
  | write i n => infer_instance
  | _ => infer_instance

/-- An empty file is written, read, staged and committed. -/
def firstWrite : List Act :=
  [.writeFile (utf8 "new"), .readFile, .mkdirAll 0 true, .open 0 true, .write 0 3, .written 0,
    .close 0 true, .read 0 3, .eof 0, .gitAdd, .read 1 2, .read 1 2, .eof 1, .commit, .sync 0 true]

theorem writeFile_whole_empty : ∃ s : State, (s.whole ∧ s.readsWhole) ∧ s.head = utf8 "new" := by
  have hrun : ((machine true).runVia wholeApart (file []) firstWrite).any
      (fun s => s.head = utf8 "new") = true := by decide +kernel
  obtain ⟨s, hs, hp⟩ := Machine.ReachVia.run_any firstWrite (.init (file_init true [])) hrun
  refine ⟨s, ⟨writeFile_whole.1 (hs.mono fun _ _ h => h.1), writeFile_whole.2 hs⟩, ?_⟩
  exact of_decide_eq_true hp

/-- The disk is full after one byte, and a flush stages and commits what is there. -/
def fullDisk : List Act :=
  [.writeFile (utf8 "new"), .mkdirAll 0 true, .open 0 true, .readFile, .eof 0, .write 0 1,
    .writeFails 0, .close 0 true, .gitAdd, .read 1 1, .eof 1, .commit]

def torn : State :=
  ⟨utf8 "n", utf8 "n", utf8 "n", [⟨utf8 "new", .returned true, [utf8 "old", utf8 "new"]⟩],
    [.done [], .done (utf8 "n")], [utf8 "old"]⟩

theorem writeFile_tears :
    ¬ (∀ (fsyncWrites : Bool) s, (machine fsyncWrites).Reach s → s.whole) ∧
      ¬ ∀ (fsyncWrites : Bool) s, (machine fsyncWrites).Reach s → s.readsWhole := by
  have hrun : (machine true).run (file (utf8 "old")) fullDisk = some torn := by decide +kernel
  have hs : (machine true).Reach torn := .run fullDisk (.init (file_init true _)) hrun
  refine ⟨fun h => ?_, fun h => ?_⟩
  · exact absurd (h true torn hs) (by decide +kernel)
  · exact absurd (h true torn hs).2.1 (by decide +kernel)

end Mdock.Vault.Writing
