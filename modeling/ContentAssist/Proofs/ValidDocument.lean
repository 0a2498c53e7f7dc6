/-
# ContentAssist.Proofs.ValidDocument -- valid documents replay cleanly

What a valid document is can be said without replaying anything: the root is a global
element, and the children of every element are a word of the content of the type it takes
on (`Valid`).  A document may be written in many ways: with any white space inside tags,
text and instructions between them, childless elements closed at once or apart
(`Writes`, `Serialises`).

Under mild conditions on the schema (`Regular`) every way of writing a valid document is
followed to its end, agrees with the schema and leaves nothing open, and every beginning
of it is clean (`valid_documents_replay_cleanly`).  The conditions are about names, since
replay finds declarations by name, and about minimums: replay never goes back, so a
sequence that repeats asks for no particle twice, and its counters are 32 bits wide, so no
minimum is larger than that.

The proof goes along the text.  Between tags a reading is `Ready`: it agrees so far and
has a known stack.  Pieces between elements keep it ready, an element with its content
brings it back to the stack it began with (`Encloses.reads`), and the content of an
element takes its progress along the word of its children (`Writes.tracks`).
-/
import ContentAssist.Proofs.Derivation
import ContentAssist.Proofs.Greedy
import ContentAssist.Proofs.PrefixClosed

namespace ContentAssist

set_option autoImplicit false

open Markup Schema Replay

/-! ## Valid documents -/

/-- Elements in order, each with its attributes as they are given and its children. -/
inductive Forest where
  | nil
  | element (name : String) (attributes : List (String × String)) (children rest : Forest)
  deriving DecidableEq, Repr, Inhabited

/-- The names of the elements, without their children. -/
def Forest.names : Forest → List String
  | nil => []
  | element name _ _ rest => name :: rest.names

/-- The value of an attribute; the last one counts. -/
def lastValue? (attributes : List (String × String)) (name : String) : Option String :=
  attributes.reverse.lookup name

/-- The elements that the content of a type refers to. -/
def candidatesOf (schema : Schema) (type : TypeId) : List ElementId :=
  ((schema.content? type).bind Content.candidates?).getD []

/-- Each element is one of the candidates, and its children are a word of the content of
its type and valid themselves. -/
def Valid (schema : Schema) : List ElementId → Forest → Prop
  | _, .nil => True
  | candidates, .element name attributes children rest =>
      (∃ id ∈ candidates, ∃ decl type,
        schema.element? id = some decl ∧ decl.name = name ∧
        HasType schema decl.type (lastValue? attributes typeAttribute) type ∧
        IsWord schema (schema.content? type) children.names ∧
        Valid schema (candidatesOf schema type) children) ∧
      Valid schema candidates rest

/-- Names say which declaration is meant, and matching never has to go back. -/
structure Regular (schema : Schema) : Prop where
  globals : ∀ first ∈ schema.globalElements, ∀ second ∈ schema.globalElements,
    first.2.name = second.2.name → first.1 = second.1
  types : (schema.types.filterMap TypeDef.name).Nodup
  distinct : ∀ content ∈ schema.contents, Distinct schema content
  loose : ∀ content ∈ schema.contents, Loose content
  reachable : ∀ content ∈ schema.contents, Reachable content

instance (schema : Schema) : Decidable (Regular schema) :=
  decidable_of_iff
    ((∀ first ∈ schema.globalElements, ∀ second ∈ schema.globalElements,
        first.2.name = second.2.name → first.1 = second.1) ∧
      (schema.types.filterMap TypeDef.name).Nodup ∧
      (∀ content ∈ schema.contents, Distinct schema content) ∧
      (∀ content ∈ schema.contents, Loose content) ∧
      ∀ content ∈ schema.contents, Reachable content)
    ⟨fun ⟨globals, types, distinct, loose, reachable⟩ =>
        ⟨globals, types, distinct, loose, reachable⟩,
      fun ⟨globals, types, distinct, loose, reachable⟩ =>
        ⟨globals, types, distinct, loose, reachable⟩⟩

/-! ## Written documents -/

/-- What may stand between tags. -/
inductive Piece where
  | text (cs : List Char)
  | instruction (body : List Char)
  deriving DecidableEq, Repr, Inhabited

namespace Piece

def chars : Piece → List Char
  | text cs => cs
  | instruction body => '<' :: '?' :: (body ++ ['?', '>'])

/-- Text holds no bracket, and an instruction is not closed before its end. -/
def Valid : Piece → Prop
  | text cs => '<' ∉ cs
  | instruction body => ¬ ['?', '>'] <:+: '?' :: body

/-- Nothing but blanks and instructions stands before the root element. -/
def Outer : Piece → Prop
  | text cs => ∀ c ∈ cs, Text.isBlank c = true
  | instruction _ => True

instance : DecidablePred Valid
  | text cs => inferInstanceAs (Decidable ('<' ∉ cs))
  | instruction body => inferInstanceAs (Decidable (¬ ['?', '>'] <:+: '?' :: body))

instance : DecidablePred Outer
  | text cs => inferInstanceAs (Decidable (∀ c ∈ cs, Text.isBlank c = true))
  | instruction _ => inferInstanceAs (Decidable True)

end Piece

/-- The attributes of a written tag as they are given. -/
def Markup.WrittenTag.given (tag : WrittenTag) : List (String × String) :=
  tag.attributes.map fun written => (written.name, written.value)

/-- An element as it is written around its content: with two tags, or with one that closes
itself. -/
inductive Encloses (tag : WrittenTag) : (inner whole : List Char) → Prop where
  | apart (opens : tag.selfClosing = false) (inner gap : List Char)
      (spaces : ∀ c ∈ gap, Text.isSpace c = true) :
      Encloses tag inner
        ('<' :: (tag.chars ++ (inner ++ ('<' :: '/' :: (tag.name.toList ++ (gap ++ ['>']))))))
  | atOnce (closes : tag.selfClosing = true) : Encloses tag [] ('<' :: tag.chars)

/-- The elements are written like this, with anything between them. -/
inductive Writes : Forest → List Char → Prop where
  | nil : Writes .nil []
  | piece {forest : Forest} {cs : List Char} (piece : Piece) (valid : piece.Valid)
      (rest : Writes forest cs) : Writes forest (piece.chars ++ cs)
  | element {children rest : Forest} {inner whole cs : List Char} (tag : WrittenTag)
      (valid : tag.Valid) (content : Writes children inner) (around : Encloses tag inner whole)
      (after : Writes rest cs) :
      Writes (.element tag.name tag.given children rest) (whole ++ cs)

/-- A document: one element, after blanks and instructions, with nothing like an element
after it. -/
inductive Serialises : Forest → String → Prop where
  | document {children : Forest} {inner whole : List Char} {text : String}
      (before after : List Piece)
      (outer : ∀ piece ∈ before, piece.Valid ∧ piece.Outer) (late : ∀ piece ∈ after, piece.Valid)
      (tag : WrittenTag) (valid : tag.Valid) (content : Writes children inner)
      (around : Encloses tag inner whole)
      (written : text.toList =
        before.flatMap Piece.chars ++ (whole ++ after.flatMap Piece.chars)) :
      Serialises (.element tag.name tag.given children .nil) text

/-! ## Readings between tags -/

/-- Inside the document, with these elements open. -/
structure Inside (replay : Replay) (stack : List OpenElement) : Prop where
  agrees : replay.Agrees
  started : replay.started = true
  stack_eq : replay.stack = stack

/-- A reading between tags, with these elements open. -/
structure Ready (reading : Reading) (stack : List OpenElement) : Prop where
  outside : reading.mode.Outside
  inside : Inside reading.closed stack

section Readings

variable (schema : Schema) {reading : Reading} {stack : List OpenElement}

/-- The text before a tag is followed and changes nothing. -/
theorem Ready.pending (ready : Ready reading stack) :
    Inside (runClosed schema reading.closed reading.mode.pending?.toList) stack := by
  obtain ⟨mode, replay⟩ := reading
  obtain ⟨outside, agrees, started, stack_eq⟩ := ready
  cases mode with
  | fresh => exact ⟨agrees, started, stack_eq⟩
  | content => exact ⟨agrees, started, stack_eq⟩
  | text typed =>
      have step := step_text_inside agrees schema started (spell typed) .inText
      simp only [Mode.pending?, Option.toList_some, runClosed_cons, runClosed_nil, step]
      exact ⟨(agrees_iff _).mpr ⟨agrees.stopped, agrees.fault⟩, started, stack_eq⟩
  | _ => exact outside.elim

/-- A bracket and the markup that follows it. -/
theorem read_markup (outside : reading.mode.Outside) {cs : List Char} {events : List Event}
    {next : Mode} (reads : Reads .opened cs events next) :
    reading.read schema ('<' :: cs) =
      { mode := next
        closed := runClosed schema
          (runClosed schema reading.closed reading.mode.pending?.toList) events } := by
  have all := (reads_bracket outside).append reads
  rw [show '<' :: cs = ['<'] ++ cs from rfl, Reading.read_of_reads all, runClosed_append]

theorem read_text (outside : reading.mode.Outside) {cs : List Char} (free : '<' ∉ cs) :
    (reading.read schema cs).closed = reading.closed ∧
      (reading.read schema cs).mode.Outside ∧
      ∀ c ∈ (reading.read schema cs).mode.typedText, c ∈ cs ∨ c ∈ reading.mode.typedText := by
  by_cases empty : cs = []
  · subst empty
    exact ⟨rfl, outside, fun c typed => .inr typed⟩
  · rw [Reading.read_of_reads (reads_text outside free empty)]
    refine ⟨rfl, trivial, fun c typed => ?_⟩
    simpa [Mode.typedText] using typed

/-- Whatever stands between tags leaves the open elements alone. -/
theorem Ready.piece (ready : Ready reading stack) {piece : Piece} (valid : piece.Valid) :
    Ready (reading.read schema piece.chars) stack := by
  cases piece with
  | text cs =>
      obtain ⟨closed, outside, -⟩ := read_text schema ready.outside valid
      refine ⟨outside, ?_⟩
      rw [Piece.chars, closed]
      exact ready.inside
  | instruction body =>
      have pending := ready.pending schema
      rw [Piece.chars, read_markup schema ready.outside (reads_instruction valid)]
      refine ⟨trivial, ?_⟩
      rw [runClosed_cons, runClosed_nil, step_of_insignificant pending.agrees.stopped schema rfl]
      exact ⟨(agrees_iff _).mpr ⟨pending.agrees.stopped, pending.agrees.fault⟩,
        pending.started, pending.stack_eq⟩

theorem Ready.pieces (ready : Ready reading stack) {pieces : List Piece}
    (valid : ∀ piece ∈ pieces, piece.Valid) :
    Ready (reading.read schema (pieces.flatMap Piece.chars)) stack := by
  induction pieces generalizing reading with
  | nil => exact ready
  | cons piece rest ih =>
      rw [List.flatMap_cons, Reading.read_append]
      exact ih (ready.piece schema (valid piece List.mem_cons_self))
        (fun other listed => valid other (List.mem_cons_of_mem piece listed))

/-- Before the root element: nothing but blanks and instructions has come. -/
structure Before (replay : Replay) : Prop where
  agrees : replay.Agrees
  early : replay.started = false
  empty : replay.stack = []

/-- A reading before the root element. -/
structure Unbegun (reading : Reading) : Prop where
  outside : reading.mode.Outside
  blank : ∀ c ∈ reading.mode.typedText, Text.isBlank c = true
  before : Before reading.closed

theorem Unbegun.pending (unbegun : Unbegun reading) :
    Before (runClosed schema reading.closed reading.mode.pending?.toList) := by
  obtain ⟨mode, replay⟩ := reading
  obtain ⟨outside, blank, agrees, early, empty⟩ := unbegun
  cases mode with
  | fresh => exact ⟨agrees, early, empty⟩
  | content => exact ⟨agrees, early, empty⟩
  | text typed =>
      have insignificant : (Event.text (spell typed)).isInsignificant = true := by
        rw [Event.isInsignificant, Text.isAllBlank, List.all_eq_true]
        intro c listed
        refine blank c ?_
        simpa [spell, Mode.typedText] using listed
      have step := step_of_insignificant agrees.stopped schema insignificant .inText
      simp only [Mode.pending?, Option.toList_some, runClosed_cons, runClosed_nil, step]
      exact ⟨(agrees_iff _).mpr ⟨agrees.stopped, agrees.fault⟩, early, empty⟩
  | _ => exact outside.elim

theorem Unbegun.piece (unbegun : Unbegun reading) {piece : Piece} (valid : piece.Valid)
    (outer : piece.Outer) : Unbegun (reading.read schema piece.chars) := by
  cases piece with
  | text cs =>
      obtain ⟨closed, outside, typed⟩ := read_text schema unbegun.outside valid
      refine ⟨outside, ?_, ?_⟩
      · intro c listed
        rcases typed c listed with new | old
        · exact outer c new
        · exact unbegun.blank c old
      · rw [Piece.chars, closed]
        exact unbegun.before
  | instruction body =>
      have pending := unbegun.pending schema
      rw [Piece.chars, read_markup schema unbegun.outside (reads_instruction valid)]
      refine ⟨trivial, by simp [Mode.typedText], ?_⟩
      rw [runClosed_cons, runClosed_nil, step_of_insignificant pending.agrees.stopped schema rfl]
      exact ⟨(agrees_iff _).mpr ⟨pending.agrees.stopped, pending.agrees.fault⟩,
        pending.early, pending.empty⟩

theorem Unbegun.pieces (unbegun : Unbegun reading) {pieces : List Piece}
    (outer : ∀ piece ∈ pieces, piece.Valid ∧ piece.Outer) :
    Unbegun (reading.read schema (pieces.flatMap Piece.chars)) := by
  induction pieces generalizing reading with
  | nil => exact unbegun
  | cons piece rest ih =>
      rw [List.flatMap_cons, Reading.read_append]
      obtain ⟨valid, blank⟩ := outer piece List.mem_cons_self
      exact ih (unbegun.piece schema valid blank)
        (fun other listed => outer other (List.mem_cons_of_mem piece listed))

end Readings

/-! ## Elements -/

section Elements

variable {schema : Schema} {replay : Replay} (tag : StartTag) {element : ElementId}
  {decl : ElementDecl}

/-- A child that is taken. -/
theorem Inside.child {top : OpenElement} {below : List OpenElement} {progress : Progress}
    (inside : Inside replay (top :: below))
    (taken : matchContent schema (schema.content? top.type) tag.name top.progress =
      (progress, .ok element))
    (declared : schema.element? element = some decl) :
    Inside (replay.step schema (.startTag tag) .inText)
      (if tag.selfClosing then { top with progress } :: below
        else entryOf schema replay element decl tag :: { top with progress } :: below) := by
  rw [step_startTag_inside inside.agrees inside.started inside.stack_eq taken (by simp),
    openElement_eq declared]
  exact ⟨(agrees_iff _).mpr ⟨inside.agrees.stopped, inside.agrees.fault⟩, inside.started, rfl⟩

/-- The root element. -/
theorem Before.root (before : Before replay)
    (found : schema.findGlobal? tag.name = some element)
    (declared : schema.element? element = some decl) :
    Inside (replay.step schema (.startTag tag) .inText)
      (if tag.selfClosing then [] else [entryOf schema replay element decl tag]) := by
  rw [step_startTag_root before.agrees before.early found (by simp), openElement_eq declared]
  refine ⟨(agrees_iff _).mpr ⟨before.agrees.stopped, before.agrees.fault⟩, rfl, ?_⟩
  simp only [before.empty]
  rfl

end Elements

/-- An element, read with its content, leaves the stack as it was before its tag. -/
theorem Encloses.reads {schema : Schema} {tag : WrittenTag} {inner whole : List Char}
    (around : Encloses tag inner whole) (valid : tag.Valid) {reading : Reading}
    (outside : reading.mode.Outside) {entry : OpenElement} {stack : List OpenElement}
    (named : schema.elementName? entry.element = some tag.name)
    (opened : Inside
      ((runClosed schema reading.closed reading.mode.pending?.toList).step schema
        (.startTag tag.event) .inText)
      (if tag.selfClosing then stack else entry :: stack))
    (content : ∀ reading, Ready reading (entry :: stack) →
      ∃ progress, Ready (reading.read schema inner) ({ entry with progress } :: stack)) :
    Ready (reading.read schema whole) stack := by
  have tagged := read_markup schema outside (reads_tag valid)
  rw [runClosed_cons, runClosed_nil] at tagged
  generalize (runClosed schema reading.closed reading.mode.pending?.toList).step schema
    (.startTag tag.event) .inText = replay at tagged opened
  cases around with
  | atOnce closes =>
      rw [if_pos closes] at opened
      rw [tagged]
      exact ⟨trivial, opened⟩
  | apart opens _ gap spaces =>
      rw [if_neg (by simp [opens])] at opened
      rw [← List.cons_append, Reading.read_append, Reading.read_append, tagged]
      have begun : Ready { mode := .content, closed := replay } (entry :: stack) :=
        ⟨trivial, opened⟩
      obtain ⟨progress, ready⟩ := content _ begun
      have pending := ready.pending schema
      rw [read_markup schema ready.outside (reads_endTag valid.name.plain spaces), runClosed_cons,
        runClosed_nil, step_endTag pending.agrees pending.started pending.stack_eq named]
      exact ⟨trivial, (agrees_iff _).mpr ⟨pending.agrees.stopped, pending.agrees.fault⟩,
        pending.started, rfl⟩

/-- Reading the characters takes any element that may have these children along the word of
their names. -/
def Tracks (schema : Schema) (forest : Forest) (cs : List Char) : Prop :=
  ∀ (reading : Reading) (top : OpenElement) (below : List OpenElement) (after : Progress),
    Ready reading (top :: below) → Valid schema (candidatesOf schema top.type) forest →
    Follows schema (schema.content? top.type) top.progress forest.names after →
    Ready (reading.read schema cs) ({ top with progress := after } :: below)

/-! ## From names to declarations -/

/-- The attributes that were read hold the last value given for each name. -/
theorem text?_ofList (given : List (String × String)) (name : String) :
    (Attributes.ofList (given.map fun pair => (pair.1, .value pair.2))).text? name =
      lastValue? given name := by
  induction given using List.reverseRecOn with
  | nil => rfl
  | append_singleton front pair ih =>
      obtain ⟨key, value⟩ := pair
      rw [lastValue?, List.reverse_append, List.reverse_singleton, List.singleton_append,
        List.lookup_cons, List.map_append, Attributes.ofList, List.foldl_append]
      change ((Attributes.ofList _).insert key (.value value)).text? name = _
      by_cases same : name = key
      · simp [same, Attributes.text?, AttributeValue.text?]
      · have other : (name == key) = false := beq_eq_false_iff_ne.mpr same
        rw [Attributes.text?, Attributes.get?_insert_of_ne _ _ same, other]
        exact ih

theorem completedValue?_event (tag : WrittenTag) (name : String) :
    tag.event.completedValue? name = lastValue? tag.given name := by
  rw [← text?_ofList, WrittenTag.given, List.map_map]
  rfl

/-- What content takes is one of the elements that it refers to. -/
theorem mem_candidatesOf {schema : Schema} {type : TypeId} {name : String}
    {before after : Progress} {element : ElementId}
    (taken : matchContent schema (schema.content? type) name before = (after, .ok element)) :
    element ∈ candidatesOf schema type := by
  unfold candidatesOf
  unfold matchContent at taken
  split at taken
  · rename_i group content
    rw [content]
    have offered : ∃ particle ∈ group.particles, element ∈ particle.term.elements := by
      obtain ⟨-, ⟨index, particle, takes, -⟩ | ⟨-, -, -, index, particle, takes, -⟩⟩ :=
        (matchSequence_ok_iff schema group name before after element).mp taken
      · exact ⟨particle, List.mem_of_getElem? takes.place, List.mem_of_find?_eq_some takes.found⟩
      · exact ⟨particle, List.mem_of_getElem? takes.place, List.mem_of_find?_eq_some takes.found⟩
    exact List.mem_flatMap.mpr offered
  · rename_i group content
    rw [content]
    obtain ⟨-, found, -⟩ := (matchChoice_ok_iff schema group name before after element).mp taken
    exact List.mem_of_find?_eq_some found
  · cases taken

section Schema

variable {schema : Schema} (regular : Regular schema)
include regular

/-- Within one content a name stands for one element. -/
theorem Regular.eq_of_name {type : TypeId} {first second : ElementId} {name : String}
    (one : first ∈ candidatesOf schema type) (two : second ∈ candidatesOf schema type)
    (named : schema.elementName? first = some name)
    (renamed : schema.elementName? second = some name) : first = second := by
  unfold candidatesOf at one two
  cases content : schema.content? type with
  | none =>
      rw [content] at one
      cases one
  | some known =>
      rw [content, Option.bind_some] at one two
      cases listed : known.candidates? with
      | none =>
          rw [listed] at one
          cases one
      | some candidates =>
          rw [listed, Option.getD_some] at one two
          have distinct := regular.distinct known (mem_contents_of_content? content) _ listed
          exact eq_of_mem_of_nodup_filterMap distinct one two named renamed

/-- A root element is found by its name. -/
theorem Regular.findGlobal?_eq {id : ElementId} {decl : ElementDecl} (global : id ∈ schema.globals)
    (declared : schema.element? id = some decl) :
    schema.findGlobal? decl.name = some id := by
  have listed : (id, decl) ∈ schema.globalElements :=
    List.mem_filterMap.mpr ⟨id, global, by simp [declared]⟩
  have some_found : (schema.globalElements.find? fun entry => entry.2.name == decl.name).isSome =
      true := List.find?_isSome.mpr ⟨(id, decl), listed, by simp⟩
  obtain ⟨entry, found⟩ := Option.isSome_iff_exists.mp some_found
  have named : entry.2.name = decl.name := by simpa using List.find?_some found
  have same := regular.globals entry (List.mem_of_find?_eq_some found) (id, decl) listed named
  rw [findGlobal?, found]
  exact congrArg some same

theorem Regular.follows {type : TypeId} {names : List String}
    (word : IsWord schema (schema.content? type) names) :
    ∃ after, Follows schema (schema.content? type) (Progress.start (schema.content? type))
      names after := by
  apply follows_of_isWord
  · intro known content
    exact regular.distinct known (mem_contents_of_content? content)
  · intro known content
    exact regular.loose known (mem_contents_of_content? content)
  · intro known content
    exact regular.reachable known (mem_contents_of_content? content)
  · exact word

/-! ## The whole document -/

/-- An element of the right type, with valid children, is read as a whole. -/
theorem Encloses.element {tag : WrittenTag} {inner whole : List Char} {children : Forest}
    (around : Encloses tag inner whole) (valid : tag.Valid)
    (tracks : Tracks schema children inner) {element : ElementId} {decl : ElementDecl}
    {type : TypeId} (named : schema.elementName? element = some tag.name)
    (typed : HasType schema decl.type (lastValue? tag.given typeAttribute) type)
    (word : IsWord schema (schema.content? type) children.names)
    (fits : Valid schema (candidatesOf schema type) children) {reading : Reading}
    (outside : reading.mode.Outside) {replay : Replay} {stack : List OpenElement}
    (opened : Inside
      ((runClosed schema reading.closed reading.mode.pending?.toList).step schema
        (.startTag tag.event) .inText)
      (if tag.selfClosing then stack
        else entryOf schema replay element decl tag.event :: stack)) :
    Ready (reading.read schema whole) stack := by
  have type_eq : effectiveType schema decl.type tag.event = type := by
    apply effectiveType_eq regular.types
    rw [completedValue?_event]
    exact typed
  obtain ⟨done, followed⟩ := regular.follows word
  refine around.reads valid outside named opened ?_
  intro reading begun
  refine ⟨done, tracks reading _ stack done begun ?_ ?_⟩
  · simp only [entryOf, type_eq]
    exact fits
  · simp only [entryOf, type_eq]
    exact followed

/-- **The content of an element takes it along the word of its children.** -/
theorem Writes.tracks {forest : Forest} {cs : List Char} (writes : Writes forest cs) :
    Tracks schema forest cs := by
  induction writes with
  | nil =>
      intro reading top below after ready _ follows
      cases follows
      exact ready
  | piece piece valid _ ih =>
      intro reading top below after ready fits follows
      rw [Reading.read_append]
      exact ih _ top below after (ready.piece schema valid) fits follows
  | element tag valid _ around _ ihContent ihRest =>
      intro reading top below after ready fits follows
      obtain ⟨⟨id, listed, decl, type, declared, named, typed, word, inner⟩, later⟩ := fits
      obtain ⟨middle, element, taken, onward⟩ := follows
      have name : schema.elementName? element = some tag.name :=
        elementName?_of_matchContent taken
      have meant : schema.elementName? id = some tag.name := by
        simp [elementName?, declared, named]
      obtain rfl : element = id :=
        regular.eq_of_name (mem_candidatesOf taken) listed name meant
      have opened := (ready.pending schema).child tag.event taken declared
      have closed : Ready _ ({ top with progress := middle } :: below) :=
        around.element regular valid ihContent name typed word inner ready.outside opened
      rw [Reading.read_append]
      exact ihRest _ { top with progress := middle } below after closed later onward

end Schema

/-- **Valid documents replay cleanly.**  However a valid document is written, following it
comes to the end without a disagreement and with nothing left open, and every beginning of
it is clean. -/
theorem valid_documents_replay_cleanly {schema : Schema} (regular : Regular schema)
    {tree : Forest} {text : String} (valid : Valid schema schema.globals tree)
    (written : Serialises tree text) :
    (ofText schema text).Agrees ∧ (ofText schema text).depth = 0 ∧
      ∀ front : String, front.toList <+: text.toList → IsClean schema front := by
  obtain ⟨before, after, outer, late, tag, lexical, content, around, spelled⟩ := written
  obtain ⟨⟨id, global, decl, type, declared, named, typed, word, inner⟩, -⟩ := valid
  have nothing : Unbegun ({} : Reading) := ⟨trivial, by simp [Mode.typedText], ⟨rfl, rfl⟩, rfl, rfl⟩
  have unbegun := nothing.pieces schema outer
  have found : schema.findGlobal? tag.name = some id := by
    rw [← named]
    exact regular.findGlobal?_eq global declared
  have opened := (unbegun.pending schema).root tag.event found declared
  have closed : Ready _ [] := around.element regular lexical (content.tracks regular)
    (elementName?_of_findGlobal? found) typed word inner unbegun.outside opened
  have ready := closed.pieces schema late
  rw [← Reading.read_append, ← Reading.read_append, ← spelled] at ready
  have finished := ready.pending schema
  rw [← settle_of_outside schema ready.outside, ← ofText_eq_settle] at finished
  refine ⟨finished.agrees, by simp [depth, finished.stack_eq], ?_⟩
  rintro front ⟨rest, whole⟩
  have clean : IsClean schema text := ⟨finished.agrees.1, .inl finished.agrees.2⟩
  rw [isClean_iff_read, ← whole, Reading.read_append] at clean
  exact (isClean_iff_read schema front).mpr (isClean_of_read clean)

/-- A letter of two rounds, the second of which has a stub for its note. -/
def stubLetter : Forest :=
  .element "letter" []
    (.element "greeting" [] .nil (.element "line" [] .nil (.element "greeting" [] .nil
      (.element "note" [("xsi:type", "Stub")] (.element "line" [] .nil .nil) .nil))))
    .nil

theorem valid_stubLetter : Valid letters letters.globals stubLetter := by
  -- an element of text has no children and names no type
  have plain (id : ElementId) (decl : ElementDecl) (declared : letters.element? id = some decl)
      (simple : letters.content? decl.type = none) :
      ∃ found type, letters.element? id = some found ∧ found.name = decl.name ∧
        HasType letters found.type (lastValue? [] typeAttribute) type ∧
        IsWord letters (letters.content? type) [] ∧
        Valid letters (candidatesOf letters type) .nil := by
    refine ⟨decl, decl.type, declared, rfl, .inr ⟨rfl, nofun⟩, ?_, trivial⟩
    rw [simple]
    rfl
  have stub : HasType letters 0 (lastValue? [("xsi:type", "Stub")] typeAttribute) 1 :=
    .inl ⟨"Stub", rfl, ⟨_, rfl, rfl⟩, rfl, .base rfl (.refl 0)⟩
  refine ⟨⟨0, by decide, _, 0, rfl, rfl, .inr ⟨rfl, nofun⟩, ?_, ?_⟩, trivial⟩
  · exact ⟨[[["greeting"], ["line"]], [["greeting"], ["note"]]], rfl, by decide, by decide⟩
  · refine ⟨⟨1, by decide, plain 1 _ rfl rfl⟩, ⟨2, by decide, plain 2 _ rfl rfl⟩,
      ⟨1, by decide, plain 1 _ rfl rfl⟩, ⟨3, by decide, _, 1, rfl, rfl, stub, ?_, ?_⟩, trivial⟩
    · exact ⟨by decide, by decide⟩
    · exact ⟨⟨2, by decide, plain 2 _ rfl rfl⟩, trivial⟩

theorem serialises_stubLetter :
    Serialises stubLetter ("<?go?>\n<letter><greeting/>Dear<line/><greeting ></greeting>" ++
      "<note xsi:type= 'Stub'><line/></note >\n</letter>") := by
  have line : Writes (.element "line" [] .nil .nil) _ :=
    .element { name := "line", selfClosing := true } (by decide) .nil (.atOnce rfl) .nil
  have note : Writes (.element "note" [("xsi:type", "Stub")] (.element "line" [] .nil .nil) .nil)
      _ :=
    .element
      { name := "note"
        attributes := [{ gap := [' '], name := "xsi:type", pause := [' '], quote := .single
                         value := "Stub" }] }
      (by decide) line (.apart rfl _ [' '] (by decide))
      (.piece (.text ['\n']) (by decide) .nil)
  have second : Writes (.element "greeting" [] .nil _) _ :=
    .element { name := "greeting", gap := [' '] } (by decide) .nil
      (.apart rfl _ [] (by decide)) note
  have first : Writes (.element "greeting" [] .nil (.element "line" [] .nil _)) _ :=
    .element { name := "greeting", selfClosing := true } (by decide) .nil (.atOnce rfl)
      (.piece (.text "Dear".toList) (by decide)
        (.element { name := "line", selfClosing := true } (by decide) .nil (.atOnce rfl)
          second))
  exact .document [.instruction "go".toList, .text ['\n']] [] (by decide) (by decide)
    { name := "letter" } (by decide) first (.apart rfl _ [] (by decide)) (by decide +kernel)

/-- That letter, written with an instruction, text and a name of a type; its beginning ends
within a value. -/
theorem stubLetter_replays_cleanly :
    Regular letters ∧ Valid letters letters.globals stubLetter ∧
      (ofText letters ("<?go?>\n<letter><greeting/>Dear<line/><greeting ></greeting>" ++
        "<note xsi:type= 'Stub'><line/></note >\n</letter>")).Agrees ∧
      IsClean letters ("<?go?>\n<letter><greeting/>Dear<line/><greeting ></greeting>" ++
        "<note xsi:type= 'St") := by
  have regular : Regular letters := by decide
  obtain ⟨agrees, -, clean⟩ :=
    valid_documents_replay_cleanly regular valid_stubLetter serialises_stubLetter
  exact ⟨regular, valid_stubLetter, agrees, clean _ (by decide +kernel)⟩

end ContentAssist
