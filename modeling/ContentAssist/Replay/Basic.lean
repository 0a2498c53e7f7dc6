/-
# ContentAssist.Replay.Basic -- following a document against its schema

A replay reads the tokens of a text one after the other and keeps the stack of open elements
and the document they make up.  A tag whose name is still being typed is left alone.

The first disagreement is a `Fault`, after which one may still type text.  Anything worse, or
anything significant after a fault, stops the replay for good: from there on `step` changes
nothing.
-/
import ContentAssist.Document
import ContentAssist.Markup.Lexer
import ContentAssist.Replay.Progress

namespace ContentAssist

set_option autoImplicit false

open Markup Schema Replay

namespace Replay

/-! ## Open elements -/

structure OpenElement where
  element : ElementId
  /-- Its type, after a type named on the tag has taken effect. -/
  type : TypeId
  nillable : Bool
  progress : Progress
  node : NodeId
  deriving DecidableEq, Repr, Inhabited

/-- The first disagreement between document and schema. -/
structure Fault where
  /-- The name on the tag that brought it. -/
  name : String
  reason : Reason
  deriving DecidableEq, Repr, Inhabited

/-- Why nothing more is followed. -/
inductive StopCause where
  /-- Something significant came after a fault. -/
  | afterFault
  /-- The document does not begin with a start tag. -/
  | noRoot
  | nothingToClose
  | wrongEnd (name : String)
  /-- A start tag came after the root was closed. -/
  | afterRoot
  deriving DecidableEq, Repr, Inhabited

def typeAttribute : String := "xsi:type"

end Replay

structure Replay where
  /-- Open elements, innermost first. -/
  stack : List OpenElement := []
  document : Document := {}
  fault : Option Fault := none
  stopped : Option StopCause := none
  /-- A significant event has been seen. -/
  started : Bool := false
  last : Option Event := none
  /-- The last event was the first significant one. -/
  lastIsRoot : Bool := false
  /-- Where the typing stood at the end of the last event read. -/
  caret : Caret := .atStart
  deriving DecidableEq, Repr, Inhabited

namespace Replay

def isComplete (replay : Replay) : Bool :=
  replay.stopped.isNone

def isValid (replay : Replay) : Bool :=
  replay.fault.isNone

def depth (replay : Replay) : Nat :=
  replay.stack.length

def top? (replay : Replay) : Option OpenElement :=
  replay.stack.head?

/-! ## What went wrong -/

structure Remark where
  message : String
  name : String
  reason : Option Reason := none
  deriving DecidableEq, Repr, Inhabited

/-- The remarks made on the way: the fault, or the wrong end tag. -/
def remarks (replay : Replay) : List Remark :=
  match replay.fault, replay.stopped with
  | some fault, _ => [⟨"replay invalid", fault.name, some fault.reason⟩]
  | none, some (.wrongEnd name) => [⟨"mismatched end tag", name, none⟩]
  | none, _ => []

def blame (replay : Replay) (name : String) (reason : Reason) : Replay :=
  { replay with fault := some ⟨name, reason⟩ }

def stop (replay : Replay) (cause : StopCause) : Replay :=
  { replay with stopped := some cause }

/-! ## Opening and closing -/

/-- The type of an element declared with a type: the one its completed type
attribute names, if that is a complex type derived from the declared one. -/
def effectiveType (schema : Schema) (declared : TypeId) (tag : StartTag) : TypeId :=
  match (tag.completedValue? typeAttribute).bind schema.findType? with
  | some named =>
      if named ≠ declared ∧ (schema.complex? named).isSome ∧ schema.isDerivedFrom named declared
      then named else declared
  | none => declared

/-- Open an element matched with a declaration; a self-closing one is closed at
once. -/
def openElement (schema : Schema) (replay : Replay) (element : ElementId) (tag : StartTag) :
    Replay :=
  match schema.element? element with
  | none => replay.blame tag.name .missingDeclaration
  | some decl =>
      let type := effectiveType schema decl.type tag
      let opened : OpenElement :=
        { element, type, nillable := decl.nillable
          progress := Progress.start (schema.content? type)
          node := replay.document.size }
      { replay with
        document := replay.document.append (replay.top?.map OpenElement.node) tag
        stack := if tag.selfClosing then replay.stack else opened :: replay.stack }

def followRoot (schema : Schema) (replay : Replay) (tag : StartTag) : Replay :=
  -- a name that is still being typed decides nothing
  if replay.caret = .inStartName then replay
  else
    match schema.findGlobal? tag.name with
    | some element => openElement schema replay element tag
    | none => replay.blame tag.name .unknownRoot

def followStart (schema : Schema) (replay : Replay) (tag : StartTag) : Replay :=
  if replay.caret = .inStartName then replay
  else
    match replay.stack with
    | [] => replay.stop .afterRoot
    | top :: below =>
        match matchContent schema (schema.content? top.type) tag.name top.progress with
        | (progress, .ok element) =>
            openElement schema { replay with stack := { top with progress } :: below } element tag
        | (progress, .error reason) =>
            { replay with stack := { top with progress } :: below }.blame tag.name reason

def followEnd (schema : Schema) (replay : Replay) (name : String) : Replay :=
  match replay.stack with
  | [] => replay.stop .nothingToClose
  | top :: below =>
      if schema.elementName? top.element = some name then { replay with stack := below }
      else if replay.caret = .inEndTag then replay.blame name .endTagUnfinished
      else { replay with stack := below }.stop (.wrongEnd name)

/-! ## Following a text -/

/-- Follow a significant event of a replay without a fault. -/
def follow (schema : Schema) (replay : Replay) (event : Event) : Replay :=
  if replay.started then
    match event with
    | .startTag tag => followStart schema replay tag
    | .endTag name => followEnd schema replay name
    | _ => replay
  else
    let begun := { replay with started := true, lastIsRoot := true }
    match event with
    | .startTag tag => followRoot schema begun tag
    | _ => begun.stop .noRoot

/-- Read one event, at whose end the typing stood at `caret`. -/
def step (schema : Schema) (replay : Replay) (event : Event) (caret : Caret) : Replay :=
  if replay.stopped.isSome then replay
  else
    let current := { replay with caret, lastIsRoot := false }
    if event.isInsignificant then { current with last := some event }
    else if replay.fault.isSome then current.stop .afterFault
    else { follow schema current event with last := some event }

def run (schema : Schema) (replay : Replay) (tokens : List Token) : Replay :=
  tokens.foldl (fun replay token => replay.step schema token.event token.caret) replay

def ofText (schema : Schema) (text : String) : Replay :=
  run schema {} (tokens text)

theorem step_of_stopped (schema : Schema) (replay : Replay) (event : Event) (caret : Caret)
    (stopped : replay.stopped.isSome = true) : replay.step schema event caret = replay := by
  simp [step, stopped]

theorem run_append (schema : Schema) (replay : Replay) (front back : List Token) :
    run schema replay (front ++ back) = run schema (run schema replay front) back :=
  List.foldl_append

end Replay

end ContentAssist
