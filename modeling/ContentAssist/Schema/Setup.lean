/-
# ContentAssist.Schema.Setup -- documenting a schema in place

While a schema is set up it is changed where it is.  A call then has an answer, which may be
an error, and leaves a schema behind, whatever the answer.  Nothing is taken back: what a call
has written before it fails stays written.

Each place that takes documentation is a `Slot`.  A call first finds its slot, and from then on
it trusts the position: the declaration there is read and written without another look whether
there is one.  Where there is none the call has no answer at all (`crash`).
-/
import ContentAssist.Schema.Annotate

namespace ContentAssist.Schema

set_option autoImplicit false

/-! ## Slots -/

/-- A place for documentation: that of a type, an element or an attribute. -/
inductive Slot where
  | ofType (id : TypeId)
  | ofElement (id : ElementId)
  | ofAttribute (id : AttributeId)
  deriving DecidableEq, Repr, Inhabited

namespace Slot

/-- What a slot holds; there is none of a declaration that does not exist. -/
def read (schema : Schema) : Slot → Option (Option Documentation)
  | ofType id => (schema.type? id).map TypeDef.documentation
  | ofElement id => (schema.element? id).map ElementDecl.documentation
  | ofAttribute id => (schema.attribute? id).map AttributeDecl.documentation

def fill (schema : Schema) (doc : Documentation) : Slot → Schema
  | ofType id => { schema with types := schema.types.modify id (TypeDef.document doc) }
  | ofElement id =>
      { schema with
        elements := schema.elements.modify id fun decl => { decl with documentation := some doc } }
  | ofAttribute id =>
      { schema with
        attributes := schema.attributes.modify id fun decl =>
          { decl with documentation := some doc } }

end Slot

/-! ## Calls -/

/-- A call on a schema that is changed in place. -/
abbrev Setup (α : Type) := ExceptT Error (StateT Schema Option) α

namespace Setup

/-- None after a crash. -/
def callOn {α : Type} (call : Setup α) (schema : Schema) : Option (Except Error α × Schema) :=
  StateT.run (ExceptT.run call) schema

/-- A declaration was to be there and is not. -/
def crash {α : Type} : Setup α :=
  ExceptT.mk fun _ => none

section Lemmas

variable {α β : Type} (schema : Schema)

theorem callOn_bind (call : Setup α) (next : α → Setup β) :
    (call >>= next).callOn schema =
      match call.callOn schema with
      | none => none
      | some (.error error, after) => some (.error error, after)
      | some (.ok a, after) => (next a).callOn after := by
  simp only [callOn, ExceptT.run_bind, StateT.run_bind]
  rcases StateT.run (ExceptT.run call) schema with _ | ⟨_ | _, _⟩
  · rfl
  · rfl
  · rfl

@[simp] theorem callOn_get : callOn get schema = some (.ok schema, schema) := rfl

@[simp] theorem callOn_modify (change : Schema → Schema) :
    callOn (modify change) schema = some (.ok (), change schema) := rfl

@[simp] theorem callOn_ofExcept (result : Except Error α) :
    callOn (MonadExcept.ofExcept result) schema = some (result, schema) := by
  cases result with
  | error error => rfl
  | ok a => rfl

end Lemmas

/-- Fill a slot that has been found, unless it is taken. -/
def fillOnce (slot : Slot) (subject : Subject) (doc : Documentation) : Setup Unit := do
  match slot.read (← get) with
  | none => crash
  | some content =>
      MonadExcept.ofExcept (requireFree content subject)
      modify (slot.fill · doc)

def annotateType (typeName : String) (doc : Documentation) : Setup Unit := do
  let id ← MonadExcept.ofExcept ((← get).requireType typeName)
  -- a type is looked at once more before it is trusted to be there
  match (← get).type? id with
  | none => throw (.unknownType typeName)
  | some _ => fillOnce (.ofType id) (.typeNamed typeName) doc

def annotateElement (typeName elementName : String) (doc : Documentation) : Setup Unit := do
  let id ← MonadExcept.ofExcept ((← get).resolveElement typeName elementName)
  fillOnce (.ofElement id) (.elementNamed elementName) doc

def annotateAttribute (typeName attributeName : String) (doc : Documentation) :
    Setup Unit := do
  let id ← MonadExcept.ofExcept ((← get).resolveAttribute typeName attributeName)
  fillOnce (.ofAttribute id) (.attributeNamed attributeName) doc

end Setup

end ContentAssist.Schema
