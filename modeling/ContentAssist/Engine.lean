/-
# ContentAssist.Engine -- suggestions for a text

`suggest` follows a text from its beginning and offers what may be typed at its end.  Nothing
is kept from one text to the next, so many texts may be completed in any order.
-/
import ContentAssist.Completion.Offer
import ContentAssist.Schema.Annotate

namespace ContentAssist

set_option autoImplicit false

open Completion Schema

/-- Everything suggestions depend on besides the text. -/
structure Engine where
  schema : Schema := {}
  options : Options := {}
  hooks : Hooks := {}

namespace Engine

/-! ## Setting up -/

def describeType (engine : Engine) (typeName : String) (doc : Documentation) :
    Except Error Engine :=
  (engine.schema.annotateType typeName doc).map fun schema => { engine with schema }

def describeElement (engine : Engine) (typeName elementName : String) (doc : Documentation) :
    Except Error Engine :=
  (engine.schema.annotateElement typeName elementName doc).map fun schema =>
    { engine with schema }

def describeAttribute (engine : Engine) (typeName attributeName : String)
    (doc : Documentation) : Except Error Engine :=
  (engine.schema.annotateAttribute typeName attributeName doc).map fun schema =>
    { engine with schema }

/-- Register a hook for text; it runs after those registered before. -/
def addValueHook (engine : Engine) (hook : ValueHook) : Engine :=
  { engine with hooks := { engine.hooks with value := engine.hooks.value ++ [hook] } }

def addAttributeHook (engine : Engine) (hook : AttributeHook) : Engine :=
  { engine with
    hooks := { engine.hooks with attributeValue := engine.hooks.attributeValue ++ [hook] } }

/-! ## Suggesting -/

/-- What may be typed at the end of a text. -/
def suggest (engine : Engine) (text : String) : Completion :=
  Completion.ofReplay engine.schema engine.options engine.hooks
    (Replay.ofText engine.schema text)

def suggestAll (engine : Engine) (texts : List String) : List Completion :=
  texts.map engine.suggest

def suggestMap {α : Type} (engine : Engine) (texts : List String)
    (combine : String → Completion → α) : List α :=
  texts.map fun text => combine text (engine.suggest text)

def summary (engine : Engine) : String :=
  let usesXsi := if engine.options.usesXsi then "true" else "false"
  let value := engine.hooks.value.length
  let attributeValue := engine.hooks.attributeValue.length
  s!"Autocomplete \x7b options: AutocompleteOptions \x7b uses_xsi: {usesXsi} \x7d, "
    ++ s!"value_hooks: {value}, attribute_value_hooks: {attributeValue}, .. \x7d"

end Engine

end ContentAssist
