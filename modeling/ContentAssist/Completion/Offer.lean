/-
# ContentAssist.Completion.Offer -- what may be typed where the replay ended

What is offered depends on the last event and on the caret.  A document that disagrees with the
schema gets no offers, except that an end tag still being typed is completed.

Everything offered begins with what has been typed, and the length of the completion is the
number of characters typed.
-/
import ContentAssist.Completion.Hook
import ContentAssist.Replay.Basic

namespace ContentAssist.Completion

set_option autoImplicit false

open Markup Schema Replay

/-- What can be switched on and off. -/
structure Options where
  /-- Offer the declaration of the instance namespace on the root element. -/
  usesXsi : Bool := false
  deriving DecidableEq, Repr, Inhabited

/-! ## Instance attributes -/

def namespaceAttribute : String := "xmlns:xsi"

def nilAttribute : String := "xsi:nil"

def instanceNamespace : String := "http://www.w3.org/2001/XMLSchema-instance"

def instanceAttribute (name title description : String) : Suggestion :=
  { insertion := .attributeName name
    annotation := { title := some title, description := some description } }

/-- The instance attributes that fit an open element, in the order they are
offered. -/
def instanceAttributes (schema : Schema) (options : Options) (replay : Replay)
    (top : OpenElement) : List Suggestion :=
  (if options.usesXsi && replay.lastIsRoot && schema.hasExtensions then
    [instanceAttribute namespaceAttribute "XML Schema Instance"
      "Includes the XML Schema Instance namespace"] else [])
  ++ (if top.nillable then
    [instanceAttribute nilAttribute "Nil" "Indicates that this element has no value"] else [])
  ++ (if schema.hasDerivedTypes top.type then
    [instanceAttribute typeAttribute "Type"
      "Indicates the derived type to use for this element"] else [])

/-! ## Tags -/

def endTagOffers (schema : Schema) (replay : Replay) (typed : String) : Completion :=
  match replay.top?.bind fun top => schema.element? top.element with
  | some decl =>
      if Text.startsWith decl.name typed then
        { suggestions := [.endTag schema decl false], length := typed.length }
      else {}
  | none => {}

def startTags (schema : Schema) (decls : List ElementDecl) (typed : String) :
    List Suggestion :=
  (decls.filter fun decl => Text.startsWith decl.name typed).map (Suggestion.element schema)

/-- The closing tag of an element, where nothing has been typed and its content may
end. -/
def closingTag (schema : Schema) (top : OpenElement) (typed : String) : List Suggestion :=
  if typed.isEmpty && mayClose (schema.content? top.type) top.progress then
    ((schema.element? top.element).map fun decl => Suggestion.endTag schema decl true).toList
  else []

def elementOffers (schema : Schema) (replay : Replay) (typed : String) : Completion :=
  if replay.lastIsRoot then
    { suggestions := startTags schema (schema.globalElements.map Prod.snd) typed
      length := typed.length }
  else
    match replay.top? with
    | none => {}
    | some top =>
        let next := offers (schema.content? top.type) top.progress
        { suggestions :=
            startTags schema (next.filterMap schema.element?) typed ++ closingTag schema top typed
          length := typed.length }

/-! ## Attributes -/

def declaredNames (schema : Schema) (type : TypeId) : List Suggestion :=
  ((schema.attributeUses type).map fun use => Suggestion.attributeName schema use.2).mergeSort
    fun a b => decide (a.text ≤ b.text)

def attributeNameOffers (schema : Schema) (options : Options) (replay : Replay)
    (tag : StartTag) : Completion :=
  let typed := tag.current.getD ""
  match replay.top? with
  | none => { length := typed.length }
  | some top =>
      let names := instanceAttributes schema options replay top ++ declaredNames schema top.type
      { suggestions := names.filter fun name =>
          Text.startsWith name.text typed && !tag.attributes.contains name.text
        length := typed.length }

/-! ## Values -/

def booleanValues : List Candidate :=
  [{ value := "false" }, { value := "true" }]

def listedValues (type : SimpleType) : List Candidate :=
  type.enumeration.map fun facet =>
    { value := facet.value, annotation := .ofDocumentation facet.documentation }

/-- The values a simple type allows, where it allows but a few. -/
def knownValues? (schema : Schema) (type : TypeId) : Option (List Candidate) :=
  match schema.textType? type with
  | some simple =>
      if simple.isBoolean then some booleanValues
      else if simple.enumeration.isEmpty then none
      else some (listedValues simple)
  | none => none

def openPath (schema : Schema) (replay : Replay) : List Ancestor :=
  replay.stack.reverse.map fun entry =>
    { name := (schema.elementName? entry.element).getD "", type := entry.type }

def site? (schema : Schema) (replay : Replay) (top : OpenElement) : Option Site :=
  (replay.document.element? top.node).map fun element =>
    { schema, document := replay.document, element, ancestors := openPath schema replay }

def declaredAttributeValues (schema : Schema) (hooks : Hooks) (replay : Replay)
    (top : OpenElement) (name : String) : List Candidate :=
  match schema.findAttributeUse? top.type name with
  | none => []
  | some (_, decl) =>
      match knownValues? schema decl.type with
      | some values => values
      | none =>
          match site? schema replay top with
          | some site => hooks.attributeValues site decl
          | none => []

def derivedTypeNames (schema : Schema) (base : TypeId) : List Candidate :=
  (schema.derivedTypes base).filterMap fun entry =>
    entry.2.name.map fun name =>
      { value := name, annotation := .ofDocumentation entry.2.documentation }

def instanceValues (schema : Schema) (top : OpenElement) (name : String) : List Candidate :=
  if name = namespaceAttribute then [{ value := instanceNamespace }]
  else if name = typeAttribute then derivedTypeNames schema top.type
  else if name = nilAttribute then [{ value := "true" }, { value := "false" }]
  else []

def matching (candidates : List Candidate) (typed : String) : List Candidate :=
  candidates.filter fun candidate => Text.startsWith candidate.value typed

/-- Offers for the value of an attribute.  Without an open quote nothing of the
value has been typed, and a double quote is to be put around it. -/
def attributeValueOffers (schema : Schema) (hooks : Hooks) (replay : Replay)
    (tag : StartTag) (quote : Option Quote) : Completion :=
  let typed := if quote.isSome then tag.currentValue?.getD "" else ""
  let name := tag.current.getD ""
  match replay.top? with
  | none => { length := typed.length }
  | some top =>
      let values :=
        declaredAttributeValues schema hooks replay top name ++ instanceValues schema top name
      { suggestions := (matching values typed).map fun candidate =>
          { insertion := .attributeValue candidate.value quote.isNone (quote.getD .double)
            annotation := candidate.annotation }
        length := typed.length }

def textValues (schema : Schema) (hooks : Hooks) (replay : Replay) (top : OpenElement) :
    List Candidate :=
  match knownValues? schema top.type with
  | some values => values
  | none =>
      match site? schema replay top with
      | some site => hooks.values site
      | none => []

/-- Offers for text.  Blanks around what was typed do not matter, but they are
replaced with it. -/
def textOffers (schema : Schema) (hooks : Hooks) (replay : Replay) (typed : String) :
    Completion :=
  match replay.top? with
  | none => { length := typed.length }
  | some top =>
      { suggestions := (matching (textValues schema hooks replay top) (Text.trim typed)).map
          fun candidate =>
            { insertion := .value candidate.value, annotation := candidate.annotation }
        length := typed.length }

/-! ## Choosing -/

/-- Offers where the document agrees with the schema. -/
def validOffers (schema : Schema) (options : Options) (hooks : Hooks) (replay : Replay) :
    Completion :=
  match replay.last, replay.caret with
  | some (.startTag tag), .inStartName => elementOffers schema replay tag.name
  | some (.startTag tag), .awaitingAttribute true => attributeNameOffers schema options replay tag
  | some (.startTag tag), .inAttributeName => attributeNameOffers schema options replay tag
  | some (.startTag tag), .afterEquals => attributeValueOffers schema hooks replay tag none
  | some (.startTag tag), .inAttributeValue quote =>
      attributeValueOffers schema hooks replay tag (some quote)
  | some (.startTag _), .inText => textOffers schema hooks replay ""
  | some (.text content), _ => textOffers schema hooks replay content
  | _, _ => {}

def typedEndTag? (replay : Replay) : Option String :=
  match replay.last, replay.caret with
  | some (.endTag name), .inEndTag => some name
  | _, _ => none

/-- What may be typed where a replay ended. -/
def ofReplay (schema : Schema) (options : Options) (hooks : Hooks) (replay : Replay) :
    Completion :=
  if !replay.isComplete then {}
  else
    match typedEndTag? replay with
    | some typed => endTagOffers schema replay typed
    | none => if replay.isValid then validOffers schema options hooks replay else {}

end ContentAssist.Completion
