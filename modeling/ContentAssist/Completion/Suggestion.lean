/-
# ContentAssist.Completion.Suggestion -- what is offered at the caret

A suggestion is something to insert and an annotation to show beside it: the documentation of
an element or an attribute or, where it has none, of its type.
-/
import ContentAssist.Markup.Event
import ContentAssist.Schema.Lookup

namespace ContentAssist.Completion

set_option autoImplicit false

open Markup Schema

/-! ## Annotations -/

structure Annotation where
  title : Option String := none
  description : Option String := none
  /-- Shown in place of the inserted text. -/
  displayName : Option String := none
  deriving DecidableEq, Repr, Inhabited

namespace Annotation

def ofDocumentation : Option Documentation → Annotation
  | some doc => { title := doc.title, description := doc.description }
  | none => {}

def typeDocumentation (schema : Schema) (type : TypeId) : Option Documentation :=
  (schema.type? type).bind TypeDef.documentation

def ofElement (schema : Schema) (decl : ElementDecl) : Annotation :=
  ofDocumentation (decl.documentation.or (typeDocumentation schema decl.type))

def ofAttribute (schema : Schema) (decl : AttributeDecl) : Annotation :=
  ofDocumentation (decl.documentation.or (typeDocumentation schema decl.type))

end Annotation

/-! ## Suggestions -/

/-- What a suggestion inserts. -/
inductive Insertion where
  | element (name : String) (selfClosing hasAttributes : Bool)
  /-- An end tag; `withSlash` when the slash has not been typed. -/
  | endTag (name : String) (withSlash : Bool)
  | attributeName (name : String)
  /-- A value of an attribute; `withQuotes` when no quote has been typed. -/
  | attributeValue (word : String) (withQuotes : Bool) (quote : Quote)
  | value (word : String)
  deriving DecidableEq, Repr, Inhabited

/-- The inserted name or value, without quotes and slashes. -/
def Insertion.text : Insertion → String
  | .element name _ _ => name
  | .endTag name _ => name
  | .attributeName name => name
  | .attributeValue word _ _ => word
  | .value word => word

structure Suggestion where
  insertion : Insertion
  annotation : Annotation := {}
  deriving DecidableEq, Repr, Inhabited

namespace Suggestion

def text (suggestion : Suggestion) : String :=
  suggestion.insertion.text

/-- The start tag of a declared element.  It closes itself when its type has empty
content. -/
def element (schema : Schema) (decl : ElementDecl) : Suggestion :=
  { insertion :=
      match schema.complex? decl.type with
      | some type =>
          .element decl.name (type.content == .empty) !(schema.attributeUses decl.type).isEmpty
      | none => .element decl.name false false
    annotation := .ofElement schema decl }

def endTag (schema : Schema) (decl : ElementDecl) (withSlash : Bool) : Suggestion :=
  { insertion := .endTag decl.name withSlash, annotation := .ofElement schema decl }

def attributeName (schema : Schema) (decl : AttributeDecl) : Suggestion :=
  { insertion := .attributeName decl.name, annotation := .ofAttribute schema decl }

end Suggestion

end ContentAssist.Completion

namespace ContentAssist

set_option autoImplicit false

open Completion

/-- Suggestions, and how many characters before the caret they replace. -/
structure Completion where
  suggestions : List Suggestion := []
  length : Nat := 0
  deriving DecidableEq, Repr, Inhabited

namespace Completion

def isEmpty (completion : Completion) : Bool :=
  completion.suggestions.isEmpty

def texts (completion : Completion) : List String :=
  completion.suggestions.map Suggestion.text

end Completion

end ContentAssist
