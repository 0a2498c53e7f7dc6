/-
# ContentAssist.Schema.Error -- what can go wrong while a schema is set up

Setting up a schema can be refused for a bad occurrence range, and for an annotation that
names nothing or something annotated before.
-/

namespace ContentAssist.Schema

set_option autoImplicit false

/-- A schema object that carries documentation. -/
inductive Subject where
  | typeNamed (name : String)
  | elementNamed (name : String)
  | attributeNamed (name : String)
  deriving DecidableEq, Repr, Inhabited

def Subject.text : Subject → String
  | .typeNamed name => s!"type {name}"
  | .elementNamed name => s!"element {name}"
  | .attributeNamed name => s!"attribute {name}"

/-- Why a step of setting up a schema was refused. -/
inductive Error where
  | unknownType (name : String)
  | notComplex (typeName : String)
  /-- Only a sequence or a choice has element declarations to annotate. -/
  | unsupportedContent (typeName : String)
  | unknownElement (name typeName : String)
  | unknownAttribute (name typeName : String)
  | alreadyDocumented (subject : Subject)
  | invalidRange (min max : Nat)
  deriving DecidableEq, Repr, Inhabited

def Error.message : Error → String
  | .unknownType name => s!"unknown type name {name}"
  | .notComplex typeName => s!"type {typeName} is not a complex type"
  | .unsupportedContent typeName => s!"type {typeName} must be a sequence or choice"
  | .unknownElement name typeName => s!"unknown element name {name} in type {typeName}"
  | .unknownAttribute name typeName =>
      s!"unknown attribute name {name} in type {typeName}"
  | .alreadyDocumented subject =>
      let what := subject.text
      s!"{what} already has an annotation"
  | .invalidRange min max => s!"invalid occurrence range: max {max} is below min {min}"

end ContentAssist.Schema
