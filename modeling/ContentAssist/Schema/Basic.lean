/-
# ContentAssist.Schema.Basic -- declarations of a schema

Declarations refer to each other by position.  Nothing checks a reference: it may dangle,
point forward or go round in a circle, and every lookup answers with an `Option`.

A derived complex type holds its whole content model.  Its attributes are its own; those it
inherits are found along the base chain when asked for.
-/
import ContentAssist.Schema.Occurs

namespace ContentAssist.Schema

set_option autoImplicit false

/-! ## References -/

abbrev TypeId := Nat

abbrev ElementId := Nat

abbrev AttributeId := Nat

structure Documentation where
  title : Option String := none
  description : Option String := none
  deriving DecidableEq, Repr, Inhabited

/-! ## Simple types -/

inductive TypeCode where
  | string
  | boolean
  | integer
  | decimal
  | double
  | date
  | dateTime
  | other
  deriving DecidableEq, Repr, Inhabited

structure Facet where
  value : String
  documentation : Option Documentation := none
  deriving DecidableEq, Repr, Inhabited

/-- A type of text: a built-in kind, perhaps restricted to listed values. -/
structure SimpleType where
  name : Option String := none
  code : TypeCode := .string
  enumeration : List Facet := []
  documentation : Option Documentation := none
  deriving DecidableEq, Repr, Inhabited

def SimpleType.isBoolean (type : SimpleType) : Bool :=
  type.code == .boolean

/-! ## Complex types -/

/-- A group of which every occurrence is one of the alternatives. -/
structure Choice where
  alternatives : List ElementId
  occurs : Occurs := .once
  deriving DecidableEq, Repr, Inhabited

inductive Term where
  | element (id : ElementId)
  | choice (group : Choice)
  deriving DecidableEq, Repr, Inhabited

/-- The elements a term may stand for, in order. -/
def Term.elements : Term → List ElementId
  | .element id => [id]
  | .choice group => group.alternatives

/-- A term and how often it may occur.  For a nested choice this range counts; the
choice's own is not looked at. -/
structure Particle where
  term : Term
  occurs : Occurs
  deriving DecidableEq, Repr, Inhabited

/-- Particles in order; the whole may repeat. -/
structure Sequence where
  particles : List Particle
  occurs : Occurs := .once
  deriving DecidableEq, Repr, Inhabited

inductive Content where
  | empty
  | simple (type : TypeId)
  | sequence (group : Sequence)
  | choice (group : Choice)
  /-- Elements in any order; children of such an element are not followed. -/
  | all (elements : List ElementId)
  deriving DecidableEq, Repr, Inhabited

/-- The elements a sequence or a choice refers to, in order; none for other content. -/
def Content.candidates? : Content → Option (List ElementId)
  | .sequence group => some (group.particles.flatMap fun particle => particle.term.elements)
  | .choice group => some group.alternatives
  | _ => none

structure ComplexType where
  name : Option String := none
  base : Option TypeId := none
  content : Content := .empty
  attributes : List AttributeId := []
  documentation : Option Documentation := none
  deriving DecidableEq, Repr, Inhabited

inductive TypeDef where
  | simple (type : SimpleType)
  | complex (type : ComplexType)
  deriving DecidableEq, Repr, Inhabited

namespace TypeDef

def name : TypeDef → Option String
  | simple type => type.name
  | complex type => type.name

def documentation : TypeDef → Option Documentation
  | simple type => type.documentation
  | complex type => type.documentation

def document (doc : Documentation) : TypeDef → TypeDef
  | simple type => simple { type with documentation := some doc }
  | complex type => complex { type with documentation := some doc }

def complex? : TypeDef → Option ComplexType
  | simple _ => none
  | complex type => some type

def simple? : TypeDef → Option SimpleType
  | simple type => some type
  | complex _ => none

end TypeDef

/-! ## Elements and attributes -/

structure ElementDecl where
  name : String
  type : TypeId
  nillable : Bool := false
  documentation : Option Documentation := none
  deriving DecidableEq, Repr, Inhabited

structure AttributeDecl where
  name : String
  type : TypeId
  required : Bool := false
  documentation : Option Documentation := none
  deriving DecidableEq, Repr, Inhabited

end ContentAssist.Schema

namespace ContentAssist

set_option autoImplicit false

open Schema

structure Schema where
  types : List TypeDef := []
  elements : List ElementDecl := []
  attributes : List AttributeDecl := []
  /-- The elements that may be a document's root. -/
  globals : List ElementId := []
  deriving DecidableEq, Repr, Inhabited

namespace Schema

/-! ## Building -/

/-- Add a type; it gets the next free position. -/
def addType (schema : Schema) (type : TypeDef) : Schema :=
  { schema with types := schema.types ++ [type] }

def addElement (schema : Schema) (decl : ElementDecl) : Schema :=
  { schema with elements := schema.elements ++ [decl] }

def addGlobalElement (schema : Schema) (decl : ElementDecl) : Schema :=
  { schema with
    elements := schema.elements ++ [decl]
    globals := schema.globals ++ [schema.elements.length] }

def addAttribute (schema : Schema) (decl : AttributeDecl) : Schema :=
  { schema with attributes := schema.attributes ++ [decl] }

end Schema

end ContentAssist
