/-
# ContentAssist.Schema.Lookup -- finding declarations

Names need not be unique: the first declaration with a name is the one found.

A chain of bases may be circular, so it is cut after one more step than there are types; by
then every type on the chain has been seen.  Derivation and inheritance of attributes read
the same chain (`ancestry`).
-/
import ContentAssist.Schema.Basic

namespace ContentAssist.Schema

set_option autoImplicit false

/-! ## By position -/

def type? (schema : Schema) (id : TypeId) : Option TypeDef :=
  schema.types[id]?

def complex? (schema : Schema) (id : TypeId) : Option ComplexType :=
  (schema.type? id).bind TypeDef.complex?

/-- What may stand inside an element of a type; none unless the type is complex. -/
def content? (schema : Schema) (id : TypeId) : Option Content :=
  (schema.complex? id).map ComplexType.content

def element? (schema : Schema) (id : ElementId) : Option ElementDecl :=
  schema.elements[id]?

def elementName? (schema : Schema) (id : ElementId) : Option String :=
  (schema.element? id).map ElementDecl.name

def attribute? (schema : Schema) (id : AttributeId) : Option AttributeDecl :=
  schema.attributes[id]?

/-! ## By name -/

def globalElements (schema : Schema) : List (ElementId × ElementDecl) :=
  schema.globals.filterMap fun id => (schema.element? id).map fun decl => (id, decl)

def findGlobal? (schema : Schema) (name : String) : Option ElementId :=
  (schema.globalElements.find? fun entry => entry.2.name == name).map Prod.fst

def findType? (schema : Schema) (name : String) : Option TypeId :=
  schema.types.findIdx? fun type => type.name == some name

/-- The first of some elements that exists and has the name. -/
def findNamed? (schema : Schema) (candidates : List ElementId) (name : String) :
    Option ElementId :=
  candidates.find? fun id => schema.elementName? id == some name

/-! ## Derivation -/

def complexTypes (schema : Schema) : List (TypeId × ComplexType) :=
  schema.types.zipIdx.filterMap fun entry => entry.1.complex?.map fun type => (entry.2, type)

def derivedTypes (schema : Schema) (base : TypeId) : List (TypeId × ComplexType) :=
  schema.complexTypes.filter fun entry => entry.2.base == some base

def hasDerivedTypes (schema : Schema) (base : TypeId) : Bool :=
  !(schema.derivedTypes base).isEmpty

def hasExtensions (schema : Schema) : Bool :=
  schema.complexTypes.any fun entry => entry.2.base.isSome

def base? (schema : Schema) (id : TypeId) : Option TypeId :=
  (schema.complex? id).bind ComplexType.base

/-- The first `limit` positions along the chain of bases from a type. -/
def baseChain (schema : Schema) : (limit : Nat) → TypeId → List TypeId
  | 0, _ => []
  | limit + 1, id =>
      id :: match schema.base? id with
        | none => []
        | some base => baseChain schema limit base

/-- A type and everything it derives from, nearest first. -/
def ancestry (schema : Schema) (id : TypeId) : List TypeId :=
  schema.baseChain (schema.types.length + 1) id

def isDerivedFrom (schema : Schema) (id base : TypeId) : Bool :=
  (schema.ancestry id).contains base

/-! ## Attributes -/

/-- The attributes along the ancestry of a type that exist, nearest first. -/
def declaredAttributes (schema : Schema) (id : TypeId) : List (AttributeId × AttributeDecl) :=
  let declared := ((schema.ancestry id).filterMap schema.complex?).flatMap ComplexType.attributes
  declared.filterMap fun use => (schema.attribute? use).map fun decl => (use, decl)

def nearest : List (AttributeId × AttributeDecl) → List (AttributeId × AttributeDecl)
  | [] => []
  | use :: rest => use :: (nearest rest).filter fun other => other.2.name != use.2.name

/-- The attributes an element of the type may carry.  One declared nearer hides one of the
same name further on. -/
def attributeUses (schema : Schema) (id : TypeId) : List (AttributeId × AttributeDecl) :=
  nearest (schema.declaredAttributes id)

def findAttributeUse? (schema : Schema) (id : TypeId) (name : String) :
    Option (AttributeId × AttributeDecl) :=
  (schema.attributeUses id).find? fun use => use.2.name == name

/-! ## Text -/

/-- The simple type of the text inside an element of a type: the type itself, or
the simple content of a complex type. -/
def textType? (schema : Schema) (id : TypeId) : Option SimpleType :=
  match schema.type? id with
  | some (.simple type) => some type
  | some (.complex { content := .simple inner, .. }) => (schema.type? inner).bind TypeDef.simple?
  | _ => none

/-! ## Changing a type -/

def modifyComplex? (schema : Schema) (id : TypeId) (change : ComplexType → ComplexType) :
    Option Schema :=
  (schema.complex? id).map fun type =>
    { schema with types := schema.types.set id (.complex (change type)) }

end ContentAssist.Schema
