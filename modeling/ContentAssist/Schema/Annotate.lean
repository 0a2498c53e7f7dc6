/-
# ContentAssist.Schema.Annotate -- documenting what a schema declares

Documentation can be attached to a named type, to an element inside a named
complex type, and to an attribute of a named complex type, its own or inherited.
Each place takes documentation once.

An annotation either changes exactly one slot or is refused and changes nothing.
Causes of refusal are tried in this order: the type is unknown, it is not complex,
its content has no elements to name, the element or attribute is unknown, the
place has documentation already.
-/
import ContentAssist.Schema.Lookup

namespace ContentAssist.Schema

set_option autoImplicit false

def requireType (schema : Schema) (typeName : String) : Except Error TypeId :=
  match schema.findType? typeName with
  | some id => .ok id
  | none => .error (.unknownType typeName)

def requireComplex (schema : Schema) (typeName : String) :
    Except Error (TypeId × ComplexType) :=
  match schema.requireType typeName with
  | .error error => .error error
  | .ok id =>
      match schema.complex? id with
      | some type => .ok (id, type)
      | none => .error (.notComplex typeName)

/-- Documentation may be attached only where there is none. -/
def requireFree (slot : Option Documentation) (subject : Subject) : Except Error Unit :=
  if slot.isSome then .error (.alreadyDocumented subject) else .ok ()

def resolveElement (schema : Schema) (typeName elementName : String) :
    Except Error ElementId :=
  match schema.requireComplex typeName with
  | .error error => .error error
  | .ok (_, type) =>
      match type.content.candidates? with
      | none => .error (.unsupportedContent typeName)
      | some candidates =>
          match schema.findNamed? candidates elementName with
          | some element => .ok element
          | none => .error (.unknownElement elementName typeName)

def resolveAttribute (schema : Schema) (typeName attributeName : String) :
    Except Error AttributeId :=
  match schema.requireComplex typeName with
  | .error error => .error error
  | .ok (id, _) =>
      match schema.findAttributeUse? id attributeName with
      | some (use, _) => .ok use
      | none => .error (.unknownAttribute attributeName typeName)

def annotateType (schema : Schema) (typeName : String) (doc : Documentation) :
    Except Error Schema :=
  match schema.requireType typeName with
  | .error error => .error error
  | .ok id =>
      match requireFree ((schema.type? id).bind TypeDef.documentation) (.typeNamed typeName) with
      | .error error => .error error
      | .ok () => .ok { schema with types := schema.types.modify id (TypeDef.document doc) }

/-- Attach documentation to an element inside a named type's sequence or choice. -/
def annotateElement (schema : Schema) (typeName elementName : String) (doc : Documentation) :
    Except Error Schema :=
  match schema.resolveElement typeName elementName with
  | .error error => .error error
  | .ok id =>
      match requireFree ((schema.element? id).bind ElementDecl.documentation)
          (.elementNamed elementName) with
      | .error error => .error error
      | .ok () =>
          .ok { schema with
            elements := schema.elements.modify id fun decl =>
              { decl with documentation := some doc } }

def annotateAttribute (schema : Schema) (typeName attributeName : String)
    (doc : Documentation) : Except Error Schema :=
  match schema.resolveAttribute typeName attributeName with
  | .error error => .error error
  | .ok id =>
      match requireFree ((schema.attribute? id).bind AttributeDecl.documentation)
          (.attributeNamed attributeName) with
      | .error error => .error error
      | .ok () =>
          .ok { schema with
            attributes := schema.attributes.modify id fun decl =>
              { decl with documentation := some doc } }

end ContentAssist.Schema
