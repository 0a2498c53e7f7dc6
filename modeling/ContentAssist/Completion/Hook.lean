/-
# ContentAssist.Completion.Hook -- values that the surroundings supply

Where a schema does not list the values of some text or attribute, hooks may.  A hook maps the
candidates collected so far to new ones, so that it may add, count or drop; hooks run in the
order they were registered.
-/
import ContentAssist.Completion.Suggestion
import ContentAssist.Document

namespace ContentAssist.Completion

set_option autoImplicit false

open Markup Schema

/-! ## What a hook sees -/

structure Ancestor where
  name : String
  /-- Its type, after a type named on the tag has taken effect. -/
  type : TypeId
  deriving DecidableEq, Repr, Inhabited

/-- The place where a value is being typed. -/
structure Site where
  schema : Schema
  document : Document
  /-- The element the value belongs to. -/
  element : document.Element
  /-- The open elements, outermost first; the last is `element`. -/
  ancestors : List Ancestor

def Site.type? (site : Site) : Option TypeId :=
  site.ancestors.getLast?.map Ancestor.type

/-- A value that might be meant, and what is shown beside it. -/
structure Candidate where
  value : String
  annotation : Annotation := {}
  deriving DecidableEq, Repr, Inhabited

abbrev ValueHook := Site → List Candidate → List Candidate

abbrev AttributeHook := Site → AttributeDecl → List Candidate → List Candidate

structure Hooks where
  value : List ValueHook := []
  attributeValue : List AttributeHook := []

def Hooks.values (hooks : Hooks) (site : Site) : List Candidate :=
  hooks.value.foldl (fun found hook => hook site found) []

def Hooks.attributeValues (hooks : Hooks) (site : Site) (decl : AttributeDecl) :
    List Candidate :=
  hooks.attributeValue.foldl (fun found hook => hook site decl found) []

def ValueHook.forAttributes (hook : ValueHook) : AttributeHook :=
  fun site _ found => hook site found

/-! ## Ready-made hooks -/

namespace ValueHook

def adding (supply : Site → List Candidate) : ValueHook :=
  fun site found => found ++ supply site

def fixed (candidates : List Candidate) : ValueHook :=
  adding fun _ => candidates

/-- Add candidates where the names of the open elements are these. -/
def underPath (path : List String) (candidates : List Candidate) : ValueHook :=
  adding fun site => if site.ancestors.map Ancestor.name = path then candidates else []

/-- Add the value of an attribute of the element some parents up, with an ending. -/
def attributeOf (name : String) (steps : Nat) (ending : String) : ValueHook :=
  adding fun site =>
    match (site.element.up? steps).bind fun element => element.attributeText? name with
    | some text => [{ value := text ++ ending }]
    | none => []

def nodeText {document : Document} (element : document.Element) : String :=
  let name := element.name
  let id := element.val
  s!"{name}#{id}"

/-- Add every child of the element's parent. -/
def siblings : ValueHook :=
  adding fun site =>
    match site.element.parent? with
    | some parent => parent.children.map fun child => { value := nodeText child }
    | none => []

def count : ValueHook :=
  fun _ found => found ++ [{ value := toString found.length }]

def clear : ValueHook :=
  fun _ _ => []

/-- Add the name of each open element's type, or a dash. -/
def types : ValueHook :=
  adding fun site =>
    site.ancestors.map fun ancestor =>
      { value := ((site.schema.type? ancestor.type).bind TypeDef.name).getD "-" }

def effectiveType : ValueHook :=
  adding fun site =>
    match site.type? with
    | some type => [{ value := s!"type Some({type})" }]
    | none => [{ value := "type None" }]

def attributeText (entry : String × AttributeValue) : String :=
  let name := entry.1
  let text := entry.2.text?.getD "?"
  s!"[{name}={text}]"

/-- Everything a hook can see, on one line: the open elements and their types, the
element with its depth and attributes, and the names above it. -/
def siteText (site : Site) : String :=
  let path := site.ancestors.map fun ancestor =>
    let name := ancestor.name
    let type := ancestor.type
    s!"{name}:{type}"
  let place := nodeText site.element
  let depth := site.element.node.depth
  let attributes := site.element.node.attributes.entries.map attributeText
  let above := site.element.ancestors.map fun ancestor => "<" ++ ancestor.name
  String.intercalate "/" path ++ s!"|{place}@{depth}" ++ String.join attributes
    ++ String.join above

def context : ValueHook :=
  adding fun site => [{ value := siteText site }]

end ValueHook

def AttributeHook.declaration : AttributeHook :=
  fun _ decl found =>
    let name := decl.name
    let type := decl.type
    let required := if decl.required then "true" else "false"
    found ++ [{ value := s!"{name}:{type}:{required}" }]

end ContentAssist.Completion
