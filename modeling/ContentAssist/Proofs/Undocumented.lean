/-
# ContentAssist.Proofs.Undocumented -- documentation decides nothing

Types, elements, attributes and listed values may carry documentation, and a schema without
any is left when all of it is taken off (`Schema.undocumented`).  This module proves that
nothing but the annotations beside suggestions depends on what was taken off.

* Lookups find the same things, without their documentation (`type?_undocumented` and its
  kin), so everything that is decided by names, positions and content models stays.
* A text is followed in exactly the same way (`ofText_undocumented`).
* An engine without hooks offers the same insertions (`shape_ofReplay_undocumented`).
* Attaching documentation changes nothing that is left (`undocumented_annotateAll`).

Two schemas that differ in documentation are compared by way of what is left of both
(`documentation_is_inert`).
-/
import ContentAssist.Proofs.ContentModel
import ContentAssist.Proofs.Outline
import Mathlib.Data.List.Basic

namespace ContentAssist

set_option autoImplicit false

open Markup Schema Replay Completion

namespace Schema

/-! ## Taking documentation off -/

def Facet.undocumented (facet : Facet) : Facet :=
  { facet with documentation := none }

def SimpleType.undocumented (type : SimpleType) : SimpleType :=
  { type with
    enumeration := type.enumeration.map Facet.undocumented
    documentation := none }

def ComplexType.undocumented (type : ComplexType) : ComplexType :=
  { type with documentation := none }

def TypeDef.undocumented : TypeDef → TypeDef
  | simple type => simple type.undocumented
  | complex type => complex type.undocumented

def ElementDecl.undocumented (decl : ElementDecl) : ElementDecl :=
  { decl with documentation := none }

def AttributeDecl.undocumented (decl : AttributeDecl) : AttributeDecl :=
  { decl with documentation := none }

/-- The schema without any documentation. -/
def undocumented (schema : Schema) : Schema :=
  { schema with
    types := schema.types.map TypeDef.undocumented
    elements := schema.elements.map ElementDecl.undocumented
    attributes := schema.attributes.map AttributeDecl.undocumented }

theorem TypeDef.name_undocumented (type : TypeDef) : type.undocumented.name = type.name := by
  cases type <;> rfl

theorem TypeDef.complex?_undocumented (type : TypeDef) :
    type.undocumented.complex? = type.complex?.map ComplexType.undocumented := by
  cases type <;> rfl

theorem TypeDef.simple?_undocumented (type : TypeDef) :
    type.undocumented.simple? = type.simple?.map SimpleType.undocumented := by
  cases type <;> rfl

/-! ## Lookups -/

section Lookup

variable (schema : Schema)

@[simp] theorem type?_undocumented (id : TypeId) :
    schema.undocumented.type? id = (schema.type? id).map TypeDef.undocumented :=
  List.getElem?_map

@[simp] theorem complex?_undocumented (id : TypeId) :
    schema.undocumented.complex? id = (schema.complex? id).map ComplexType.undocumented := by
  rw [complex?, complex?, type?_undocumented]
  cases schema.type? id with
  | none => rfl
  | some type => exact type.complex?_undocumented

@[simp] theorem content?_undocumented (id : TypeId) :
    schema.undocumented.content? id = schema.content? id := by
  rw [content?, content?, complex?_undocumented, Option.map_map]
  rfl

@[simp] theorem element?_undocumented (id : ElementId) :
    schema.undocumented.element? id = (schema.element? id).map ElementDecl.undocumented :=
  List.getElem?_map

@[simp] theorem elementName?_undocumented (id : ElementId) :
    schema.undocumented.elementName? id = schema.elementName? id := by
  rw [elementName?, elementName?, element?_undocumented, Option.map_map]
  rfl

@[simp] theorem attribute?_undocumented (id : AttributeId) :
    schema.undocumented.attribute? id = (schema.attribute? id).map AttributeDecl.undocumented :=
  List.getElem?_map

theorem globalElements_undocumented :
    schema.undocumented.globalElements =
      schema.globalElements.map (Prod.map id ElementDecl.undocumented) := by
  rw [globalElements, globalElements, List.map_filterMap]
  apply List.filterMap_congr
  intro id _
  rw [element?_undocumented, Option.map_map, Option.map_map]
  rfl

@[simp] theorem findGlobal?_undocumented (name : String) :
    schema.undocumented.findGlobal? name = schema.findGlobal? name := by
  rw [findGlobal?, findGlobal?, globalElements_undocumented, List.find?_map, Option.map_map]
  rfl

@[simp] theorem findType?_undocumented (name : String) :
    schema.undocumented.findType? name = schema.findType? name := by
  show (schema.types.map TypeDef.undocumented).findIdx? _ = schema.types.findIdx? _
  rw [List.findIdx?_map]
  congr 1
  funext type
  rw [Function.comp_apply, TypeDef.name_undocumented]

@[simp] theorem findNamed?_undocumented (candidates : List ElementId) (name : String) :
    schema.undocumented.findNamed? candidates name = schema.findNamed? candidates name := by
  simp only [findNamed?, elementName?_undocumented]

/-! ### Derivation and inheritance -/

theorem complexTypes_undocumented :
    schema.undocumented.complexTypes =
      schema.complexTypes.map (Prod.map id ComplexType.undocumented) := by
  show (schema.types.map TypeDef.undocumented).zipIdx.filterMap _ = _
  rw [complexTypes, List.zipIdx_map, List.filterMap_map, List.map_filterMap]
  apply List.filterMap_congr
  rintro ⟨type, id⟩ _
  cases type <;> rfl

theorem derivedTypes_undocumented (base : TypeId) :
    schema.undocumented.derivedTypes base =
      (schema.derivedTypes base).map (Prod.map id ComplexType.undocumented) := by
  rw [derivedTypes, derivedTypes, complexTypes_undocumented, List.filter_map]
  rfl

@[simp] theorem hasDerivedTypes_undocumented (base : TypeId) :
    schema.undocumented.hasDerivedTypes base = schema.hasDerivedTypes base := by
  rw [hasDerivedTypes, hasDerivedTypes, derivedTypes_undocumented, List.isEmpty_map]

@[simp] theorem hasExtensions_undocumented :
    schema.undocumented.hasExtensions = schema.hasExtensions := by
  rw [hasExtensions, hasExtensions, complexTypes_undocumented, List.any_map]
  rfl

theorem base?_undocumented (id : TypeId) :
    schema.undocumented.base? id = schema.base? id := by
  rw [base?, base?, complex?_undocumented]
  cases schema.complex? id <;> rfl

theorem baseChain_undocumented (limit : Nat) (id : TypeId) :
    schema.undocumented.baseChain limit id = schema.baseChain limit id := by
  induction limit generalizing id with
  | zero => rfl
  | succ limit ih =>
      rw [baseChain, baseChain, base?_undocumented]
      cases schema.base? id with
      | none => rfl
      | some base => exact congrArg (id :: ·) (ih base)

@[simp] theorem ancestry_undocumented (id : TypeId) :
    schema.undocumented.ancestry id = schema.ancestry id := by
  rw [ancestry, ancestry, baseChain_undocumented]
  simp [undocumented]

@[simp] theorem isDerivedFrom_undocumented (id base : TypeId) :
    schema.undocumented.isDerivedFrom id base = schema.isDerivedFrom id base := by
  rw [isDerivedFrom, isDerivedFrom, ancestry_undocumented]

theorem declaredAttributes_undocumented (type : TypeId) :
    schema.undocumented.declaredAttributes type =
      (schema.declaredAttributes type).map (Prod.map id AttributeDecl.undocumented) := by
  have found : schema.undocumented.complex? =
      fun id => (schema.complex? id).map ComplexType.undocumented :=
    funext schema.complex?_undocumented
  have declared :
      ((schema.undocumented.ancestry type).filterMap schema.undocumented.complex?).flatMap
          ComplexType.attributes =
        ((schema.ancestry type).filterMap schema.complex?).flatMap ComplexType.attributes := by
    rw [ancestry_undocumented, found, ← List.map_filterMap, List.flatMap_map]
    rfl
  rw [declaredAttributes, declaredAttributes, declared, List.map_filterMap]
  apply List.filterMap_congr
  intro use _
  rw [attribute?_undocumented, Option.map_map, Option.map_map]
  rfl

/-- Which declaration is nearest goes by names. -/
theorem nearest_undocumented (uses : List (AttributeId × AttributeDecl)) :
    nearest (uses.map (Prod.map id AttributeDecl.undocumented)) =
      (nearest uses).map (Prod.map id AttributeDecl.undocumented) := by
  induction uses with
  | nil => rfl
  | cons use rest ih =>
      rw [List.map_cons, nearest, nearest, ih, List.filter_map]
      rfl

theorem attributeUses_undocumented (type : TypeId) :
    schema.undocumented.attributeUses type =
      (schema.attributeUses type).map (Prod.map id AttributeDecl.undocumented) := by
  rw [attributeUses, attributeUses, declaredAttributes_undocumented, nearest_undocumented]

theorem findAttributeUse?_undocumented (type : TypeId) (name : String) :
    schema.undocumented.findAttributeUse? type name =
      (schema.findAttributeUse? type name).map (Prod.map id AttributeDecl.undocumented) := by
  rw [findAttributeUse?, findAttributeUse?, attributeUses_undocumented, List.find?_map]
  rfl

theorem textType?_undocumented (type : TypeId) :
    schema.undocumented.textType? type =
      (schema.textType? type).map SimpleType.undocumented := by
  rw [textType?, textType?, type?_undocumented]
  rcases schema.type? type with _ | simple | ⟨name, base, content, attributes, documentation⟩
  · rfl
  · rfl
  · cases content with
    | simple inner =>
        show (schema.undocumented.type? inner).bind TypeDef.simple? =
          ((schema.type? inner).bind TypeDef.simple?).map SimpleType.undocumented
        rw [type?_undocumented]
        cases schema.type? inner with
        | none => rfl
        | some decl => exact decl.simple?_undocumented
    | _ => rfl

end Lookup

end Schema

/-! ## Following a text -/

namespace Replay

variable (schema : Schema)

theorem search_undocumented (progress : Progress) (name : String) (skipped : Bool)
    (index : Nat) (particles : List Particle) :
    search schema.undocumented progress name skipped index particles =
      search schema progress name skipped index particles := by
  induction particles generalizing skipped index with
  | nil => rfl
  | cons particle rest ih =>
      rw [search, search, findNamed?_undocumented]
      cases schema.findNamed? particle.term.elements name with
      | some element => rfl
      | none => exact ih _ _

theorem attempt_undocumented (group : Sequence) (name : String) (progress : Progress) :
    attempt schema.undocumented group name progress = attempt schema group name progress := by
  rw [attempt, attempt, search_undocumented]

/-- A child is matched by its name, so content takes the same ones. -/
theorem matchContent_undocumented (content : Option Content) (name : String)
    (progress : Progress) :
    matchContent schema.undocumented content name progress =
      matchContent schema content name progress := by
  unfold matchContent
  split
  · simp only [matchSequence, attempt_undocumented]
  · simp only [matchChoice, findNamed?_undocumented]
  · rfl

theorem effectiveType_undocumented (declared : TypeId) (tag : StartTag) :
    effectiveType schema.undocumented declared tag = effectiveType schema declared tag := by
  have found : schema.undocumented.findType? = schema.findType? :=
    funext schema.findType?_undocumented
  simp only [effectiveType, found, complex?_undocumented, Option.isSome_map,
    isDerivedFrom_undocumented]

theorem openElement_undocumented (replay : Replay) (element : ElementId) (tag : StartTag) :
    openElement schema.undocumented replay element tag =
      openElement schema replay element tag := by
  rw [openElement, openElement, element?_undocumented]
  cases schema.element? element with
  | none => rfl
  | some decl =>
      have type : effectiveType schema.undocumented decl.undocumented.type tag =
          effectiveType schema decl.type tag :=
        effectiveType_undocumented schema decl.type tag
      simp only [Option.map_some, type, content?_undocumented]
      rfl

theorem follow_undocumented (replay : Replay) (event : Event) :
    follow schema.undocumented replay event = follow schema replay event := by
  unfold follow
  cases event with
  | startTag tag =>
      simp only [followStart, followRoot, content?_undocumented, matchContent_undocumented,
        openElement_undocumented, findGlobal?_undocumented]
  | endTag name => simp only [followEnd, elementName?_undocumented]
  | instruction => rfl
  | text content => rfl

theorem step_undocumented (replay : Replay) (event : Event) (caret : Caret) :
    replay.step schema.undocumented event caret = replay.step schema event caret := by
  simp only [step, follow_undocumented]

/-- **A text is followed in the same way without documentation.** -/
theorem ofText_undocumented (text : String) :
    ofText schema.undocumented text = ofText schema text := by
  simp only [ofText, run, step_undocumented]

end Replay

/-! ## Offers -/

namespace Completion

/-- A completion without its annotations: how much is replaced, and what may be inserted. -/
def shape (completion : Completion) : Nat × List Insertion :=
  (completion.length, completion.suggestions.map Suggestion.insertion)

variable (schema : Schema) (options : Options) (replay : Replay)

/-! ### Tags -/

theorem insertion_element_undocumented (decl : ElementDecl) :
    (Suggestion.element schema.undocumented decl.undocumented).insertion =
      (Suggestion.element schema decl).insertion := by
  have type : decl.undocumented.type = decl.type := rfl
  unfold Suggestion.element
  rw [type, complex?_undocumented, attributeUses_undocumented, List.isEmpty_map]
  cases schema.complex? decl.type <;> rfl

theorem insertions_startTags_undocumented (decls : List ElementDecl) (typed : String) :
    (startTags schema.undocumented (decls.map ElementDecl.undocumented) typed).map
        Suggestion.insertion =
      (startTags schema decls typed).map Suggestion.insertion := by
  rw [startTags, startTags, List.filter_map, List.map_map, List.map_map, List.map_map]
  apply List.map_congr_left
  intro decl _
  exact insertion_element_undocumented schema decl

theorem insertions_closingTag_undocumented (top : OpenElement) (typed : String) :
    (closingTag schema.undocumented top typed).map Suggestion.insertion =
      (closingTag schema top typed).map Suggestion.insertion := by
  rw [closingTag, closingTag, content?_undocumented, element?_undocumented]
  split
  · cases schema.element? top.element <;> rfl
  · rfl

theorem shape_elementOffers_undocumented (typed : String) :
    (elementOffers schema.undocumented replay typed).shape =
      (elementOffers schema replay typed).shape := by
  unfold elementOffers
  split
  · have global : schema.undocumented.globalElements.map Prod.snd =
        (schema.globalElements.map Prod.snd).map ElementDecl.undocumented := by
      rw [globalElements_undocumented, List.map_map, List.map_map]
      rfl
    rw [global]
    exact congrArg (typed.length, ·) (insertions_startTags_undocumented schema _ typed)
  · cases replay.top? with
    | none => rfl
    | some top =>
        have next : (offers (schema.content? top.type) top.progress).filterMap
              schema.undocumented.element? =
            ((offers (schema.content? top.type) top.progress).filterMap schema.element?).map
              ElementDecl.undocumented := by
          rw [List.map_filterMap, funext schema.element?_undocumented]
        simp only [shape, content?_undocumented, next, List.map_append,
          insertions_startTags_undocumented, insertions_closingTag_undocumented]

theorem shape_endTagOffers_undocumented (typed : String) :
    (endTagOffers schema.undocumented replay typed).shape =
      (endTagOffers schema replay typed).shape := by
  unfold endTagOffers
  cases replay.top? with
  | none => rfl
  | some top =>
      rw [Option.bind_some, Option.bind_some, element?_undocumented]
      cases schema.element? top.element with
      | none => rfl
      | some decl =>
          have name : decl.undocumented.name = decl.name := rfl
          simp only [Option.map_some, name]
          split <;> rfl

/-! ### Names of attributes -/

theorem instanceAttributes_undocumented (top : OpenElement) :
    instanceAttributes schema.undocumented options replay top =
      instanceAttributes schema options replay top := by
  rw [instanceAttributes, instanceAttributes, hasExtensions_undocumented,
    hasDerivedTypes_undocumented]

/-- Attribute names are sorted by their text, which documentation is no part of. -/
theorem insertions_declaredNames_undocumented (type : TypeId) :
    (declaredNames schema.undocumented type).map Suggestion.insertion =
      (declaredNames schema type).map Suggestion.insertion := by
  have sorted (names : List Suggestion) :
      (names.mergeSort fun a b => decide (a.text ≤ b.text)).map Suggestion.insertion =
        (names.map Suggestion.insertion).mergeSort fun a b => decide (a.text ≤ b.text) :=
    List.map_mergeSort fun _ _ _ _ => rfl
  rw [declaredNames, declaredNames, sorted, sorted, attributeUses_undocumented]
  congr 1
  rw [List.map_map, List.map_map, List.map_map]
  rfl

theorem shape_attributeNameOffers_undocumented (tag : StartTag) :
    (attributeNameOffers schema.undocumented options replay tag).shape =
      (attributeNameOffers schema options replay tag).shape := by
  unfold attributeNameOffers
  cases replay.top? with
  | none => rfl
  | some top =>
      have kept (names : List Suggestion) :
          (names.filter fun name => Text.startsWith name.text (tag.current.getD "") &&
              !tag.attributes.contains name.text).map Suggestion.insertion =
            (names.map Suggestion.insertion).filter fun name =>
              Text.startsWith name.text (tag.current.getD "") &&
                !tag.attributes.contains name.text := by
        rw [List.filter_map]
        rfl
      simp only [shape, kept, List.map_append, instanceAttributes_undocumented,
        insertions_declaredNames_undocumented]

/-! ### Values -/

theorem values_knownValues?_undocumented (type : TypeId) :
    (knownValues? schema.undocumented type).map (List.map Candidate.value) =
      (knownValues? schema type).map (List.map Candidate.value) := by
  rw [knownValues?, knownValues?, textType?_undocumented]
  cases schema.textType? type with
  | none => rfl
  | some simple =>
      have boolean : simple.undocumented.isBoolean = simple.isBoolean := rfl
      have unlisted : simple.undocumented.enumeration.isEmpty = simple.enumeration.isEmpty :=
        List.isEmpty_map
      simp only [Option.map_some, boolean, unlisted]
      split
      · rfl
      · split
        · rfl
        · simp [listedValues, SimpleType.undocumented, Facet.undocumented, Function.comp_def]

theorem values_getD_knownValues?_undocumented (type : TypeId) :
    ((knownValues? schema.undocumented type).getD []).map Candidate.value =
      ((knownValues? schema type).getD []).map Candidate.value := by
  have known := values_knownValues?_undocumented schema type
  have values (found : Option (List Candidate)) :
      (found.getD []).map Candidate.value = (found.map (List.map Candidate.value)).getD [] := by
    cases found <;> rfl
  rw [values, values, known]

theorem values_declaredAttributeValues_undocumented (top : OpenElement) (name : String) :
    (declaredAttributeValues schema.undocumented {} replay top name).map Candidate.value =
      (declaredAttributeValues schema {} replay top name).map Candidate.value := by
  rw [declaredAttributeValues_hookless, declaredAttributeValues_hookless,
    findAttributeUse?_undocumented]
  cases schema.findAttributeUse? top.type name with
  | none => rfl
  | some use => exact values_getD_knownValues?_undocumented schema use.2.type

theorem values_instanceValues_undocumented (top : OpenElement) (name : String) :
    (instanceValues schema.undocumented top name).map Candidate.value =
      (instanceValues schema top name).map Candidate.value := by
  have derived : (derivedTypeNames schema.undocumented top.type).map Candidate.value =
      (derivedTypeNames schema top.type).map Candidate.value := by
    rw [derivedTypeNames, derivedTypeNames, derivedTypes_undocumented, List.filterMap_map,
      List.map_filterMap, List.map_filterMap]
    apply List.filterMap_congr
    intro entry _
    show Option.map _ (Option.map _ entry.2.name) = _
    rw [Option.map_map, Option.map_map]
    rfl
  unfold instanceValues
  split
  · rfl
  · split
    · exact derived
    · split <;> rfl

theorem values_matching (candidates : List Candidate) (typed : String) :
    (matching candidates typed).map Candidate.value =
      (candidates.map Candidate.value).filter fun value => Text.startsWith value typed := by
  rw [List.filter_map]
  rfl

theorem shape_attributeValueOffers_undocumented (tag : StartTag) (quote : Option Quote) :
    (attributeValueOffers schema.undocumented {} replay tag quote).shape =
      (attributeValueOffers schema {} replay tag quote).shape := by
  unfold attributeValueOffers
  cases replay.top? with
  | none => rfl
  | some top =>
      have inserted (candidates : List Candidate) :
          (candidates.map fun candidate =>
              ({ insertion :=
                   .attributeValue candidate.value quote.isNone (quote.getD .double)
                 annotation := candidate.annotation } : Suggestion)).map Suggestion.insertion =
            (candidates.map Candidate.value).map fun value =>
              .attributeValue value quote.isNone (quote.getD .double) := by
        rw [List.map_map, List.map_map]
        rfl
      simp only [shape, inserted, values_matching, List.map_append,
        values_declaredAttributeValues_undocumented, values_instanceValues_undocumented]

theorem shape_textOffers_undocumented (typed : String) :
    (textOffers schema.undocumented {} replay typed).shape =
      (textOffers schema {} replay typed).shape := by
  unfold textOffers
  cases replay.top? with
  | none => rfl
  | some top =>
      have inserted (candidates : List Candidate) :
          (candidates.map fun candidate =>
              ({ insertion := .value candidate.value
                 annotation := candidate.annotation } : Suggestion)).map Suggestion.insertion =
            (candidates.map Candidate.value).map .value := by
        rw [List.map_map, List.map_map]
        rfl
      simp only [shape, inserted, values_matching, textValues_hookless,
        values_getD_knownValues?_undocumented]

/-! ### Choosing -/

theorem shape_validOffers_undocumented :
    (validOffers schema.undocumented options {} replay).shape =
      (validOffers schema options {} replay).shape := by
  unfold validOffers
  split
  · exact shape_elementOffers_undocumented schema replay _
  · exact shape_attributeNameOffers_undocumented schema options replay _
  · exact shape_attributeNameOffers_undocumented schema options replay _
  · exact shape_attributeValueOffers_undocumented schema replay _ none
  · exact shape_attributeValueOffers_undocumented schema replay _ (some _)
  · exact shape_textOffers_undocumented schema replay ""
  · exact shape_textOffers_undocumented schema replay _
  · rfl

/-- **Without hooks, documentation shows in annotations only.** -/
theorem shape_ofReplay_undocumented :
    (ofReplay schema.undocumented options {} replay).shape =
      (ofReplay schema options {} replay).shape := by
  unfold ofReplay
  split
  · rfl
  · split
    · exact shape_endTagOffers_undocumented schema replay _
    · split
      · exact shape_validOffers_undocumented schema options replay
      · rfl

end Completion

/-- An engine without hooks offers the same for a schema and for what is left of it. -/
theorem shape_suggest_undocumented (schema : Schema) (options : Options) (text : String) :
    ((Engine.mk schema.undocumented options {}).suggest text).shape =
      ((Engine.mk schema options {}).suggest text).shape := by
  show (ofReplay schema.undocumented options {} (ofText schema.undocumented text)).shape = _
  rw [ofText_undocumented, shape_ofReplay_undocumented]
  rfl

/-! ## Attaching documentation -/

namespace Schema

/-- Documentation and the place it is meant for. -/
inductive Note where
  | forType (typeName : String) (doc : Documentation)
  | forElement (typeName elementName : String) (doc : Documentation)
  | forAttribute (typeName attributeName : String) (doc : Documentation)
  deriving DecidableEq, Repr, Inhabited

/-- Attach documentation where it is meant for. -/
def annotate (schema : Schema) : Note → Except Error Schema
  | .forType typeName doc => schema.annotateType typeName doc
  | .forElement typeName elementName doc => schema.annotateElement typeName elementName doc
  | .forAttribute typeName attributeName doc =>
      schema.annotateAttribute typeName attributeName doc

/-- Attach one after the other; a note that is refused changes nothing. -/
def annotateAll (schema : Schema) (notes : List Note) : Schema :=
  notes.foldl (fun schema note => (schema.annotate note).toOption.getD schema) schema

theorem map_modify_of_eq {α β : Type} (project : α → β) {change : α → α}
    (same : ∀ a, project (change a) = project a) (entries : List α) (index : Nat) :
    (entries.modify index change).map project = entries.map project := by
  apply List.ext_getElem?
  intro place
  rw [List.getElem?_map, List.getElem?_map, List.getElem?_modify]
  cases entries[place]? with
  | none => rfl
  | some entry =>
      show some (project (if index = place then change entry else entry)) = _
      split
      · rw [same]
        rfl
      · rfl

/-- A note that is taken leaves everything but documentation as it was. -/
theorem undocumented_annotate {schema after : Schema} {note : Note}
    (taken : schema.annotate note = .ok after) : after.undocumented = schema.undocumented := by
  cases note with
  | forType typeName doc =>
      simp only [annotate, annotateType] at taken
      split at taken
      · cases taken
      · split at taken
        · cases taken
        · cases taken
          have same (type : TypeDef) : (type.document doc).undocumented = type.undocumented := by
            cases type <;> rfl
          simp [undocumented, map_modify_of_eq _ same]
  | forElement typeName elementName doc =>
      simp only [annotate, annotateElement] at taken
      split at taken
      · cases taken
      · split at taken
        · cases taken
        · cases taken
          have same (decl : ElementDecl) :
              { decl with documentation := some doc }.undocumented = decl.undocumented := rfl
          simp [undocumented, map_modify_of_eq _ same]
  | forAttribute typeName attributeName doc =>
      simp only [annotate, annotateAttribute] at taken
      split at taken
      · cases taken
      · split at taken
        · cases taken
        · cases taken
          have same (decl : AttributeDecl) :
              { decl with documentation := some doc }.undocumented = decl.undocumented := rfl
          simp [undocumented, map_modify_of_eq _ same]

theorem undocumented_annotateAll (schema : Schema) (notes : List Note) :
    (schema.annotateAll notes).undocumented = schema.undocumented := by
  induction notes generalizing schema with
  | nil => rfl
  | cons note notes ih =>
      show (annotateAll ((schema.annotate note).toOption.getD schema) notes).undocumented = _
      rw [ih]
      cases taken : schema.annotate note with
      | error cause => rfl
      | ok after => exact undocumented_annotate taken

end Schema

/-- **Documentation is inert.**  Let two schemas be the same but for documentation.  Every text
is followed in the same way against both, and engines without hooks replace as many characters
and offer the same insertions in the same order.  So no notes, taken or refused, change what
is offered. -/
theorem documentation_is_inert (one other : Schema)
    (same : one.undocumented = other.undocumented) (options : Options) (text : String) :
    ofText one text = ofText other text ∧
      ((Engine.mk one options {}).suggest text).shape =
        ((Engine.mk other options {}).suggest text).shape ∧
      ∀ notes, ((Engine.mk (one.annotateAll notes) options {}).suggest text).shape =
        ((Engine.mk one options {}).suggest text).shape := by
  refine ⟨?_, ?_, fun notes => ?_⟩
  · rw [← ofText_undocumented one, same, ofText_undocumented]
  · rw [← shape_suggest_undocumented one, same, shape_suggest_undocumented]
  · rw [← shape_suggest_undocumented (one.annotateAll notes), undocumented_annotateAll,
      shape_suggest_undocumented]

/-- Notes on a type and on an element; the last one is refused. -/
def letterNotes : List Note :=
  [.forType "Letter" { title := some "A letter" },
    .forElement "Letter" "note" { description := some "A letter in a letter" },
    .forType "Letter" { title := some "Twice" }]

/-- The notes change what is shown beside an offer, and nothing else. -/
theorem letters_documentation_is_inert :
    (letters.annotateAll letterNotes).undocumented = letters.undocumented ∧
      (Engine.mk (letters.annotateAll letterNotes) {} {}).suggest "<letter><greeting/><" ≠
        (Engine.mk letters {} {}).suggest "<letter><greeting/><" ∧
      ((Engine.mk (letters.annotateAll letterNotes) {} {}).suggest
          "<letter><greeting/><").shape =
        ((Engine.mk letters {} {}).suggest "<letter><greeting/><").shape := by
  have same : (letters.annotateAll letterNotes).undocumented = letters.undocumented := by
    decide +kernel
  exact ⟨same, by decide +kernel, (documentation_is_inert _ letters same {} _).2.1⟩

end ContentAssist
