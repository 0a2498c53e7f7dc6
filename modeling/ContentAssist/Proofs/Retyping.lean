/-
# ContentAssist.Proofs.Retyping -- a type that is offered takes effect

While the type attribute of a tag is being typed it is passed over, so the element has its
declared type, and the types offered are the named ones whose base that is.  Once a name has
been put in and the tag has closed, the name is looked up among all types, and the type found
counts if it derives from the declared one.  The two ways agree: where type names are distinct
the lookup finds the very type that was offered (`findType?_of_mem_derivedTypes`), and one step
up its chain of bases is the declared type, whatever circles the chain runs into after that.

* `exists_value_opened`: a value that is being typed can be taken back to its quote; what has
  closed before it stays.
* `reads_valueEnd`: another value, its quote and a bracket close the tag.
* `offered_type_takes_effect` puts the two together.
-/
import ContentAssist.Proofs.Inheritance
import ContentAssist.Proofs.Narrowing

namespace ContentAssist

set_option autoImplicit false

open Markup Schema Replay Completion

/-! ## Derived types -/

namespace Schema

variable {schema : Schema}

theorem mem_complexTypes_iff (id : TypeId) (type : ComplexType) :
    (id, type) ∈ schema.complexTypes ↔ schema.complex? id = some type := by
  simp only [complexTypes, List.mem_filterMap, Prod.exists, List.mem_zipIdx_iff_getElem?,
    Option.map_eq_some_iff, Prod.mk.injEq, complex?, type?, Option.bind_eq_some_iff]
  constructor
  · rintro ⟨decl, place, found, _, isComplex, rfl, rfl⟩
    exact ⟨decl, found, isComplex⟩
  · rintro ⟨decl, found, isComplex⟩
    exact ⟨decl, id, found, type, isComplex, rfl, rfl⟩

theorem mem_derivedTypes_iff (base id : TypeId) (type : ComplexType) :
    (id, type) ∈ schema.derivedTypes base ↔
      schema.complex? id = some type ∧ type.base = some base := by
  rw [derivedTypes, List.mem_filter, mem_complexTypes_iff]
  simp

theorem name_of_complex? {id : TypeId} {type : ComplexType} {name : String}
    (complex : schema.complex? id = some type) (named : type.name = some name) :
    TypeNamed schema id name := by
  obtain ⟨decl, found, isComplex⟩ := Option.bind_eq_some_iff.mp complex
  cases decl with
  | simple other => cases isComplex
  | complex other =>
      cases isComplex
      exact ⟨_, found, named⟩

/-- **The name of a derived type finds it**, where type names are distinct. -/
theorem findType?_of_mem_derivedTypes (distinct : (schema.types.filterMap TypeDef.name).Nodup)
    {base id : TypeId} {type : ComplexType} {name : String}
    (derived : (id, type) ∈ schema.derivedTypes base) (named : type.name = some name) :
    schema.findType? name = some id := by
  obtain ⟨complex, -⟩ := (mem_derivedTypes_iff base id type).mp derived
  exact (findType?_eq_some_iff distinct id name).mpr (name_of_complex? complex named)

theorem derives_of_mem_derivedTypes {base id : TypeId} {type : ComplexType}
    (derived : (id, type) ∈ schema.derivedTypes base) : Derives schema id base := by
  obtain ⟨complex, direct⟩ := (mem_derivedTypes_iff base id type).mp derived
  have declared : schema.base? id = some base := by simp [base?, complex, direct]
  exact .base declared (.refl base)

/-- No type has an attribute that is not declared. -/
theorem findAttributeUse?_eq_none {name : String}
    (undeclared : ∀ decl ∈ schema.attributes, decl.name ≠ name) (type : TypeId) :
    schema.findAttributeUse? type name = none := by
  rw [findAttributeUse?, attributeUses, find?_nearest, List.find?_eq_none]
  intro use inherited same
  simp only [declaredAttributes, List.mem_filterMap, Option.map_eq_some_iff] at inherited
  obtain ⟨id, -, decl, found, rfl⟩ := inherited
  exact undeclared decl (List.mem_of_getElem? found) (by simpa using same)

end Schema

/-! ## The type attribute -/

/-- An attribute that is being typed leaves the element its declared type. -/
theorem effectiveType_of_current (schema : Schema) (declared : TypeId) {tag : StartTag}
    (typing : tag.current = some typeAttribute) :
    effectiveType schema declared tag = declared := by
  simp [effectiveType, StartTag.completedValue?, typing]

/-- Once a derived type has been named, it is the type of the element. -/
theorem effectiveType_of_mem_derivedTypes {schema : Schema}
    (distinct : (schema.types.filterMap TypeDef.name).Nodup) {declared id : TypeId}
    {type : ComplexType} {name : String} (derived : (id, type) ∈ schema.derivedTypes declared)
    (named : type.name = some name) {tag : StartTag}
    (given : tag.completedValue? typeAttribute = some name) :
    effectiveType schema declared tag = id := by
  obtain ⟨complex, -⟩ := (mem_derivedTypes_iff declared id type).mp derived
  apply effectiveType_eq distinct
  left
  refine ⟨name, given, name_of_complex? complex named, ?_, derives_of_mem_derivedTypes derived⟩
  rw [complex]
  rfl

/-- The values offered for the type attribute are the names of the derived types. -/
theorem Completion.exists_derived_of_offered {schema : Schema}
    (undeclared : ∀ decl ∈ schema.attributes, decl.name ≠ typeAttribute) {hooks : Hooks}
    {replay : Replay} {top : OpenElement} (inside : replay.top? = some top) {tag : StartTag}
    (typing : tag.current = some typeAttribute) {quote : Option Quote} {suggestion : Suggestion}
    (offered : suggestion ∈ (attributeValueOffers schema hooks replay tag quote).suggestions) :
    ∃ id type, (id, type) ∈ schema.derivedTypes top.type ∧ type.name = some suggestion.text := by
  have declared : declaredAttributeValues schema hooks replay top typeAttribute = [] := by
    rw [declaredAttributeValues, findAttributeUse?_eq_none undeclared]
  have instances : instanceValues schema top typeAttribute = derivedTypeNames schema top.type := by
    simp [instanceValues, typeAttribute, namespaceAttribute]
  simp only [attributeValueOffers, inside, typing, Option.getD_some, declared, instances,
    List.nil_append] at offered
  obtain ⟨candidate, matched, rfl⟩ := List.mem_map.mp offered
  have listed := List.mem_of_mem_filter matched
  simp only [derivedTypeNames, List.mem_filterMap, Option.map_eq_some_iff, Prod.exists] at listed
  obtain ⟨id, type, derived, name, named, rfl⟩ := listed
  exact ⟨id, type, derived, named⟩

/-! ## Putting a value in -/

namespace Markup

/-- In a value a character has just opened it, or is one more of it. -/
theorem read_eq_value {mode : Mode} {c : Char} {tag : OpenTag} {name : String} {quote : Quote}
    {typed : List Char} (inValue : (mode.read c).mode = .value tag name quote typed) :
    (mode.read c).closed = none ∧
      (typed = [] ∨ ∃ older, typed = c :: older ∧ mode = .value tag name quote older) := by
  cases mode with
  | equals other key last =>
      simp only [Mode.read] at inValue ⊢
      split at inValue
      · cases inValue
      · rename_i bracket
        rw [if_neg bracket]
        split at inValue
        · rename_i opened found
          cases inValue
          exact ⟨rfl, .inl rfl⟩
        · cases inValue
  | value other key mark older =>
      simp only [Mode.read] at inValue ⊢
      split at inValue
      · cases inValue
      · rename_i inside
        rw [if_neg inside]
        cases inValue
        exact ⟨rfl, .inr ⟨older, rfl, rfl⟩⟩
  | _ =>
      simp only [Mode.read, readContent, readStartName, readEndName] at inValue
      repeat' split at inValue
      all_goals cases inValue

/-- A value that is being typed, taken back to its quote. -/
theorem exists_value_opened {tag : OpenTag} {name : String} {quote : Quote} {typed : List Char}
    {cs : List Char} (mode : modeAfter .fresh cs = .value tag name quote typed) :
    ∃ front, cs = front ++ typed.reverse ∧
      Reads .fresh front (closedEvents .fresh cs) (.value tag name quote []) := by
  induction cs using List.reverseRecOn generalizing typed with
  | nil => cases mode
  | append_singleton cs c ih =>
      have inValue := mode
      rw [modeAfter_append, modeAfter_cons, modeAfter_nil] at inValue
      obtain ⟨quiet, rfl | ⟨older, rfl, before⟩⟩ := read_eq_value inValue
      · exact ⟨cs ++ [c], by simp, rfl, mode⟩
      · obtain ⟨front, whole, reads⟩ := ih before
        refine ⟨front, by simp [whole], ?_⟩
        rw [closedEvents_append, closedEvents_cons, quiet]
        simpa using reads

/-- A value, its quote and a bracket close the tag. -/
theorem reads_valueEnd (tag : OpenTag) (name : String) (quote : Quote) {value : String}
    (unquoted : quote.char ∉ value.toList) :
    Reads (.value tag name quote []) (value.toList ++ [quote.char, '>'])
      [.startTag { name := tag.name, attributes := tag.attributes.insert name (.value value) }]
      .content := by
  have valued : Reads (.value tag name quote []) value.toList []
      (.value tag name quote (value.toList.reverse ++ [])) := by
    refine Reads.collect (.value tag name quote) (fun c listed typed => ?_) []
    have inside : c ≠ quote.char := fun same => unquoted (same ▸ listed)
    simp [Mode.read, inside]
  have slash : (quote.char == '/') = false := by cases quote <;> rfl
  refine valued.append (.cons (.between ⟨tag.name, tag.attributes.insert name (.value value)⟩
    quote.char) ?_ (.last ?_))
  · simp [Mode.read, spell_reverse]
  · simp [Mode.read, OpenTag.close, slash]

/-- The text with the value that is being typed replaced by another, and the tag closed. -/
theorem reads_replacedValue {text : String} {tag : OpenTag} {name : String} {quote : Quote}
    {typed : List Char} (mode : modeAfter .fresh text.toList = .value tag name quote typed)
    {value : String} (unquoted : quote.char ∉ value.toList) :
    Reads .fresh
      (Text.replaceLast text typed.length (value ++ String.singleton quote.char ++ ">")).toList
      (closedEvents .fresh text.toList ++
        [.startTag { name := tag.name, attributes := tag.attributes.insert name (.value value) }])
      .content := by
  obtain ⟨front, whole, reads⟩ := exists_value_opened mode
  have kept : text.toList.take (text.toList.length - typed.length) = front := by
    rw [whole, List.length_append, List.length_reverse, Nat.add_sub_cancel, List.take_left]
  have replaced :
      (Text.replaceLast text typed.length (value ++ String.singleton quote.char ++ ">")).toList =
        front ++ (value.toList ++ [quote.char, '>']) := by
    rw [Text.replaceLast, String.toList_ofList, kept]
    simp
  rw [replaced]
  exact reads.append (reads_valueEnd tag name quote unquoted)

/-- Where the current attribute's value is being typed, the mode holds it. -/
theorem modeAfter_of_value {text : String} {quote : Quote} {tag : StartTag} {name : String}
    (caret : caretOf text = .inAttributeValue quote)
    (last : (events text).getLast? = some (.startTag tag)) (current : tag.current = some name) :
    ∃ opened typed, modeAfter .fresh text.toList = .value opened name quote typed := by
  rw [caretOf] at caret
  cases mode : modeAfter .fresh text.toList with
  | value opened key mark typed =>
      rw [@getLast?_events text _ (by rw [mode]; rfl)] at last
      rw [mode] at caret
      cases caret
      cases last
      cases current
      exact ⟨opened, typed, rfl⟩
  | _ => simp [mode, Mode.caret] at caret

end Markup

/-- A value that is being typed belongs to the last start tag. -/
theorem ofText_of_value (schema : Schema) {text : String} {tag : OpenTag} {name : String}
    {quote : Quote} {typed : List Char}
    (mode : modeAfter .fresh text.toList = .value tag name quote typed) :
    ofText schema text =
      (runClosed schema {} (closedEvents .fresh text.toList)).step schema
        (.startTag
          { name := tag.name
            attributes := tag.attributes.insert name (.value (spell typed))
            current := some name })
        (.inAttributeValue quote) := by
  rw [ofText_eq_settle, Reading.read, mode]
  rfl

/-- With another value put in and the tag closed, that tag comes last. -/
theorem ofText_replacedValue (schema : Schema) {text : String} {tag : OpenTag} {name : String}
    {quote : Quote} {typed : List Char}
    (mode : modeAfter .fresh text.toList = .value tag name quote typed) {value : String}
    (unquoted : quote.char ∉ value.toList) :
    ofText schema
        (Text.replaceLast text typed.length (value ++ String.singleton quote.char ++ ">")) =
      (runClosed schema {} (closedEvents .fresh text.toList)).step schema
        (.startTag { name := tag.name, attributes := tag.attributes.insert name (.value value) })
        .inText := by
  rw [ofText_eq_settle, Reading.read_of_reads (reads_replacedValue mode unquoted),
    runClosed_append]
  rfl

/-- The innermost open element has taken on the complex type of this name, the base of which is
the type that the element is declared with. -/
structure Replay.TakesType (schema : Schema) (before after : Replay) (name : String) : Prop where
  agrees : after.Agrees
  depth : after.depth = before.depth
  retyped : ∃ earlier top decl type, before.top? = some earlier ∧ after.top? = some top ∧
    top.element = earlier.element ∧ schema.element? top.element = some decl ∧
    schema.findType? name = some top.type ∧ schema.complex? top.type = some type ∧
    type.name = some name ∧ type.base = some decl.type

/-- A tag that names a type, in place of one whose type attribute is being typed. -/
theorem takesType_of_derived {schema : Schema}
    (distinct : (schema.types.filterMap TypeDef.name).Nodup) {closed : Replay}
    {typed chosen : StartTag} {caret : Caret}
    (agrees : (closed.step schema (.startTag typed) caret).Agrees) (past : caret ≠ .inStartName)
    (typing : typed.current = some typeAttribute) (unclosed : typed.selfClosing = false)
    (sameName : chosen.name = typed.name) (stays : chosen.selfClosing = false) {name : String}
    (given : chosen.completedValue? typeAttribute = some name) {before : OpenElement}
    (inside : (closed.step schema (.startTag typed) caret).top? = some before) {id : TypeId}
    {type : ComplexType} (derived : (id, type) ∈ schema.derivedTypes before.type)
    (named : type.name = some name) :
    TakesType schema (closed.step schema (.startTag typed) caret)
      (closed.step schema (.startTag chosen) .inText) name := by
  obtain ⟨going, admitted⟩ := (agrees_step_startTag schema closed typed caret).mp agrees
  have admits := admitted.resolve_left past
  -- both tags open the same element, the first with its declared type
  obtain ⟨element, decl, below, declared, -, entry⟩ := exists_entryOf going admits
  obtain ⟨stack, -⟩ := entry typed caret rfl unclosed past
  obtain ⟨laterStack, -⟩ := entry chosen .inText sameName stays (by simp)
  obtain rfl : entryOf schema closed element decl typed = before := by
    simpa [top?, stack] using inside
  have fromDeclared : (id, type) ∈ schema.derivedTypes decl.type := by
    simpa only [entryOf, effectiveType_of_current schema decl.type typing] using derived
  obtain ⟨complex, direct⟩ := (mem_derivedTypes_iff decl.type id type).mp fromDeclared
  have taken : (entryOf schema closed element decl chosen).type = id :=
    effectiveType_of_mem_derivedTypes distinct fromDeclared named given
  refine ⟨?_, ?_, ?_⟩
  · rw [agrees_step_startTag, sameName]
    exact ⟨going, .inr admits⟩
  · rw [depth, depth, stack, laterStack]
    rfl
  · refine ⟨_, entryOf schema closed element decl chosen, decl, type, inside, ?_, rfl, declared,
      ?_, ?_, named, direct⟩
    · rw [top?, laterStack]
      rfl
    · rw [taken]
      exact findType?_of_mem_derivedTypes distinct fromDeclared named
    · rw [taken]
      exact complex

/-- **Every type that is offered takes effect.**  Let type names be distinct and let no attribute
be declared with the name of the type attribute.  While a value of the type attribute is being
typed and nothing disagrees so far, put in any value that is offered, unless the open quote
occurs in it, and close the quote and the tag.  Nothing disagrees then either, as many elements
are open as before, and the innermost one, which is the same element, has the complex type of
that name; the base of this type is the type that the element is declared with. -/
theorem offered_type_takes_effect (engine : Engine)
    (distinct : (engine.schema.types.filterMap TypeDef.name).Nodup)
    (undeclared : ∀ decl ∈ engine.schema.attributes, decl.name ≠ typeAttribute) (text : String)
    (agrees : (ofText engine.schema text).Agrees) (quote : Quote)
    (caret : caretOf text = .inAttributeValue quote) (tag : StartTag)
    (last : (events text).getLast? = some (.startTag tag))
    (typing : tag.current = some typeAttribute) (suggestion : Suggestion)
    (offered : suggestion ∈ (engine.suggest text).suggestions)
    (unquoted : quote.char ∉ suggestion.text.toList) :
    TakesType engine.schema (ofText engine.schema text)
      (ofText engine.schema (Text.replaceLast text (engine.suggest text).length
        (suggestion.text ++ String.singleton quote.char ++ ">")))
      suggestion.text := by
  obtain ⟨opened, typed, mode⟩ := modeAfter_of_value caret last typing
  have length : (engine.suggest text).length = typed.length := by
    have elsewhere : caretOf text ≠ .inEndTag := by simp [caret]
    rw [(continues_fragmentOf elsewhere offered).1, fragmentOf, mode, length_spell]
    rfl
  rw [suggest_of_isClean ⟨agrees.1, .inl agrees.2⟩, mode] at offered
  rw [length, ofText_replacedValue engine.schema mode unquoted]
  rw [ofText_of_value engine.schema mode] at agrees offered ⊢
  generalize runClosed engine.schema {} (closedEvents .fresh text.toList) = closed
    at agrees offered ⊢
  -- some element is open: the one that the tag has opened
  obtain ⟨before, inside⟩ : ∃ before, (closed.step engine.schema (.startTag
      { name := opened.name
        attributes := opened.attributes.insert typeAttribute (.value (spell typed))
        current := some typeAttribute }) (.inAttributeValue quote)).top? = some before := by
    cases inside : (closed.step engine.schema _ (.inAttributeValue quote)).top? with
    | some before => exact ⟨before, rfl⟩
    | none => simp [Engine.offersIn, attributeValueOffers, inside] at offered
  obtain ⟨id, type, derived, named⟩ := exists_derived_of_offered undeclared inside rfl offered
  refine takesType_of_derived distinct agrees ?_ rfl rfl ?_ ?_ ?_ inside derived named
  · simp
  · rfl
  · rfl
  · simp [StartTag.completedValue?, Attributes.text?, AttributeValue.text?]

/-- A parcel may be freight, and the two types derive from each other. -/
def circles : Schema where
  types :=
    [.complex { name := some "Parcel", base := some 1 },
      .complex { name := some "Freight", base := some 0, content := .simple 2 },
      .simple { name := some "Word" }]
  elements := [{ name := "parcel", type := 0 }]
  globals := [0]

/-- A type that is given again, where the chain of bases is a circle. -/
theorem circles_offered_type_takes_effect :
    (⟨.attributeValue "Freight" false .single, {}⟩ : Suggestion) ∈
      ((Engine.mk circles {} {}).suggest "<parcel xsi:type=\"Parcel\" xsi:type='Fr").suggestions ∧
    TakesType circles (ofText circles "<parcel xsi:type=\"Parcel\" xsi:type='Fr")
      (ofText circles (Text.replaceLast "<parcel xsi:type=\"Parcel\" xsi:type='Fr"
        ((Engine.mk circles {} {}).suggest "<parcel xsi:type=\"Parcel\" xsi:type='Fr").length
        ("Freight" ++ String.singleton Quote.single.char ++ ">")))
      "Freight" := by
  have offered : (⟨.attributeValue "Freight" false .single, {}⟩ : Suggestion) ∈
      ((Engine.mk circles {} {}).suggest
        "<parcel xsi:type=\"Parcel\" xsi:type='Fr").suggestions := by decide +kernel
  have agrees : (ofText circles "<parcel xsi:type=\"Parcel\" xsi:type='Fr").Agrees := by
    decide +kernel
  have caret : caretOf "<parcel xsi:type=\"Parcel\" xsi:type='Fr" =
      .inAttributeValue .single := by decide +kernel
  have last : (events "<parcel xsi:type=\"Parcel\" xsi:type='Fr").getLast? = some (.startTag
      { name := "parcel"
        attributes := ⟨[("xsi:type", .value "Fr")]⟩
        current := some "xsi:type" }) := by decide +kernel
  have distinct : (circles.types.filterMap TypeDef.name).Nodup := by decide +kernel
  have undeclared : ∀ decl ∈ circles.attributes, decl.name ≠ typeAttribute := by
    intro decl listed
    cases listed
  have unquoted : Quote.single.char ∉ "Freight".toList := by decide +kernel
  have taken := offered_type_takes_effect ⟨circles, {}, {}⟩ distinct undeclared _ agrees .single
    caret _ last rfl _ offered unquoted
  have named : Suggestion.text ⟨.attributeValue "Freight" false .single, {}⟩ = "Freight" := rfl
  rw [named] at taken
  exact ⟨offered, taken⟩

end ContentAssist
