/-
# ContentAssist.Proofs.Documenting -- documentation is attached once, or not at all

A note names a type, and perhaps an element or an attribute inside it.  Names need not be unique
and references need not lead anywhere, so this module first says, without any of the library's
searches, which slot a note is meant for (`MeantFor`) and in which cases it is meant for none
(`Misses`).  Every note is one or the other (`meantFor_or_misses`), and the library finds out
just that (`resolve_of_meantFor`, `resolve_of_misses`).

* A note that is taken fills the slot it is meant for, which was empty, and changes nothing
  else (`Fills`).  All others are refused, each for the first reason there is (`Refused`).
* In place, a call comes to the same, and one that is refused has written nothing: a slot that
  is meant is there, so no call ever comes to a declaration that is not (`callOn_inPlace`).
* Documentation decides no lookup.  So whatever notes come in between, a note is meant for the
  same slot when it comes again, and the slot still holds what it held (`read_annotateAll`).

`notes_fill_one_slot` puts these together.
-/
import ContentAssist.Proofs.Inheritance
import ContentAssist.Proofs.Undocumented
import ContentAssist.Schema.Setup

namespace ContentAssist.Schema

set_option autoImplicit false

variable {schema : Schema} {note : Note} {slot : Slot}

/-! ## Filling a slot -/

theorem map_getElem?_modify {α : Type} {hold : α → Option Documentation} {change : α → α}
    {doc : Documentation} (written : ∀ a, hold (change a) = some doc) (entries : List α)
    (index place : Nat) :
    ((entries.modify index change)[place]?).map hold =
      (entries[place]?.map hold).map fun held => if place = index then some doc else held := by
  rw [List.getElem?_modify, Option.map_map]
  cases entries[place]? with
  | none => rfl
  | some entry =>
      by_cases same : index = place
      · simp [same, written]
      · simp [same, Ne.symm same]

/-- A slot that is there holds what it is filled with, and no other slot is touched. -/
theorem read_fill (schema : Schema) (slot other : Slot) (doc : Documentation) :
    other.read (slot.fill schema doc) =
      (other.read schema).map fun held => if other = slot then some doc else held := by
  cases slot with
  | ofType id =>
      have written (type : TypeDef) : (type.document doc).documentation = some doc := by
        cases type <;> rfl
      cases other with
      | ofType place =>
          simp only [Slot.ofType.injEq]
          exact map_getElem?_modify written schema.types id place
      | ofElement | ofAttribute =>
          simp only [reduceCtorEq, if_false, Option.map_id_fun']
          rfl
  | ofElement id =>
      have written (decl : ElementDecl) :
          { decl with documentation := some doc }.documentation = some doc := rfl
      cases other with
      | ofElement place =>
          simp only [Slot.ofElement.injEq]
          exact map_getElem?_modify written schema.elements id place
      | ofType | ofAttribute =>
          simp only [reduceCtorEq, if_false, Option.map_id_fun']
          rfl
  | ofAttribute id =>
      have written (decl : AttributeDecl) :
          { decl with documentation := some doc }.documentation = some doc := rfl
      cases other with
      | ofAttribute place =>
          simp only [Slot.ofAttribute.injEq]
          exact map_getElem?_modify written schema.attributes id place
      | ofType | ofElement =>
          simp only [reduceCtorEq, if_false, Option.map_id_fun']
          rfl

/-- One slot was empty and is filled, and that is all the difference. -/
structure Fills (before : Schema) (slot : Slot) (doc : Documentation) (after : Schema) : Prop where
  free : slot.read before = some none
  filled : after = slot.fill before doc
  reads : ∀ other : Slot,
    other.read after = if other = slot then some (some doc) else other.read before

theorem fills_of_free (free : slot.read schema = some none) (doc : Documentation) :
    Fills schema slot doc (slot.fill schema doc) := by
  refine ⟨free, rfl, ?_⟩
  intro other
  rw [read_fill]
  split
  · rename_i same
    rw [same, free]
    rfl
  · exact Option.map_id_apply

/-! ## What a note is meant for -/

namespace Note

/-- The type that a note names. -/
def typeName : Note → String
  | forType typeName _ | forElement typeName _ _ | forAttribute typeName _ _ => typeName

/-- What a note says it documents. -/
def subject : Note → Subject
  | forType typeName _ => .typeNamed typeName
  | forElement _ elementName _ => .elementNamed elementName
  | forAttribute _ attributeName _ => .attributeNamed attributeName

def doc : Note → Documentation
  | forType _ doc | forElement _ _ doc | forAttribute _ _ doc => doc

/-- The note is for something inside the type. -/
def IsInner : Note → Prop
  | forType _ _ => False
  | _ => True

end Note

/-- The type at a position is the first with a name. -/
structure FirstNamed (schema : Schema) (name : String) (id : TypeId) (type : TypeDef) : Prop where
  there : schema.types[id]? = some type
  named : type.name = some name
  first : ∀ (earlier : TypeId) (other : TypeDef), earlier < id →
    schema.types[earlier]? = some other → other.name ≠ some name

/-- The member has a property that none before it has. -/
def IsFirst {α : Type} (property : α → Prop) (entries : List α) (a : α) : Prop :=
  ∃ front back, entries = front ++ a :: back ∧ property a ∧ ∀ b ∈ front, ¬ property b

/-- Particles mention these elements, in this order: one after the other, and the alternatives
of a nested choice where it stands. -/
inductive Mentions : List Particle → List ElementId → Prop
  | nil : Mentions [] []
  | element {rest : List Particle} {ids : List ElementId} (id : ElementId) (occurs : Occurs)
      (later : Mentions rest ids) : Mentions (⟨.element id, occurs⟩ :: rest) (id :: ids)
  | choice {rest : List Particle} {ids : List ElementId} (group : Choice) (occurs : Occurs)
      (later : Mentions rest ids) :
      Mentions (⟨.choice group, occurs⟩ :: rest) (group.alternatives ++ ids)

/-- Content lists these elements, in this order. -/
inductive Content.Lists : Content → List ElementId → Prop
  | sequence {group : Sequence} {ids : List ElementId} (mentioned : Mentions group.particles ids) :
      Lists (.sequence group) ids
  | choice (group : Choice) : Lists (.choice group) group.alternatives

/-- Content of the two kinds whose elements come in an order. -/
def Content.IsOrdered : Content → Prop
  | .sequence _ | .choice _ => True
  | .empty | .simple _ | .all _ => False

/-- The slot that a note is meant for: that of the first type with the name; of the first
element of its content that exists and has the name; or of the nearest attribute with the name
along its line. -/
inductive MeantFor (schema : Schema) : Note → Slot → Prop
  | ofType {typeName : String} {doc : Documentation} {id : TypeId} {type : TypeDef}
      (named : FirstNamed schema typeName id type) :
      MeantFor schema (.forType typeName doc) (.ofType id)
  | ofElement {typeName elementName : String} {doc : Documentation} {id : TypeId}
      {type : ComplexType} {candidates : List ElementId} {element : ElementId}
      (named : FirstNamed schema typeName id (.complex type))
      (listed : type.content.Lists candidates)
      (first : IsFirst (fun id => schema.elementName? id = some elementName) candidates element) :
      MeantFor schema (.forElement typeName elementName doc) (.ofElement element)
  | ofAttribute {typeName attributeName : String} {doc : Documentation} {id : TypeId}
      {type : ComplexType} {use : AttributeId × AttributeDecl}
      (named : FirstNamed schema typeName id (.complex type))
      (first : IsFirst (fun use => use.2.name = attributeName) (schema.lineAttributes id) use) :
      MeantFor schema (.forAttribute typeName attributeName doc) (.ofAttribute use.1)

/-- Why a note is meant for no slot. -/
inductive Misses (schema : Schema) : Note → Error → Prop
  | unknownType {note : Note}
      (unnamed : ∀ type ∈ schema.types, type.name ≠ some note.typeName) :
      Misses schema note (.unknownType note.typeName)
  | notComplex {note : Note} {id : TypeId} {type : SimpleType} (inner : note.IsInner)
      (named : FirstNamed schema note.typeName id (.simple type)) :
      Misses schema note (.notComplex note.typeName)
  | unsupportedContent {typeName elementName : String} {doc : Documentation} {id : TypeId}
      {type : ComplexType} (named : FirstNamed schema typeName id (.complex type))
      (other : ¬ type.content.IsOrdered) :
      Misses schema (.forElement typeName elementName doc) (.unsupportedContent typeName)
  | unknownElement {typeName elementName : String} {doc : Documentation} {id : TypeId}
      {type : ComplexType} {candidates : List ElementId}
      (named : FirstNamed schema typeName id (.complex type))
      (listed : type.content.Lists candidates)
      (absent : ∀ id ∈ candidates, schema.elementName? id ≠ some elementName) :
      Misses schema (.forElement typeName elementName doc)
        (.unknownElement elementName typeName)
  | unknownAttribute {typeName attributeName : String} {doc : Documentation} {id : TypeId}
      {type : ComplexType} (named : FirstNamed schema typeName id (.complex type))
      (absent : ∀ use ∈ schema.lineAttributes id, use.2.name ≠ attributeName) :
      Misses schema (.forAttribute typeName attributeName doc)
        (.unknownAttribute attributeName typeName)

/-- Why a note is refused: it is meant for no slot, or for one that is taken. -/
inductive Refused (schema : Schema) (note : Note) : Error → Prop
  | misses {error : Error} (misses : Misses schema note error) : Refused schema note error
  | taken {slot : Slot} {held : Documentation} (meant : MeantFor schema note slot)
      (taken : slot.read schema = some (some held)) :
      Refused schema note (.alreadyDocumented note.subject)

/-! ## Finding the slot -/

theorem find?_eq_some_iff_isFirst {α : Type} {property : α → Prop} {test : α → Bool}
    (same : ∀ a, test a = true ↔ property a) (entries : List α) (a : α) :
    entries.find? test = some a ↔ IsFirst property entries a := by
  rw [List.find?_eq_some_iff_append, IsFirst]
  constructor
  · rintro ⟨holds, front, back, split, before⟩
    refine ⟨front, back, split, (same a).mp holds, ?_⟩
    intro b listed holds
    have fails := before b listed
    rw [(same b).mpr holds] at fails
    cases fails
  · rintro ⟨front, back, split, holds, before⟩
    refine ⟨(same a).mpr holds, front, back, split, ?_⟩
    intro b listed
    rw [Bool.not_eq_true', ← Bool.not_eq_true, same]
    exact before b listed

theorem mentions_flatMap (particles : List Particle) :
    Mentions particles (particles.flatMap fun particle => particle.term.elements) := by
  induction particles with
  | nil => exact .nil
  | cons particle rest ih =>
      obtain ⟨term, occurs⟩ := particle
      cases term with
      | element id => exact .element id occurs ih
      | choice group => exact .choice group occurs ih

theorem Mentions.eq_flatMap {particles : List Particle} {ids : List ElementId}
    (mentioned : Mentions particles ids) :
    ids = particles.flatMap fun particle => particle.term.elements := by
  induction mentioned with
  | nil => rfl
  | element id occurs later ih => simp [Term.elements, ih]
  | choice group occurs later ih => simp [Term.elements, ih]

theorem candidates?_eq_some_iff (content : Content) (ids : List ElementId) :
    content.candidates? = some ids ↔ content.Lists ids := by
  constructor
  · intro listed
    cases content with
    | sequence group =>
        cases listed
        exact .sequence (mentions_flatMap group.particles)
    | choice group =>
        cases listed
        exact .choice group
    | empty | simple | all => cases listed
  · intro lists
    cases lists with
    | sequence mentioned => rw [mentioned.eq_flatMap, Content.candidates?]
    | choice group => rfl

theorem candidates?_eq_none_iff (content : Content) :
    content.candidates? = none ↔ ¬ content.IsOrdered := by
  cases content <;> simp [Content.candidates?, Content.IsOrdered]

theorem findNamed?_eq_some_iff_isFirst (candidates : List ElementId) (name : String)
    (element : ElementId) :
    schema.findNamed? candidates name = some element ↔
      IsFirst (fun id => schema.elementName? id = some name) candidates element :=
  find?_eq_some_iff_isFirst (fun _ => beq_iff_eq) candidates element

theorem findNamed?_eq_none_iff (candidates : List ElementId) (name : String) :
    schema.findNamed? candidates name = none ↔
      ∀ id ∈ candidates, schema.elementName? id ≠ some name := by
  simp [findNamed?, List.find?_eq_none]

theorem findAttributeUse?_eq_some_iff_isFirst (id : TypeId) (name : String)
    (use : AttributeId × AttributeDecl) :
    schema.findAttributeUse? id name = some use ↔
      IsFirst (fun use => use.2.name = name) (schema.lineAttributes id) use := by
  rw [findAttributeUse?_eq_find?]
  exact find?_eq_some_iff_isFirst (fun _ => beq_iff_eq) (schema.lineAttributes id) use

theorem findAttributeUse?_eq_none_iff (id : TypeId) (name : String) :
    schema.findAttributeUse? id name = none ↔
      ∀ use ∈ schema.lineAttributes id, use.2.name ≠ name := by
  simp [findAttributeUse?_eq_find?, List.find?_eq_none]

theorem findType?_eq_some_iff_firstNamed (name : String) (id : TypeId) :
    schema.findType? name = some id ↔ ∃ type, FirstNamed schema name id type := by
  rw [findType?, List.findIdx?_eq_some_iff_getElem]
  constructor
  · rintro ⟨inside, named, before⟩
    refine ⟨schema.types[id], List.getElem?_eq_getElem inside, by simpa using named, ?_⟩
    intro earlier other less place
    obtain ⟨_, rfl⟩ := List.getElem?_eq_some_iff.mp place
    simpa using before earlier less
  · rintro ⟨type, there, named, first⟩
    obtain ⟨inside, rfl⟩ := List.getElem?_eq_some_iff.mp there
    refine ⟨inside, by simpa using named, ?_⟩
    intro earlier less
    have before := first earlier _ less (List.getElem?_eq_getElem (Nat.lt_trans less inside))
    simpa using before

theorem findType?_eq_none_iff (name : String) :
    schema.findType? name = none ↔ ∀ type ∈ schema.types, type.name ≠ some name := by
  simp [findType?, List.findIdx?_eq_none_iff]

/-- Where a note's documentation goes, or why nowhere. -/
def resolve (schema : Schema) : Note → Except Error Slot
  | .forType typeName _ => (schema.requireType typeName).map .ofType
  | .forElement typeName elementName _ =>
      (schema.resolveElement typeName elementName).map .ofElement
  | .forAttribute typeName attributeName _ =>
      (schema.resolveAttribute typeName attributeName).map .ofAttribute

section Require

variable {name : String} {id : TypeId}

theorem requireType_of_unnamed (unnamed : ∀ type ∈ schema.types, type.name ≠ some name) :
    schema.requireType name = .error (.unknownType name) := by
  rw [requireType, (findType?_eq_none_iff name).mpr unnamed]

theorem FirstNamed.requireType {type : TypeDef} (named : FirstNamed schema name id type) :
    schema.requireType name = .ok id := by
  rw [Schema.requireType, (findType?_eq_some_iff_firstNamed name id).mpr ⟨type, named⟩]

theorem exists_type_of_requireType (found : schema.requireType name = .ok id) :
    ∃ type, schema.type? id = some type := by
  unfold Schema.requireType at found
  split at found
  · rename_i known
    cases found
    obtain ⟨type, named⟩ := (findType?_eq_some_iff_firstNamed _ _).mp known
    exact ⟨type, named.there⟩
  · cases found

theorem requireComplex_of_unnamed (unnamed : ∀ type ∈ schema.types, type.name ≠ some name) :
    schema.requireComplex name = .error (.unknownType name) := by
  rw [requireComplex, requireType_of_unnamed unnamed]

theorem FirstNamed.requireComplex {type : TypeDef} (named : FirstNamed schema name id type) :
    schema.requireComplex name =
      match type with
      | .simple _ => .error (.notComplex name)
      | .complex type => .ok (id, type) := by
  simp only [Schema.requireComplex, named.requireType, complex?, type?, named.there,
    Option.bind_some]
  cases type with
  | simple => rfl
  | complex => rfl

end Require

/-- **The slot that is meant is found.** -/
theorem resolve_of_meantFor (meant : MeantFor schema note slot) :
    schema.resolve note = .ok slot := by
  cases meant with
  | ofType named => simp [resolve, named.requireType, Except.map]
  | ofElement named listed first =>
      rw [← candidates?_eq_some_iff] at listed
      rw [← findNamed?_eq_some_iff_isFirst] at first
      simp [resolve, resolveElement, named.requireComplex, listed, first, Except.map]
  | ofAttribute named first =>
      rw [← findAttributeUse?_eq_some_iff_isFirst] at first
      simp [resolve, resolveAttribute, named.requireComplex, first, Except.map]

theorem resolve_of_inner {error : Error} (inner : note.IsInner)
    (refused : schema.requireComplex note.typeName = .error error) :
    schema.resolve note = .error error := by
  cases note with
  | forType => exact inner.elim
  | forElement =>
      rw [Note.typeName] at refused
      simp [resolve, resolveElement, refused, Except.map]
  | forAttribute =>
      rw [Note.typeName] at refused
      simp [resolve, resolveAttribute, refused, Except.map]

/-- **Where none is meant, the reason is found.** -/
theorem resolve_of_misses {error : Error} (misses : Misses schema note error) :
    schema.resolve note = .error error := by
  cases misses with
  | unknownType unnamed =>
      cases note with
      | forType => exact congrArg (Except.map Slot.ofType) (requireType_of_unnamed unnamed)
      | forElement | forAttribute =>
          exact resolve_of_inner trivial (requireComplex_of_unnamed unnamed)
  | notComplex inner named => exact resolve_of_inner inner named.requireComplex
  | unsupportedContent named other =>
      rw [← candidates?_eq_none_iff] at other
      simp [resolve, resolveElement, named.requireComplex, other, Except.map]
  | unknownElement named listed absent =>
      rw [← candidates?_eq_some_iff] at listed
      rw [← findNamed?_eq_none_iff] at absent
      simp [resolve, resolveElement, named.requireComplex, listed, absent, Except.map]
  | unknownAttribute named absent =>
      rw [← findAttributeUse?_eq_none_iff] at absent
      simp [resolve, resolveAttribute, named.requireComplex, absent, Except.map]

/-- Every note is meant for a slot, or there is a reason why not. -/
theorem meantFor_or_misses (schema : Schema) (note : Note) :
    (∃ slot, MeantFor schema note slot) ∨ ∃ error, Misses schema note error := by
  cases known : schema.findType? note.typeName with
  | none => exact .inr ⟨_, .unknownType ((findType?_eq_none_iff _).mp known)⟩
  | some id =>
      obtain ⟨type, named⟩ := (findType?_eq_some_iff_firstNamed _ id).mp known
      cases note with
      | forType typeName doc => exact .inl ⟨_, .ofType named⟩
      | forElement typeName elementName doc =>
          cases type with
          | simple type => exact .inr ⟨_, .notComplex trivial named⟩
          | complex type =>
              cases listed : type.content.candidates? with
              | none =>
                  rw [candidates?_eq_none_iff] at listed
                  exact .inr ⟨_, .unsupportedContent named listed⟩
              | some candidates =>
                  rw [candidates?_eq_some_iff] at listed
                  cases found : schema.findNamed? candidates elementName with
                  | none =>
                      rw [findNamed?_eq_none_iff] at found
                      exact .inr ⟨_, .unknownElement named listed found⟩
                  | some element =>
                      rw [findNamed?_eq_some_iff_isFirst] at found
                      exact .inl ⟨_, .ofElement named listed found⟩
      | forAttribute typeName attributeName doc =>
          cases type with
          | simple type => exact .inr ⟨_, .notComplex trivial named⟩
          | complex type =>
              cases found : schema.findAttributeUse? id attributeName with
              | none =>
                  rw [findAttributeUse?_eq_none_iff] at found
                  exact .inr ⟨_, .unknownAttribute named found⟩
              | some use =>
                  rw [findAttributeUse?_eq_some_iff_isFirst] at found
                  exact .inl ⟨_, .ofAttribute named found⟩

theorem attribute?_of_mem_lineAttributes {id : TypeId} {use : AttributeId × AttributeDecl}
    (listed : use ∈ schema.lineAttributes id) : schema.attribute? use.1 = some use.2 := by
  obtain ⟨type, -, own⟩ := List.mem_flatMap.mp listed
  obtain ⟨place, -, found⟩ := List.mem_filterMap.mp own
  obtain ⟨decl, declared, rfl⟩ := Option.map_eq_some_iff.mp found
  exact declared

/-- **A slot that is meant is there.** -/
theorem exists_read_of_meantFor (meant : MeantFor schema note slot) :
    ∃ held, slot.read schema = some held := by
  cases meant with
  | ofType named => exact ⟨_, congrArg (Option.map TypeDef.documentation) named.there⟩
  | ofElement named listed first =>
      obtain ⟨-, -, -, elementNamed, -⟩ := first
      obtain ⟨decl, declared, -⟩ := Option.map_eq_some_iff.mp elementNamed
      exact ⟨_, congrArg (Option.map ElementDecl.documentation) declared⟩
  | @ofAttribute _ _ _ id _ use named first =>
      obtain ⟨front, back, split, -, -⟩ := first
      have listed : use ∈ schema.lineAttributes id := by
        rw [split]
        simp
      have declared := attribute?_of_mem_lineAttributes listed
      exact ⟨_, congrArg (Option.map AttributeDecl.documentation) declared⟩

/-! ## Taking and refusing -/

/-- Every note is handled in one way: find the slot, see that it is free, fill it. -/
theorem annotate_eq (schema : Schema) (note : Note) :
    schema.annotate note =
      match schema.resolve note with
      | .error error => .error error
      | .ok slot =>
          match requireFree (slot.read schema).join note.subject with
          | .error error => .error error
          | .ok () => .ok (slot.fill schema note.doc) := by
  cases note with
  | forType typeName doc =>
      rw [annotate, annotateType, resolve]
      cases schema.requireType typeName with
      | error error => rfl
      | ok id =>
          dsimp only [Except.map, Slot.read]
          cases schema.type? id <;> rfl
  | forElement typeName elementName doc =>
      rw [annotate, annotateElement, resolve]
      cases schema.resolveElement typeName elementName with
      | error error => rfl
      | ok id =>
          dsimp only [Except.map, Slot.read]
          cases schema.element? id <;> rfl
  | forAttribute typeName attributeName doc =>
      rw [annotate, annotateAttribute, resolve]
      cases schema.resolveAttribute typeName attributeName with
      | error error => rfl
      | ok id =>
          dsimp only [Except.map, Slot.read]
          cases schema.attribute? id <;> rfl

theorem annotate_of_free (meant : MeantFor schema note slot) (free : slot.read schema = some none) :
    schema.annotate note = .ok (slot.fill schema note.doc) := by
  rw [annotate_eq, resolve_of_meantFor meant]
  simp [free, requireFree]

theorem annotate_of_refused {error : Error} (refused : Refused schema note error) :
    schema.annotate note = .error error := by
  cases refused with
  | misses misses => rw [annotate_eq, resolve_of_misses misses]
  | taken meant taken =>
      rw [annotate_eq, resolve_of_meantFor meant]
      simp [taken, requireFree]

/-- Every note fills a slot, or there is a reason why it is refused. -/
theorem fills_or_refused (schema : Schema) (note : Note) :
    (∃ slot, MeantFor schema note slot ∧ slot.read schema = some none) ∨
      ∃ error, Refused schema note error := by
  rcases meantFor_or_misses schema note with ⟨slot, meant⟩ | ⟨error, misses⟩
  · obtain ⟨held, there⟩ := exists_read_of_meantFor meant
    cases held with
    | none => exact .inl ⟨slot, meant, there⟩
    | some doc => exact .inr ⟨_, .taken meant there⟩
  · exact .inr ⟨error, .misses misses⟩

theorem annotate_eq_ok_iff (schema after : Schema) (note : Note) :
    schema.annotate note = .ok after ↔
      ∃ slot, MeantFor schema note slot ∧ Fills schema slot note.doc after := by
  constructor
  · intro taken
    rcases fills_or_refused schema note with ⟨slot, meant, free⟩ | ⟨error, refused⟩
    · rw [annotate_of_free meant free] at taken
      cases taken
      exact ⟨slot, meant, fills_of_free free note.doc⟩
    · rw [annotate_of_refused refused] at taken
      cases taken
  · rintro ⟨slot, meant, fills⟩
    rw [annotate_of_free meant fills.free, fills.filled]

theorem annotate_eq_error_iff (schema : Schema) (note : Note) (error : Error) :
    schema.annotate note = .error error ↔ Refused schema note error := by
  constructor
  · intro refused
    rcases fills_or_refused schema note with ⟨slot, meant, free⟩ | ⟨cause, why⟩
    · rw [annotate_of_free meant free] at refused
      cases refused
    · rw [annotate_of_refused why] at refused
      cases refused
      exact why
  · exact annotate_of_refused

/-! ## In place -/

/-- The call that a note stands for, on a schema that is changed in place. -/
def Note.inPlace : Note → Setup Unit
  | forType typeName doc => Setup.annotateType typeName doc
  | forElement typeName elementName doc => Setup.annotateElement typeName elementName doc
  | forAttribute typeName attributeName doc => Setup.annotateAttribute typeName attributeName doc

theorem callOn_fillOnce {held : Option Documentation} (there : slot.read schema = some held)
    (subject : Subject) (doc : Documentation) :
    (Setup.fillOnce slot subject doc).callOn schema =
      match requireFree held subject with
      | .error error => some (.error error, schema)
      | .ok () => some (.ok (), slot.fill schema doc) := by
  rw [Setup.fillOnce, Setup.callOn_bind, Setup.callOn_get]
  simp only [there, Setup.callOn_bind, Setup.callOn_ofExcept]
  cases requireFree held subject with
  | error error => rfl
  | ok => rfl

/-- In place, too, the slot is found first and then filled. -/
theorem callOn_inPlace_eq (schema : Schema) (note : Note) :
    note.inPlace.callOn schema =
      match schema.resolve note with
      | .error error => some (.error error, schema)
      | .ok slot => (Setup.fillOnce slot note.subject note.doc).callOn schema := by
  cases note with
  | forType typeName doc =>
      rw [Note.inPlace, Setup.annotateType, resolve]
      simp only [Setup.callOn_bind, Setup.callOn_get, Setup.callOn_ofExcept]
      cases found : schema.requireType typeName with
      | error error => rfl
      | ok id =>
          -- a type that was found is there, so the second look finds it again
          obtain ⟨type, there⟩ := exists_type_of_requireType found
          simp only [there]
          rfl
  | forElement typeName elementName doc =>
      rw [Note.inPlace, Setup.annotateElement, resolve]
      simp only [Setup.callOn_bind, Setup.callOn_get, Setup.callOn_ofExcept]
      cases schema.resolveElement typeName elementName with
      | error error => rfl
      | ok id => rfl
  | forAttribute typeName attributeName doc =>
      rw [Note.inPlace, Setup.annotateAttribute, resolve]
      simp only [Setup.callOn_bind, Setup.callOn_get, Setup.callOn_ofExcept]
      cases schema.resolveAttribute typeName attributeName with
      | error error => rfl
      | ok id => rfl

/-- **No call crashes, and a call that is refused has changed nothing.** -/
theorem callOn_inPlace (schema : Schema) (note : Note) :
    note.inPlace.callOn schema =
      match schema.annotate note with
      | .error error => some (.error error, schema)
      | .ok after => some (.ok (), after) := by
  rw [callOn_inPlace_eq, annotate_eq]
  rcases meantFor_or_misses schema note with ⟨slot, meant⟩ | ⟨error, misses⟩
  · obtain ⟨held, there⟩ := exists_read_of_meantFor meant
    rw [resolve_of_meantFor meant]
    simp only [callOn_fillOnce there, there, Option.join_some]
    cases requireFree held note.subject with
    | error error => rfl
    | ok => rfl
  · rw [resolve_of_misses misses]

/-! ## Notes that come again -/

theorem requireComplex_undocumented (schema : Schema) (typeName : String) :
    schema.undocumented.requireComplex typeName =
      (schema.requireComplex typeName).map (Prod.map id ComplexType.undocumented) := by
  simp only [requireComplex, requireType, findType?_undocumented]
  cases schema.findType? typeName with
  | none => rfl
  | some id =>
      simp only [complex?_undocumented]
      cases schema.complex? id with
      | none => rfl
      | some type => rfl

/-- Where a note's documentation goes does not hang on documentation. -/
theorem resolve_undocumented (schema : Schema) (note : Note) :
    schema.undocumented.resolve note = schema.resolve note := by
  cases note with
  | forType typeName doc => simp [resolve, requireType]
  | forElement typeName elementName doc =>
      simp only [resolve, resolveElement, requireComplex_undocumented]
      cases schema.requireComplex typeName with
      | error error => rfl
      | ok found => simp [Except.map, ComplexType.undocumented]
  | forAttribute typeName attributeName doc =>
      simp only [resolve, resolveAttribute, requireComplex_undocumented]
      cases schema.requireComplex typeName with
      | error error => rfl
      | ok found =>
          simp only [Except.map, Prod.map_fst, id, findAttributeUse?_undocumented]
          cases schema.findAttributeUse? found.1 attributeName with
          | none => rfl
          | some use => rfl

theorem resolve_annotateAll (schema : Schema) (notes : List Note) (note : Note) :
    (schema.annotateAll notes).resolve note = schema.resolve note := by
  rw [← resolve_undocumented, undocumented_annotateAll, resolve_undocumented]

/-- A note leaves a slot alone that is taken. -/
theorem read_annotate {held : Documentation} (taken : slot.read schema = some (some held))
    (note : Note) :
    slot.read ((schema.annotate note).toOption.getD schema) = some (some held) := by
  cases answer : schema.annotate note with
  | error error => exact taken
  | ok after =>
      obtain ⟨other, -, fills⟩ := (annotate_eq_ok_iff schema after note).mp answer
      have apart : slot ≠ other := by
        rintro rfl
        rw [fills.free] at taken
        cases taken
      show slot.read after = _
      rw [fills.reads, if_neg apart, taken]

/-- **A slot that is taken keeps what it holds**, whatever notes come. -/
theorem read_annotateAll {held : Documentation} (taken : slot.read schema = some (some held))
    (notes : List Note) : slot.read (schema.annotateAll notes) = some (some held) := by
  induction notes generalizing schema with
  | nil => exact taken
  | cons note notes ih => exact ih (read_annotate taken note)

theorem resolve_congr {again : Note} (sameType : again.typeName = note.typeName)
    (sameSubject : again.subject = note.subject) :
    schema.resolve again = schema.resolve note := by
  cases note <;> cases again <;> simp_all [Note.typeName, Note.subject, resolve]

/-- A note that comes again after it was taken is refused. -/
theorem annotate_again {after : Schema} (taken : schema.annotate note = .ok after)
    (notes : List Note) {again : Note} (sameType : again.typeName = note.typeName)
    (sameSubject : again.subject = note.subject) :
    (after.annotateAll notes).annotate again = .error (.alreadyDocumented note.subject) := by
  obtain ⟨slot, meant, fills⟩ := (annotate_eq_ok_iff schema after note).mp taken
  have still : slot.read (after.annotateAll notes) = some (some note.doc) := by
    apply read_annotateAll
    rw [fills.reads, if_pos rfl]
  have run : after.annotateAll notes = schema.annotateAll (note :: notes) := by
    rw [annotateAll, annotateAll, List.foldl_cons, taken]
    rfl
  have found : (after.annotateAll notes).resolve again = .ok slot := by
    rw [run, resolve_annotateAll, resolve_congr sameType sameSubject, resolve_of_meantFor meant]
  rw [annotate_eq, found]
  simp [still, requireFree, sameSubject]

/-- **A note fills the one slot it is meant for, or is refused and changes nothing.**
In place, a call never crashes, and an error leaves the schema as it was.  A note is taken
exactly if the slot it is meant for is empty, and then that slot holds its documentation and
nothing else has changed; every error is answered exactly in its case.  After a note has been
taken, it is refused whenever it comes again, with whatever documentation and after whatever
other notes. -/
theorem notes_fill_one_slot (schema : Schema) (note : Note) :
    (note.inPlace.callOn schema =
      match schema.annotate note with
      | .error error => some (.error error, schema)
      | .ok after => some (.ok (), after)) ∧
    (∀ after, schema.annotate note = .ok after ↔
      ∃ slot, MeantFor schema note slot ∧ Fills schema slot note.doc after) ∧
    (∀ error, schema.annotate note = .error error ↔ Refused schema note error) ∧
    ∀ after, schema.annotate note = .ok after → ∀ notes again,
      again.typeName = note.typeName → again.subject = note.subject →
      (after.annotateAll notes).annotate again = .error (.alreadyDocumented note.subject) := by
  refine ⟨callOn_inPlace schema note, ?_, annotate_eq_error_iff schema note, ?_⟩
  · intro after
    exact annotate_eq_ok_iff schema after note
  · intro after taken notes again sameType sameSubject
    exact annotate_again taken notes sameType sameSubject

/-- Two types are called Atlas, the first derives from itself by way of Book, and some elements
and attributes that it lists are not there. -/
def atlases : Schema where
  types :=
    [.complex
        { name := some "Atlas", base := some 1, attributes := [7]
          content := .sequence
            { particles :=
                [⟨.element 9, .once⟩, ⟨.choice { alternatives := [8, 1, 2] }, .any⟩] } },
      .complex { name := some "Book", base := some 0, attributes := [0, 1] },
      .simple { name := some "Atlas" }]
  elements :=
    [{ name := "atlas", type := 0 }, { name := "map", type := 2 }, { name := "map", type := 2 }]
  attributes := [{ name := "year", type := 2 }, { name := "year", type := 2 }]
  globals := [0]

/-- The year of an atlas is the first one of a book.  It is documented once, whatever notes come
in between.  Its map is the first alternative that is there; a book lists no elements. -/
theorem atlases_fill_one_slot :
    (∃ after,
      (Note.forAttribute "Atlas" "year" { title := some "Year" }).inPlace.callOn atlases =
        some (.ok (), after) ∧
      MeantFor atlases (.forAttribute "Atlas" "year" { title := some "Year" }) (.ofAttribute 0) ∧
      Fills atlases (.ofAttribute 0) { title := some "Year" } after ∧
      (after.annotateAll [.forElement "Atlas" "map" {}, .forAttribute "Book" "year" {},
          .forType "Globe" {}]).annotate
        (.forAttribute "Atlas" "year" { title := some "Again" }) =
          .error (.alreadyDocumented (.attributeNamed "year"))) ∧
    (∃ after,
      (Note.forElement "Atlas" "map" { title := some "Map" }).inPlace.callOn atlases =
        some (.ok (), after) ∧
      MeantFor atlases (.forElement "Atlas" "map" { title := some "Map" }) (.ofElement 1) ∧
      Fills atlases (.ofElement 1) { title := some "Map" } after) ∧
    Refused atlases (.forElement "Book" "map" {}) (.unsupportedContent "Book") := by
  have fills {note : Note} {slot : Slot}
      (first : atlases.annotate note = .ok (slot.fill atlases note.doc))
      (found : atlases.resolve note = .ok slot) :
      note.inPlace.callOn atlases = some (.ok (), slot.fill atlases note.doc) ∧
        MeantFor atlases note slot ∧
        Fills atlases slot note.doc (slot.fill atlases note.doc) := by
    obtain ⟨placed, taken, -⟩ := notes_fill_one_slot atlases note
    obtain ⟨meantSlot, meant, filled⟩ := (taken _).mp first
    rw [resolve_of_meantFor meant] at found
    cases found
    rw [first] at placed
    exact ⟨placed, meant, filled⟩
  have year : atlases.annotate (.forAttribute "Atlas" "year" { title := some "Year" }) =
      .ok ((Slot.ofAttribute 0).fill atlases { title := some "Year" }) := by decide +kernel
  have map : atlases.annotate (.forElement "Atlas" "map" { title := some "Map" }) =
      .ok ((Slot.ofElement 1).fill atlases { title := some "Map" }) := by decide +kernel
  refine ⟨?_, ?_, ?_⟩
  · obtain ⟨placed, meant, filled⟩ := fills year (by decide +kernel)
    obtain ⟨-, -, -, again⟩ :=
      notes_fill_one_slot atlases (.forAttribute "Atlas" "year" { title := some "Year" })
    exact ⟨_, placed, meant, filled, again _ year _ _ rfl rfl⟩
  · exact ⟨_, fills map (by decide +kernel)⟩
  · obtain ⟨-, -, refused, -⟩ := notes_fill_one_slot atlases (.forElement "Book" "map" {})
    exact (refused _).mp (by decide +kernel)

end ContentAssist.Schema
