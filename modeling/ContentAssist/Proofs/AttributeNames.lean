/-
# ContentAssist.Proofs.AttributeNames -- which attribute names are offered

Where the name of an attribute is being typed, or may begin, the names offered come in two
parts.  First come the instance attributes, which no schema declares, in a fixed order; then
the names that the types on the line of the element's type declare, in code point order.  Of
both parts those are left that begin with what has been typed and are not on the tag yet.

* `perm_declaredNames`: the names sorted are those of the attribute uses of the type, so every
  name declared along its line stands there (`mem_declaredNames_iff`), and stands there once
  (`pairwise_declaredNames`).
* `texts_instanceAttributes` says which instance attributes fit.
* `exists_opens`: at such a place the last event is a start tag past its name, which opens an
  element if nothing disagrees; `not_started_iff` says when that is the first one.
* `attribute_names_offered` puts these together.
-/
import ContentAssist.Proofs.Inheritance
import ContentAssist.Proofs.Interlude
import ContentAssist.Proofs.Retyping
import Mathlib.Data.List.Sort

namespace ContentAssist

set_option autoImplicit false

open Markup Schema Replay Completion

/-! ## Names that are declared -/

namespace Completion

variable {schema : Schema} {options : Options} {replay : Replay} {top : OpenElement}

theorem perm_declaredNames (type : TypeId) :
    ((declaredNames schema type).map Suggestion.text).Perm
      ((schema.attributeUses type).map fun use => use.2.name) := by
  have sorted := (List.mergeSort_perm
    ((schema.attributeUses type).map fun use => Suggestion.attributeName schema use.2)
    fun a b => decide (a.text ≤ b.text)).map Suggestion.text
  rw [List.map_map] at sorted
  exact sorted

/-- **The names offered are those declared along the line.** -/
theorem mem_declaredNames_iff (type : TypeId) (name : String) :
    name ∈ (declaredNames schema type).map Suggestion.text ↔
      ∃ base ∈ schema.line type, schema.DeclaresAttribute base name := by
  rw [(perm_declaredNames type).mem_iff, List.mem_map]
  exact exists_attributeUse_iff type name

/-- **The names are offered in code point order**, each once. -/
theorem pairwise_declaredNames (type : TypeId) :
    ((declaredNames schema type).map Suggestion.text).Pairwise (· < ·) := by
  have distinct : ((declaredNames schema type).map Suggestion.text).Nodup := by
    rw [(perm_declaredNames type).nodup_iff, attributeUses_eq]
    exact nodup_nearest _
  have ascending : (declaredNames schema type).Pairwise
      fun a b => decide (a.text ≤ b.text) = true := by
    apply List.pairwise_mergeSort
    · intro a b c first second
      rw [decide_eq_true_eq] at first second ⊢
      exact String.le_trans first second
    · intro a b
      rw [Bool.or_eq_true, decide_eq_true_eq, decide_eq_true_eq]
      exact String.le_total a.text b.text
  rw [List.Nodup, List.pairwise_map] at distinct
  rw [List.pairwise_map]
  refine (ascending.and distinct).imp ?_
  rintro a b ⟨upTo, differ⟩
  refine String.not_le.mp fun downTo => differ ?_
  exact String.le_antisymm (decide_eq_true_eq.mp upTo) downTo

/-! ## Instance attributes -/

/-- The instance attributes, in the order they are offered. -/
def instanceNames : List String :=
  [namespaceAttribute, nilAttribute, typeAttribute]

/-- Some of the instance attributes, in their order. -/
def pickInstances (namespaced nillable retyped : Bool) : List String :=
  (if namespaced then [namespaceAttribute] else []) ++
    (if nillable then [nilAttribute] else []) ++ (if retyped then [typeAttribute] else [])

theorem texts_instanceAttributes :
    (instanceAttributes schema options replay top).map Suggestion.text =
      pickInstances (options.usesXsi && replay.lastIsRoot && schema.hasExtensions) top.nillable
        (schema.hasDerivedTypes top.type) := by
  rw [instanceAttributes, List.map_append, List.map_append, pickInstances]
  congr 1
  · congr 1
    · split <;> rfl
    · split <;> rfl
  · split <;> rfl

theorem pickInstances_sublist (namespaced nillable retyped : Bool) :
    (pickInstances namespaced nillable retyped).Sublist instanceNames := by
  revert namespaced nillable retyped
  decide

theorem mem_pickInstances (namespaced nillable retyped : Bool) :
    (namespaceAttribute ∈ pickInstances namespaced nillable retyped ↔ namespaced = true) ∧
      (nilAttribute ∈ pickInstances namespaced nillable retyped ↔ nillable = true) ∧
      (typeAttribute ∈ pickInstances namespaced nillable retyped ↔ retyped = true) := by
  revert namespaced nillable retyped
  decide

theorem hasExtensions_iff :
    schema.hasExtensions = true ↔
      ∃ id type, schema.complex? id = some type ∧ type.base.isSome = true := by
  simp only [hasExtensions, List.any_eq_true, Prod.exists, mem_complexTypes_iff]

theorem hasDerivedTypes_iff (base : TypeId) :
    schema.hasDerivedTypes base = true ↔
      ∃ id type, schema.complex? id = some type ∧ type.base = some base := by
  simp only [hasDerivedTypes, Bool.not_eq_true', List.isEmpty_eq_false_iff_exists_mem,
    Prod.exists, mem_derivedTypes_iff]

/-! ## Both together -/

/-- A name that may still be put on a tag. -/
def mayTake (tag : StartTag) (name : String) : Bool :=
  Text.startsWith name (tag.current.getD "") && !tag.attributes.contains name

theorem texts_attributeNameOffers (inside : replay.top? = some top) (tag : StartTag) :
    (attributeNameOffers schema options replay tag).texts =
      (pickInstances (options.usesXsi && replay.lastIsRoot && schema.hasExtensions) top.nillable
          (schema.hasDerivedTypes top.type)).filter (mayTake tag) ++
        ((declaredNames schema top.type).map Suggestion.text).filter (mayTake tag) := by
  rw [← texts_instanceAttributes, ← List.filter_append, ← List.map_append, List.filter_map,
    attributeNameOffers]
  simp only [inside, texts]
  rfl

end Completion

/-! ## Where a name may begin -/

namespace Markup

/-- The name of an attribute is being typed at the end of the text, or may begin there. -/
def AsksAttributeName (text : String) : Prop :=
  caretOf text = .inAttributeName ∨
    (∃ spaced, caretOf text = .awaitingAttribute spaced) ∧
      ∃ c ∈ text.toList.getLast?, Text.isSpace c = true

/-- Between attributes the last character is known. -/
theorem eq_of_read_between {mode : Mode} {c last : Char} {tag : OpenTag}
    (between : (mode.read c).mode = .between tag last) : last = c := by
  cases mode with
  | _ =>
      simp only [Mode.read, readContent, readStartName, readEndName] at between
      repeat' split at between
      all_goals cases between
      all_goals rfl

theorem getLast?_of_between {cs : List Char} {tag : OpenTag} {last : Char}
    (between : modeAfter .fresh cs = .between tag last) : cs.getLast? = some last := by
  rcases List.eq_nil_or_concat cs with rfl | ⟨front, c, rfl⟩
  · cases between
  · rw [List.concat_eq_append, modeAfter_append, modeAfter_cons, modeAfter_nil] at between
    rw [List.concat_eq_append, List.getLast?_concat, eq_of_read_between between]

end Markup

/-- At such a place a start tag is unfinished, past its name, and attribute names are offered
for it. -/
theorem exists_opens {text : String} (asks : AsksAttributeName text) :
    ∃ tag, (modeAfter .fresh text.toList).Opens tag ∧ tag.current.getD "" = fragmentOf text ∧
      ∀ (engine : Engine) (replay : Replay),
        engine.offersIn replay (modeAfter .fresh text.toList) =
          attributeNameOffers engine.schema engine.options replay tag := by
  unfold AsksAttributeName at asks
  rw [caretOf] at asks
  rw [fragmentOf]
  cases mode : modeAfter .fresh text.toList with
  | attributeName tag typed => exact ⟨_, opens_attributeName tag typed, rfl, fun _ _ => rfl⟩
  | between tag last =>
      rw [mode, getLast?_of_between mode] at asks
      rcases asks with typing | ⟨-, c, ⟨⟩, space⟩
      · cases typing
      · exact ⟨_, opens_between tag last, rfl, fun _ _ => if_pos space⟩
  | _ => simp [mode, Mode.caret] at asks

/-- **A document has not begun** as long as all that has closed is insignificant. -/
theorem not_started_iff {schema : Schema} {events : List Event}
    (agrees : (runClosed schema {} events).Agrees) :
    (runClosed schema {} events).started = false ↔
      ∀ event ∈ events, event.isInsignificant = true := by
  refine ⟨insignificant_of_not_started agrees, ?_⟩
  refine runClosed_induction (P := fun seen replay =>
    (∀ event ∈ seen, event.isInsignificant = true) → replay.started = false) (fun _ => rfl) ?_
    events agrees
  intro seen event replay before agrees insignificant
  rw [step_of_insignificant agrees.of_step.stopped schema (insignificant event (by simp))]
  exact before fun other earlier => insignificant other (List.mem_append_left _ earlier)

/-! ## The element that is open -/

/-- The start tag at the end of a text, past its name, has opened the innermost element. -/
structure OpensTop (schema : Schema) (text : String) (tag : StartTag) (decl : ElementDecl)
    (top : OpenElement) : Prop where
  last : (events text).getLast? = some (.startTag tag)
  inside : (ofText schema text).top? = some top
  declared : schema.element? top.element = some decl
  named : decl.name = tag.name
  type : top.type = effectiveType schema decl.type tag
  nillable : top.nillable = decl.nillable

/-- A tag that agrees opens its element, and is the first one if nothing significant stands
before it. -/
theorem exists_opensTop {schema : Schema} {text : String}
    (agrees : (ofText schema text).Agrees) {tag : StartTag}
    (opens : (modeAfter .fresh text.toList).Opens tag) :
    (∃ decl top, OpensTop schema text tag decl top) ∧
      ((ofText schema text).lastIsRoot = true ↔
        ∀ event ∈ (events text).dropLast, event.isInsignificant = true) := by
  have settled : ofText schema text =
      (runClosed schema {} (closedEvents .fresh text.toList)).step schema (.startTag tag)
        (modeAfter .fresh text.toList).caret := by
    rw [ofText_eq_settle, Reading.settle]
    simp only [Reading.read, opens.pending]
  have earlier : (events text).dropLast = closedEvents .fresh text.toList := by
    rw [events_eq, opens.pending, Option.toList_some, List.dropLast_concat]
  rw [settled] at agrees
  obtain ⟨going, admitted⟩ := (agrees_step_startTag schema _ tag _).mp agrees
  obtain ⟨element, decl, below, declared, named, entry⟩ :=
    exists_entryOf going (admitted.resolve_left opens.named)
  obtain ⟨stack, root⟩ := entry tag _ rfl opens.stays opens.named
  have inside : (ofText schema text).top? = some (entryOf schema
      (runClosed schema {} (closedEvents .fresh text.toList)) element decl tag) := by
    rw [settled, top?, stack, List.head?_cons]
  refine ⟨⟨decl, _, getLast?_events opens.pending, inside, declared, named, rfl, rfl⟩, ?_⟩
  rw [earlier, ← not_started_iff going, settled, root, Bool.not_eq_true']

/-! ## What is offered -/

/-- The name begins with what has been typed at the end of the text, and is not on the tag. -/
def Fits (text : String) (tag : StartTag) (name : String) : Prop :=
  Text.startsWith name (fragmentOf text) = true ∧ tag.attributes.contains name = false

/-- What is offered for a tag: instance attributes first, then names that are declared. -/
structure OffersNames (engine : Engine) (text : String) (tag : StartTag) (decl : ElementDecl)
    (type : TypeId) (instances names : List String) : Prop where
  texts : (engine.suggest text).texts = instances ++ names
  selection : instances.Sublist instanceNames
  ascending : names.Pairwise (· < ·)
  declared : ∀ name, name ∈ names ↔
    Fits text tag name ∧
      ∃ base ∈ engine.schema.line type, engine.schema.DeclaresAttribute base name
  /-- The namespace is declared on the first tag, where types are extended at all. -/
  namespaced : namespaceAttribute ∈ instances ↔
    Fits text tag namespaceAttribute ∧ engine.options.usesXsi = true ∧
      (∀ event ∈ (events text).dropLast, event.isInsignificant = true) ∧
      ∃ id derived, engine.schema.complex? id = some derived ∧ derived.base.isSome = true
  nillable : nilAttribute ∈ instances ↔ Fits text tag nilAttribute ∧ decl.nillable = true
  /-- Another type may be named where one has this type as its base. -/
  retyped : typeAttribute ∈ instances ↔
    Fits text tag typeAttribute ∧
      ∃ id derived, engine.schema.complex? id = some derived ∧ derived.base = some type

/-- **The attribute names offered are exactly those that fit, in order.**  Where nothing
disagrees and the name of an attribute is being typed or may begin, the last event is a start
tag that has opened the innermost element.  First those instance attributes are offered that fit
the tag and the element, in their order; then the names declared by a type on the line of the
element's type that fit the tag, in code point order. -/
theorem attribute_names_offered (engine : Engine) (text : String)
    (agrees : (ofText engine.schema text).Agrees) (asks : AsksAttributeName text) :
    ∃ tag decl top instances names,
      OpensTop engine.schema text tag decl top ∧
        OffersNames engine text tag decl top.type instances names := by
  obtain ⟨tag, opens, typed, offers⟩ := exists_opens asks
  obtain ⟨⟨decl, top, opened⟩, first⟩ := exists_opensTop agrees opens
  have fits (name : String) : mayTake tag name = true ↔ Fits text tag name := by
    rw [mayTake, typed, Bool.and_eq_true, Bool.not_eq_true', Fits]
  have offered := @texts_attributeNameOffers engine.schema engine.options _ top opened.inside tag
  rw [← offers, ← suggest_of_isClean ⟨agrees.1, .inl agrees.2⟩] at offered
  refine ⟨tag, decl, top, _, _, opened, offered, ?_, ?_, ?_, ?_, ?_, ?_⟩
  · exact List.filter_sublist.trans (pickInstances_sublist _ _ _)
  · exact (pairwise_declaredNames top.type).filter _
  · intro name
    rw [List.mem_filter, mem_declaredNames_iff, fits, and_comm]
  · rw [List.mem_filter, (mem_pickInstances _ _ _).1, fits, Bool.and_eq_true, Bool.and_eq_true,
      first, hasExtensions_iff, and_comm, and_assoc]
  · rw [List.mem_filter, (mem_pickInstances _ _ _).2.1, fits, opened.nillable, and_comm]
  · rw [List.mem_filter, (mem_pickInstances _ _ _).2.2, fits, hasDerivedTypes_iff, and_comm]

/-- A crate may be sealed.  Both types declare an `xray` and only the sealed one an `x-mark`;
an attribute that a crate lists is not there. -/
def crates : Schema where
  types :=
    [.complex { name := some "Crate", attributes := [7, 0, 1] },
      .complex { name := some "Sealed", base := some 0, attributes := [2, 3] },
      .simple { name := some "Word" }]
  elements := [{ name := "crate", type := 0, nillable := true }]
  attributes :=
    [{ name := "weight", type := 2 }, { name := "xray", type := 2 }, { name := "xray", type := 2 },
      { name := "x-mark", type := 2 }]
  globals := [0]

/-- A name half typed, on a first tag that has named the sealed type. -/
theorem crates_attribute_names_offered :
    (ofText crates "<?xml?> <crate xsi:type=\"Sealed\" x").Agrees ∧
      AsksAttributeName "<?xml?> <crate xsi:type=\"Sealed\" x" ∧
      ∃ tag decl top,
        OpensTop crates "<?xml?> <crate xsi:type=\"Sealed\" x" tag decl top ∧ top.type = 1 ∧
          OffersNames ⟨crates, ⟨true⟩, {}⟩ "<?xml?> <crate xsi:type=\"Sealed\" x" tag decl
            top.type ["xmlns:xsi", "xsi:nil"] ["x-mark", "xray"] := by
  have agrees : (ofText crates "<?xml?> <crate xsi:type=\"Sealed\" x").Agrees := by
    decide +kernel
  have asks : AsksAttributeName "<?xml?> <crate xsi:type=\"Sealed\" x" := by
    left
    decide +kernel
  obtain ⟨tag, decl, top, instances, names, opens, offers⟩ :=
    attribute_names_offered ⟨crates, ⟨true⟩, {}⟩ _ agrees asks
  have last : (events "<?xml?> <crate xsi:type=\"Sealed\" x").getLast? =
      some (.startTag
        { name := "crate", attributes := ⟨[("xsi:type", .value "Sealed")]⟩
          current := some "x", selfClosing := false }) := by decide +kernel
  have sealed : (ofText crates "<?xml?> <crate xsi:type=\"Sealed\" x").top? =
      some { element := 0, type := 1, nillable := true, progress := {}, node := 0 } := by
    decide +kernel
  cases opens.last.symm.trans last
  cases opens.inside.symm.trans sealed
  cases opens.declared
  -- both parts ascend, so their members say which lists they are
  have picked : instances = ["xmlns:xsi", "xsi:nil"] := by
    have ordered : instanceNames.Pairwise (· < ·) := by decide
    refine (ordered.sublist offers.selection).eq_of_mem_iff (by decide) fun name => ?_
    constructor
    · intro listed
      have known := offers.selection.subset listed
      simp only [instanceNames, List.mem_cons, List.not_mem_nil, or_false] at known ⊢
      rcases known with rfl | rfl | rfl
      · exact .inl rfl
      · exact .inr rfl
      · cases (offers.retyped.mp listed).1.2
    · intro listed
      simp only [List.mem_cons, List.not_mem_nil, or_false] at listed
      rcases listed with rfl | rfl
      · exact offers.namespaced.mpr
          ⟨⟨by decide +kernel, by decide⟩, rfl, by decide +kernel, 1, _, rfl, rfl⟩
      · exact offers.nillable.mpr ⟨⟨by decide +kernel, by decide⟩, rfl⟩
  have declared : names = ["x-mark", "xray"] := by
    have uses : (crates.attributeUses 1).map (fun use => use.2.name) =
        ["xray", "x-mark", "weight"] := by decide +kernel
    refine offers.ascending.eq_of_mem_iff (by decide) fun name => ?_
    rw [offers.declared, ← exists_attributeUse_iff, ← List.mem_map, uses]
    simp only [List.mem_cons, List.not_mem_nil, or_false]
    constructor
    · rintro ⟨fits, rfl | rfl | rfl⟩
      · exact .inr rfl
      · exact .inl rfl
      · exact absurd fits.1 (by decide +kernel)
    · rintro (rfl | rfl)
      · exact ⟨⟨by decide +kernel, by decide⟩, .inr (.inl rfl)⟩
      · exact ⟨⟨by decide +kernel, by decide⟩, .inl rfl⟩
  rw [picked, declared] at offers
  exact ⟨agrees, asks, _, _, _, opens, rfl, offers⟩

end ContentAssist
