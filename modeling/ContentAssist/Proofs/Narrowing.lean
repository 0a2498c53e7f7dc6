/-
# ContentAssist.Proofs.Narrowing -- typing on narrows the offers

While the same name, value or text is being typed, every character only rules out offers:
without hooks, what is offered later is what was offered before and still begins with what
has been typed (`typing_on_narrows`).

The two texts share everything that has closed, so their replays are one step away from the
same replay.  What has to be shown is that this step opens the same element with the same
type, and that offers are one list, filtered by what has been typed.

There is one exception.  An attribute that is being typed is passed over when the type of the
element is looked up, and it is known by its name only.  If the tag has a type already and the
name of that attribute is typed once more, the type is lost for as long as nothing follows the
name (`parcels_lose_type`).
-/
import ContentAssist.Proofs.Fragment
import ContentAssist.Proofs.Mirror
import ContentAssist.Proofs.Outline

namespace ContentAssist

set_option autoImplicit false

open Markup Schema Replay Completion

/-! ## Beginnings of words -/

namespace Text

theorem startsWith_of_isPrefix {word typed longer : String}
    (begins : typed.toList <+: longer.toList) (longerBegins : startsWith word longer = true) :
    startsWith word typed = true :=
  (startsWith_iff word typed).mpr (begins.trans ((startsWith_iff word longer).mp longerBegins))

/-- Without the blanks at its end a text is a beginning of it. -/
theorem dropTrailing_isPrefix (cs : List Char) :
    (cs.reverse.dropWhile isBlank).reverse <+: cs := by
  rw [← List.reverse_suffix, List.reverse_reverse]
  exact List.dropWhile_suffix isBlank

/-- What is left of a text without its blanks is a beginning of what is left of a longer
one. -/
theorem trimChars_isPrefix_append (cs ds : List Char) :
    trimChars cs <+: trimChars (cs ++ ds) := by
  unfold trimChars
  rw [List.dropWhile_append]
  split
  · rename_i blank
    rw [List.isEmpty_iff.mp blank]
    exact List.nil_prefix
  · generalize cs.dropWhile isBlank = word
    rw [List.reverse_append, List.dropWhile_append]
    split
    · exact List.prefix_rfl
    · rw [List.reverse_append, List.reverse_reverse]
      exact (dropTrailing_isPrefix word).trans (List.prefix_append _ _)

theorem trim_isPrefix_append (typed more : String) :
    (trim typed).toList <+: (trim (typed ++ more)).toList := by
  simp only [trim, String.toList_ofList, String.toList_append]
  exact trimChars_isPrefix_append typed.toList more.toList

end Text

/-! ## Narrower completions -/

namespace Completion

def Insertion.isEndTag : Insertion → Bool
  | .endTag _ _ => true
  | _ => false

/-- The suggestion is for what is being typed, and goes on from this fragment of it.  An end
tag is none for the name of a start tag, and blanks around a text do not count. -/
def Suggestion.goesOnFrom (caret : Caret) (fragment : String) (suggestion : Suggestion) : Bool :=
  match caret with
  | .inStartName => !suggestion.insertion.isEndTag && Text.startsWith suggestion.text fragment
  | .inText => Text.startsWith suggestion.text (Text.trim fragment)
  | _ => Text.startsWith suggestion.text fragment

/-- Of the suggestions of one completion the other has those that are kept, in their order;
and if there are any, it replaces so many characters more. -/
structure Narrows (before after : Completion) (kept : Suggestion → Bool) (count : Nat) : Prop where
  suggestions : after.suggestions = before.suggestions.filter kept
  length : after.suggestions ≠ [] → after.length = before.length + count

/-- Filtering by a longer beginning is filtering what a shorter one has left. -/
theorem filter_startsWith {α : Type} (word : α → String) {typed longer : String}
    (begins : typed.toList <+: longer.toList) (words : List α) :
    (words.filter fun a => Text.startsWith (word a) typed).filter
        (fun a => Text.startsWith (word a) longer) =
      words.filter fun a => Text.startsWith (word a) longer := by
  rw [List.filter_filter]
  apply List.filter_congr
  intro a _
  cases long : Text.startsWith (word a) longer with
  | false => rfl
  | true => rw [Text.startsWith_of_isPrefix begins long, Bool.and_self]

variable {schema : Schema} {options : Options} {before after : Replay} {typed longer : String}

theorem text_element (schema : Schema) (decl : ElementDecl) :
    (Suggestion.element schema decl).text = decl.name ∧
      (Suggestion.element schema decl).insertion.isEndTag = false := by
  unfold Suggestion.element
  cases schema.complex? decl.type with
  | none => exact ⟨rfl, rfl⟩
  | some type => exact ⟨rfl, rfl⟩

theorem startTags_narrow (begins : typed.toList <+: longer.toList) (decls : List ElementDecl) :
    startTags schema decls longer =
      (startTags schema decls typed).filter (Suggestion.goesOnFrom .inStartName longer) := by
  unfold startTags
  rw [List.filter_map, ← filter_startsWith ElementDecl.name begins decls]
  congr 1
  apply List.filter_congr
  intro decl _
  simp [Suggestion.goesOnFrom, text_element]

/-- More of a name leaves the start tags that go on from it, and no end tag. -/
theorem elementOffers_narrow (sameTop : after.top? = before.top?)
    (sameRoot : after.lastIsRoot = before.lastIsRoot)
    (begins : typed.toList <+: longer.toList) (nonempty : longer ≠ "") :
    (elementOffers schema after longer).suggestions =
      (elementOffers schema before typed).suggestions.filter
        (Suggestion.goesOnFrom .inStartName longer) := by
  unfold elementOffers
  rw [sameTop, sameRoot]
  split
  · exact startTags_narrow begins _
  · cases before.top? with
    | none => rfl
    | some top =>
        simp only [List.filter_append, ← startTags_narrow begins]
        have nothing : closingTag schema top longer = [] := by simp [closingTag, nonempty]
        have dropped : (closingTag schema top typed).filter
            (Suggestion.goesOnFrom .inStartName longer) = [] := by
          rw [List.filter_eq_nil_iff]
          intro suggestion listed
          obtain ⟨-, name, -, closes⟩ := mem_closingTag listed
          simp [Suggestion.goesOnFrom, closes, Insertion.isEndTag]
        rw [nothing, dropped]

/-- More of the name of an attribute leaves the names that go on from it. -/
theorem attributeNameOffers_narrow (sameTop : after.top? = before.top?)
    (sameRoot : after.lastIsRoot = before.lastIsRoot) {tag later : StartTag}
    (sameAttributes : later.attributes = tag.attributes)
    (begins : (tag.current.getD "").toList <+: (later.current.getD "").toList) :
    (attributeNameOffers schema options after later).suggestions =
      (attributeNameOffers schema options before tag).suggestions.filter
        fun name => Text.startsWith name.text (later.current.getD "") := by
  unfold attributeNameOffers
  rw [sameTop, sameAttributes]
  cases before.top? with
  | none => rfl
  | some top =>
      have sameNames : instanceAttributes schema options after top =
          instanceAttributes schema options before top := by
        unfold instanceAttributes
        rw [sameRoot]
      simp only [sameNames, List.filter_filter]
      apply List.filter_congr
      intro name _
      cases long : Text.startsWith name.text (later.current.getD "") with
      | false => rfl
      | true => rw [Text.startsWith_of_isPrefix begins long, Bool.true_and, Bool.true_and]

theorem matching_narrow (wrap : Candidate → Suggestion)
    (text : ∀ candidate, (wrap candidate).text = candidate.value)
    (begins : typed.toList <+: longer.toList) (values : List Candidate) :
    (matching values longer).map wrap =
      ((matching values typed).map wrap).filter fun value => Text.startsWith value.text longer := by
  unfold matching
  rw [List.filter_map, ← filter_startsWith Candidate.value begins values]
  congr 1
  apply List.filter_congr
  intro candidate _
  show _ = Text.startsWith (wrap candidate).text longer
  rw [text]

/-- More of a value leaves the values that go on from it. -/
theorem attributeValueOffers_narrow (sameTop : after.top? = before.top?)
    {tag later : StartTag} (quote : Quote) (sameName : later.current = tag.current)
    (typedIs : tag.currentValue? = some typed) (longerIs : later.currentValue? = some longer)
    (begins : typed.toList <+: longer.toList) :
    (attributeValueOffers schema {} after later (some quote)).suggestions =
      (attributeValueOffers schema {} before tag (some quote)).suggestions.filter
        fun value => Text.startsWith value.text longer := by
  unfold attributeValueOffers
  rw [sameTop, sameName, typedIs, longerIs]
  cases before.top? with
  | none => rfl
  | some top =>
      simp only [declaredAttributeValues_hookless, Option.isSome_some, if_true, Option.getD_some]
      exact matching_narrow _ (fun _ => rfl) begins _

/-- More of a text leaves the values that go on from it, blanks apart. -/
theorem textOffers_narrow (sameTop : after.top? = before.top?)
    (begins : (Text.trim typed).toList <+: (Text.trim longer).toList) :
    (textOffers schema {} after longer).suggestions =
      (textOffers schema {} before typed).suggestions.filter
        fun value => Text.startsWith value.text (Text.trim longer) := by
  unfold textOffers
  rw [sameTop]
  cases before.top? with
  | none => rfl
  | some top =>
      simp only [textValues_hookless]
      exact matching_narrow _ (fun _ => rfl) begins _

end Completion

/-! ## The same element, with or without its type -/

namespace Replay

variable {schema : Schema} {closed : Replay}

/-- **The name of a tag decides which element it opens**, whatever attributes it has; these
decide on the type alone. -/
theorem exists_entryOf {name : String} (agrees : closed.Agrees)
    (admits : closed.Admits schema name) :
    ∃ element decl below, schema.element? element = some decl ∧ decl.name = name ∧
      ∀ (tag : StartTag) (caret : Caret), tag.name = name →
        tag.selfClosing = false → caret ≠ .inStartName →
        (closed.step schema (.startTag tag) caret).stack =
            entryOf schema closed element decl tag :: below ∧
          (closed.step schema (.startTag tag) caret).lastIsRoot = !closed.started := by
  unfold Admits at admits
  split at admits
  · rename_i started
    obtain ⟨top, below, progress, element, stack, taken⟩ := admits
    obtain ⟨decl, declared, named⟩ :=
      exists_decl_of_elementName? (elementName?_of_matchContent taken)
    refine ⟨element, decl, { top with progress } :: below, declared, named, ?_⟩
    rintro tag caret rfl stays typed
    rw [step_startTag_inside agrees started stack taken typed, openElement_eq declared]
    simp [stays, entryOf, started]
  · rename_i started
    have early : closed.started = false := by simpa using started
    obtain ⟨element, found⟩ := admits
    obtain ⟨decl, declared, named⟩ :=
      exists_decl_of_elementName? (elementName?_of_findGlobal? found)
    refine ⟨element, decl, closed.stack, declared, named, ?_⟩
    rintro tag caret rfl stays typed
    rw [step_startTag_root agrees early found typed, openElement_eq declared]
    simp [stays, entryOf, early]

/-- The type of the innermost open element. -/
def topType? (replay : Replay) : Option TypeId :=
  replay.top?.map OpenElement.type

/-- Two tags with the same attributes get another type only if one of them passes over its
type attribute, as the one that is being typed. -/
theorem typing_typeAttribute {declared : TypeId} {tag later : StartTag}
    (sameAttributes : later.attributes = tag.attributes)
    (differ : effectiveType schema declared later ≠ effectiveType schema declared tag) :
    tag.attributes.text? typeAttribute ≠ none ∧
      (tag.current = some typeAttribute ∨ later.current = some typeAttribute) := by
  have valued : later.completedValue? typeAttribute ≠ tag.completedValue? typeAttribute := by
    intro same
    apply differ
    unfold effectiveType
    rw [same]
  unfold StartTag.completedValue? at valued
  rw [sameAttributes] at valued
  constructor
  · intro absent
    simp [absent] at valued
  · by_contra neither
    rw [not_or] at neither
    simp [neither] at valued

/-- What has been typed of a value does not count. -/
theorem effectiveType_insert_current (declared : TypeId) (tag : OpenTag) (name : String)
    (value other : AttributeValue) :
    effectiveType schema declared
        { name := tag.name, attributes := tag.attributes.insert name value, current := some name } =
      effectiveType schema declared
        { name := tag.name, attributes := tag.attributes.insert name other, current := some name } := by
  unfold effectiveType StartTag.completedValue? Attributes.text?
  by_cases same : name = typeAttribute
  · simp [same]
  · have differ : typeAttribute ≠ name := fun equal => same equal.symm
    simp only [Attributes.get?_insert_of_ne _ _ differ]

end Replay

/-! ## Typing on -/

namespace Markup

/-- More of what is being typed at the end of a text. -/
inductive TypesOn (text more : String) : Prop where
  /-- More of the name of a start tag; right after the bracket a question mark or a slash
  would begin something else. -/
  | name (typing : caretOf text = .inStartName) (plain : Plain more)
      (begins : TypesName text "" → ∀ c ∈ more.toList.head?, c ≠ '?' ∧ c ≠ '/')
  /-- More of the name of an attribute. -/
  | attributeName (typing : caretOf text = .inAttributeName) (plain : Plain more)
      (valueless : '=' ∉ more.toList)
  /-- The beginning of the name of an attribute. -/
  | newAttribute (typing : caretOf text = .awaitingAttribute true) (plain : Plain more)
      (valueless : '=' ∉ more.toList) (begins : ∀ c ∈ more.toList.head?, c ≠ '/')
  /-- More of a value. -/
  | value (quote : Quote) (typing : caretOf text = .inAttributeValue quote)
      (unquoted : quote.char ∉ more.toList)
  /-- More of a text. -/
  | text (content : String) (last : (events text).getLast? = some (.text content))
      (free : '<' ∉ more.toList)
  /-- The beginning of a text, right after a start tag. -/
  | content (tag : StartTag) (typing : caretOf text = .inText)
      (last : (events text).getLast? = some (.startTag tag)) (free : '<' ∉ more.toList)

/-- The characters are more of the fragment that a mode holds, or begin one. -/
inductive Mode.GrowsTo (cs : List Char) : Mode → Mode → Prop where
  | name {mode : Mode} {typed : List Char} (typing : mode.typedName? = some typed) :
      GrowsTo cs mode (.startName (cs.reverse ++ typed))
  | attributeName (tag : OpenTag) (typed : List Char) :
      GrowsTo cs (.attributeName tag typed) (.attributeName tag (cs.reverse ++ typed))
  | newAttribute (tag : OpenTag) {last : Char} (space : Text.isSpace last = true) :
      GrowsTo cs (.between tag last) (.attributeName tag (cs.reverse ++ []))
  | value (tag : OpenTag) (name : String) (quote : Quote) (typed : List Char) :
      GrowsTo cs (.value tag name quote typed) (.value tag name quote (cs.reverse ++ typed))
  | text (typed : List Char) : GrowsTo cs (.text typed) (.text (cs.reverse ++ typed))
  | content : GrowsTo cs .content (.text (cs.reverse ++ []))

theorem Mode.GrowsTo.fragment {cs : List Char} {mode next : Mode} (grows : mode.GrowsTo cs next) :
    next.fragment = cs.reverse ++ mode.fragment := by
  cases grows with
  | name typing =>
      rcases typedName?_cases typing with ⟨rfl, rfl⟩ | rfl <;> rfl
  | _ => rfl

/-- Where text came last, it is still being typed. -/
theorem modeAfter_of_text {text content : String}
    (last : (events text).getLast? = some (.text content)) :
    ∃ typed, modeAfter .fresh text.toList = .text typed := by
  cases mode : modeAfter .fresh text.toList with
  | text typed => exact ⟨typed, rfl⟩
  | content => exact absurd last (getLast?_events_of_content mode content)
  | fresh =>
      rw [events_eq, mode, eq_nil_of_fresh mode] at last
      cases last
  | _ =>
      rw [@getLast?_events text _ (by rw [mode]; rfl)] at last
      cases last

/-- Where a start tag that has closed came last, nothing is being typed. -/
theorem modeAfter_of_content {text : String} {tag : StartTag} (typing : caretOf text = .inText)
    (last : (events text).getLast? = some (.startTag tag)) :
    modeAfter .fresh text.toList = .content := by
  rw [caretOf] at typing
  cases mode : modeAfter .fresh text.toList with
  | content => rfl
  | text typed =>
      rw [@getLast?_events text _ (by rw [mode]; rfl)] at last
      cases last
  | _ =>
      rw [mode] at typing
      cases typing

theorem reads_moreAttributeName (tag : OpenTag) {cs : List Char}
    (plain : ∀ c ∈ cs, Text.isSpace c = false ∧ c ≠ '>') (valueless : '=' ∉ cs)
    (typed : List Char) :
    Reads (.attributeName tag typed) cs [] (.attributeName tag (cs.reverse ++ typed)) := by
  refine Reads.collect (.attributeName tag) (fun c listed typed => ?_) typed
  obtain ⟨space, bracket⟩ := plain c listed
  have unequal : c ≠ '=' := fun equal => valueless (equal ▸ listed)
  simp [Mode.read, space, bracket, unequal]

theorem reads_newAttributeName (tag : OpenTag) (last : Char) {cs : List Char} (nonempty : cs ≠ [])
    (plain : ∀ c ∈ cs, Text.isSpace c = false ∧ c ≠ '>') (valueless : '=' ∉ cs)
    (begins : ∀ c ∈ cs.head?, c ≠ '/') :
    Reads (.between tag last) cs [] (.attributeName tag (cs.reverse ++ [])) := by
  obtain ⟨c, cs, rfl⟩ := List.exists_cons_of_ne_nil nonempty
  obtain ⟨space, bracket⟩ := plain c List.mem_cons_self
  have slash := begins c rfl
  rw [List.mem_cons, not_or] at valueless
  rw [List.append_nil, List.reverse_cons]
  apply Reads.cons (.attributeName tag [c])
  · simp [Mode.read, space, bracket, slash]
  · exact reads_moreAttributeName tag (fun d later => plain d (List.mem_cons_of_mem c later))
      valueless.2 [c]

/-- Whatever is typed on closes nothing. -/
theorem TypesOn.grows {text more : String} (typesOn : TypesOn text more) (nonempty : more ≠ "") :
    ∃ next, Reads (modeAfter .fresh text.toList) more.toList [] next ∧
      (modeAfter .fresh text.toList).GrowsTo more.toList next := by
  have spelled : more.toList ≠ [] := by simpa using nonempty
  cases typesOn with
  | name typing plain begins =>
      rw [caretOf] at typing
      have named : ∃ typed, (modeAfter .fresh text.toList).typedName? = some typed := by
        cases mode : modeAfter .fresh text.toList with
        | opened => exact ⟨[], rfl⟩
        | startName typed => exact ⟨typed, rfl⟩
        | _ => simp [mode, Mode.caret] at typing
      obtain ⟨typed, named⟩ := named
      refine ⟨_, reads_moreName named spelled plain (fun opened => begins ⟨typing, ?_⟩), .name named⟩
      apply getLast?_events
      rw [opened]
      rfl
  | attributeName typing plain valueless =>
      rw [caretOf] at typing
      cases mode : modeAfter .fresh text.toList with
      | attributeName tag typed =>
          exact ⟨_, reads_moreAttributeName tag plain valueless typed, .attributeName tag typed⟩
      | _ => simp [mode, Mode.caret] at typing
  | newAttribute typing plain valueless begins =>
      rw [caretOf] at typing
      cases mode : modeAfter .fresh text.toList with
      | between tag last =>
          have space : Text.isSpace last = true := by simpa [mode, Mode.caret] using typing
          exact ⟨_, reads_newAttributeName tag last spelled plain valueless begins,
            .newAttribute tag space⟩
      | _ => simp [mode, Mode.caret] at typing
  | value quote typing unquoted =>
      rw [caretOf] at typing
      cases mode : modeAfter .fresh text.toList with
      | value tag name mark typed =>
          obtain rfl : mark = quote := by simpa [mode, Mode.caret] using typing
          refine ⟨_, Reads.collect (.value tag name mark) (fun c listed typed => ?_) typed,
            .value tag name mark typed⟩
          have inside : c ≠ mark.char := fun same => unquoted (same ▸ listed)
          simp [Mode.read, inside]
      | _ => simp [mode, Mode.caret] at typing
  | text content last free =>
      obtain ⟨typed, mode⟩ := modeAfter_of_text last
      have outside : (Mode.text typed).Outside := trivial
      rw [mode]
      exact ⟨_, reads_text outside free spelled, .text typed⟩
  | content tag typing last free =>
      have outside : Mode.content.Outside := trivial
      rw [modeAfter_of_content typing last]
      exact ⟨_, reads_text outside free spelled, .content⟩

end Markup

/-! ## One step from the same replay -/

variable {engine : Engine} {schema : Schema} {closed : Replay} {mode next : Mode} {cs : List Char}

/-- The unfinished event of the mode is this start tag, past its name. -/
structure Markup.Mode.Opens (mode : Mode) (tag : StartTag) : Prop where
  pending : mode.pending? = some (.startTag tag)
  named : mode.caret ≠ .inStartName
  stays : tag.selfClosing = false

theorem opens_between (tag : OpenTag) (last : Char) :
    (Mode.between tag last).Opens { name := tag.name, attributes := tag.attributes } :=
  ⟨rfl, by simp [Mode.caret], rfl⟩

theorem opens_attributeName (tag : OpenTag) (typed : List Char) :
    (Mode.attributeName tag typed).Opens
      { name := tag.name, attributes := tag.attributes, current := some (spell typed) } :=
  ⟨rfl, by simp [Mode.caret], rfl⟩

theorem opens_value (tag : OpenTag) (name : String) (quote : Quote) (typed : List Char) :
    (Mode.value tag name quote typed).Opens
      { name := tag.name
        attributes := tag.attributes.insert name (.value (spell typed))
        current := some name } :=
  ⟨rfl, by simp [Mode.caret], rfl⟩

/-- **Two tags with one name open the same element**, but for its type. -/
theorem exists_entries {tag later : StartTag} (opens : mode.Opens tag) (goesOn : next.Opens later)
    (sameName : later.name = tag.name) (agrees : closed.Agrees)
    (admits : closed.Admits schema tag.name) :
    ∃ element decl,
      (Reading.settle schema ⟨mode, closed⟩).top? =
          some (entryOf schema closed element decl tag) ∧
        (Reading.settle schema ⟨next, closed⟩).top? =
          some (entryOf schema closed element decl later) ∧
        (Reading.settle schema ⟨next, closed⟩).lastIsRoot =
          (Reading.settle schema ⟨mode, closed⟩).lastIsRoot := by
  obtain ⟨element, decl, below, -, -, entry⟩ := exists_entryOf agrees admits
  obtain ⟨stack, root⟩ := entry tag mode.caret rfl opens.stays opens.named
  obtain ⟨laterStack, laterRoot⟩ := entry later next.caret sameName goesOn.stays goesOn.named
  simp only [Reading.settle, opens.pending, goesOn.pending, top?, stack, laterStack]
  exact ⟨element, decl, rfl, rfl, laterRoot.trans root.symm⟩

theorem top?_eq_of_sameType {tag later : StartTag} (opens : mode.Opens tag)
    (goesOn : next.Opens later) (sameName : later.name = tag.name) (agrees : closed.Agrees)
    (admits : closed.Admits schema tag.name)
    (sameType : (Reading.settle schema ⟨next, closed⟩).topType? =
      (Reading.settle schema ⟨mode, closed⟩).topType?) :
    (Reading.settle schema ⟨next, closed⟩).top? = (Reading.settle schema ⟨mode, closed⟩).top? ∧
      (Reading.settle schema ⟨next, closed⟩).lastIsRoot =
        (Reading.settle schema ⟨mode, closed⟩).lastIsRoot := by
  obtain ⟨element, decl, top, laterTop, root⟩ :=
    exists_entries opens goesOn sameName agrees admits
  rw [topType?, topType?, top, laterTop] at sameType
  have same : effectiveType schema decl.type later = effectiveType schema decl.type tag :=
    Option.some.inj sameType
  refine ⟨?_, root⟩
  unfold entryOf at top laterTop
  rw [top, laterTop, same]

theorem exists_effectiveType_ne {tag later : StartTag} (opens : mode.Opens tag)
    (goesOn : next.Opens later) (sameName : later.name = tag.name) (agrees : closed.Agrees)
    (admits : closed.Admits schema tag.name)
    (differ : (Reading.settle schema ⟨next, closed⟩).topType? ≠
      (Reading.settle schema ⟨mode, closed⟩).topType?) :
    ∃ declared, effectiveType schema declared later ≠ effectiveType schema declared tag := by
  obtain ⟨element, decl, top, laterTop, -⟩ :=
    exists_entries opens goesOn sameName agrees admits
  rw [topType?, topType?, top, laterTop] at differ
  exact ⟨decl.type, fun same => differ (congrArg some same)⟩

/-- Text leaves the open elements as they are. -/
theorem top?_settle_text (schema : Schema) (closed : Replay) (typed : List Char) :
    (Reading.settle schema ⟨.text typed, closed⟩).top? = closed.top? :=
  congrArg List.head? (stack_step_text schema closed (spell typed) .inText)

theorem spell_isPrefix (cs typed : List Char) :
    (spell typed).toList <+: (spell (cs.reverse ++ typed)).toList := by
  rw [spell_append, String.toList_append]
  exact List.prefix_append _ _

theorem settle_typedName (schema : Schema) {typed : List Char}
    (typing : mode.typedName? = some typed) (agrees : closed.Agrees) :
    Reading.settle schema ⟨mode, closed⟩ = closed.typing (spell typed) := by
  rcases typedName?_cases typing with ⟨rfl, rfl⟩ | rfl
  · exact step_startTag_typing agrees schema _
  · exact step_startTag_typing agrees schema _

theorem offersIn_typedName {typed : List Char} (typing : mode.typedName? = some typed)
    (engine : Engine) (replay : Replay) :
    engine.offersIn replay mode = elementOffers engine.schema replay (spell typed) ∧
      mode.caret = .inStartName := by
  rcases typedName?_cases typing with ⟨rfl, rfl⟩ | rfl
  · exact ⟨rfl, rfl⟩
  · exact ⟨rfl, rfl⟩

/-- **What is offered later was offered before**: as long as the innermost open element keeps
its type, the offers are those that go on from the longer fragment. -/
theorem offersIn_grows (hookless : engine.hooks = {}) (nonempty : cs ≠ [])
    (grows : mode.GrowsTo cs next) (asks : mode.Asks engine.schema closed)
    (entered : mode = .content → ∃ tag, closed.last = some (.startTag tag))
    (sameType : (Reading.settle engine.schema ⟨next, closed⟩).topType? =
      (Reading.settle engine.schema ⟨mode, closed⟩).topType?) :
    (engine.offersIn (Reading.settle engine.schema ⟨next, closed⟩) next).suggestions =
      (engine.offersIn (Reading.settle engine.schema ⟨mode, closed⟩) mode).suggestions.filter
        (Suggestion.goesOnFrom mode.caret (spell next.fragment)) := by
  cases grows with
  | @name _ typed typing =>
      have agrees := agrees_of_asks asks
      have later : (Mode.startName (cs.reverse ++ typed)).typedName? = some (cs.reverse ++ typed) :=
        rfl
      have long : spell (cs.reverse ++ typed) ≠ "" := by
        rw [spell_append]
        simpa using fun _ => nonempty
      rw [settle_typedName engine.schema typing agrees, settle_typedName engine.schema later agrees]
      obtain ⟨offered, caret⟩ := offersIn_typedName typing engine (closed.typing (spell typed))
      rw [offered, caret]
      exact elementOffers_narrow rfl rfl (spell_isPrefix cs typed) long
  | attributeName tag typed =>
      obtain ⟨top, root⟩ := top?_eq_of_sameType (opens_attributeName tag typed)
        (opens_attributeName tag (cs.reverse ++ typed)) rfl asks.1 asks.2 sameType
      exact attributeNameOffers_narrow top root rfl (spell_isPrefix cs typed)
  | @newAttribute tag last space =>
      obtain ⟨top, root⟩ := top?_eq_of_sameType (opens_between tag last)
        (opens_attributeName tag (cs.reverse ++ [])) rfl asks.1 asks.2 sameType
      simp only [Engine.offersIn, space, if_true]
      exact attributeNameOffers_narrow top root rfl List.nil_prefix
  | value tag name quote typed =>
      obtain ⟨top, -⟩ := top?_eq_of_sameType (opens_value tag name quote typed)
        (opens_value tag name quote (cs.reverse ++ typed)) rfl asks.1 asks.2 sameType
      simp only [Engine.offersIn, hookless]
      exact attributeValueOffers_narrow top quote rfl (currentValue?_insert _ _ _)
        (currentValue?_insert _ _ _) (spell_isPrefix cs typed)
  | text typed =>
      have top := top?_settle_text engine.schema closed typed
      have laterTop := top?_settle_text engine.schema closed (cs.reverse ++ typed)
      simp only [Engine.offersIn, hookless]
      apply textOffers_narrow (laterTop.trans top.symm)
      rw [spell_append]
      exact Text.trim_isPrefix_append _ _
  | content =>
      obtain ⟨tag, last⟩ := entered rfl
      have laterTop := top?_settle_text engine.schema closed (cs.reverse ++ [])
      have same : Reading.settle engine.schema ⟨.content, closed⟩ = closed := rfl
      simp only [Engine.offersIn, hookless, same, last]
      apply textOffers_narrow laterTop
      rw [spell_append]
      exact Text.trim_isPrefix_append _ _

/-- A fragment that asks for more than is there was never offered anything. -/
theorem offersIn_of_not_asks (grows : mode.GrowsTo cs next)
    (asks : mode.Asks engine.schema closed) (refused : ¬ next.Asks engine.schema closed)
    (early : closed.started = false → closed.stack = []) :
    (engine.offersIn (Reading.settle engine.schema ⟨mode, closed⟩) mode).suggestions = [] := by
  have nothing : ∀ typed, ¬ (Mode.text typed).Asks engine.schema closed → closed.top? = none := by
    intro typed refused
    have unbegun : closed.started = false := by
      rw [← Bool.not_eq_true]
      exact fun started => refused ⟨agrees_of_asks asks, .inl started⟩
    rw [top?, early unbegun]
    rfl
  cases grows with
  | name typing => exact absurd (agrees_of_asks asks) refused
  | attributeName tag typed => exact absurd asks refused
  | newAttribute tag space => exact absurd asks refused
  | value tag name quote typed => exact absurd asks refused
  | text typed =>
      have top := (top?_settle_text engine.schema closed typed).trans (nothing _ refused)
      simp only [Engine.offersIn, textOffers, top]
  | content =>
      have same : Reading.settle engine.schema ⟨.content, closed⟩ = closed := rfl
      simp only [Engine.offersIn, textOffers, same, nothing _ refused]
      split <;> rfl

/-- **The type changes only where its attribute is typed once more.** -/
theorem retypes_of_grows (grows : mode.GrowsTo cs next) (asks : mode.Asks schema closed)
    (differ : (Reading.settle schema ⟨next, closed⟩).topType? ≠
      (Reading.settle schema ⟨mode, closed⟩).topType?) :
    (mode.caret = .inAttributeName ∨ mode.caret = .awaitingAttribute true) ∧
      ∃ tag, mode.pending? = some (.startTag tag) ∧
        tag.attributes.text? typeAttribute ≠ none ∧
        (tag.current = some typeAttribute ∨ spell next.fragment = typeAttribute) := by
  cases grows with
  | @name _ typed typing =>
      have later : (Mode.startName (cs.reverse ++ typed)).typedName? = some (cs.reverse ++ typed) :=
        rfl
      rw [settle_typedName schema typing (agrees_of_asks asks),
        settle_typedName schema later (agrees_of_asks asks)] at differ
      exact absurd rfl differ
  | attributeName tag typed =>
      obtain ⟨declared, types⟩ := exists_effectiveType_ne (opens_attributeName tag typed)
        (opens_attributeName tag (cs.reverse ++ typed)) rfl asks.1 asks.2 differ
      obtain ⟨valued, typing⟩ := typing_typeAttribute (by rfl) types
      exact ⟨.inl rfl, _, rfl, valued, typing.imp_right Option.some.inj⟩
  | @newAttribute tag last space =>
      obtain ⟨declared, types⟩ := exists_effectiveType_ne (opens_between tag last)
        (opens_attributeName tag (cs.reverse ++ [])) rfl asks.1 asks.2 differ
      obtain ⟨valued, typing⟩ := typing_typeAttribute (by rfl) types
      exact ⟨.inr (congrArg Caret.awaitingAttribute space), _, rfl, valued,
        typing.imp_right Option.some.inj⟩
  | value tag name quote typed =>
      obtain ⟨declared, types⟩ := exists_effectiveType_ne (opens_value tag name quote typed)
        (opens_value tag name quote (cs.reverse ++ typed)) rfl asks.1 asks.2 differ
      exact absurd (effectiveType_insert_current declared tag name _ _) types
  | text typed =>
      rw [topType?, topType?, top?_settle_text, top?_settle_text] at differ
      exact absurd rfl differ
  | content =>
      rw [topType?, topType?, top?_settle_text] at differ
      exact absurd rfl differ

/-! ## Texts -/

/-- The innermost open element of a text that agrees gets another type by what is typed on. -/
def Retypes (schema : Schema) (text more : String) : Prop :=
  (ofText schema text).Agrees ∧
    (ofText schema (text ++ more)).topType? ≠ (ofText schema text).topType?

instance (schema : Schema) (text more : String) : Decidable (Retypes schema text more) :=
  inferInstanceAs (Decidable (_ ∧ _))

theorem Markup.Mode.GrowsTo.elsewhere (grows : mode.GrowsTo cs next) :
    mode.caret ≠ .inEndTag ∧ next.caret ≠ .inEndTag := by
  cases grows with
  | name typing =>
      rcases typedName?_cases typing with ⟨rfl, rfl⟩ | rfl <;> simp [Mode.caret]
  | _ => simp [Mode.caret]

/-- Two texts, of which the longer one goes on with the fragment of the other, and the replay
of what has closed in both. -/
structure SharesClosed (schema : Schema) (text more : String) (closed : Replay) (next : Mode) :
    Prop where
  grows : (modeAfter .fresh text.toList).GrowsTo more.toList next
  mode : modeAfter .fresh (text ++ more).toList = next
  before : ofText schema text = Reading.settle schema ⟨modeAfter .fresh text.toList, closed⟩
  after : ofText schema (text ++ more) = Reading.settle schema ⟨next, closed⟩
  clean : IsClean schema text ↔ (modeAfter .fresh text.toList).Asks schema closed
  stillClean : IsClean schema (text ++ more) ↔ next.Asks schema closed
  early : closed.Agrees → closed.started = false → closed.stack = []

theorem Markup.TypesOn.sharesClosed {text more : String} (typesOn : TypesOn text more)
    (nonempty : more ≠ "") (schema : Schema) :
    ∃ closed next, SharesClosed schema text more closed next := by
  obtain ⟨next, reads, grows⟩ := typesOn.grows nonempty
  have whole := Reading.read_append_of_reads schema reads
  refine ⟨(({} : Reading).read schema text.toList).closed, next, grows, congrArg Reading.mode whole,
    ofText_eq_settle schema text, ?_, ?_, ?_, ?_⟩
  · rw [ofText_eq_settle, whole]
  · exact (isClean_iff_read schema text).trans (isClean_iff_asks schema _)
  · rw [isClean_iff_read, whole]
    exact isClean_iff_asks schema _
  · exact fun agrees unbegun => ((mirrors_runClosed agrees).early unbegun).1

theorem SharesClosed.fragmentOf_eq {text more : String}
    (shares : SharesClosed schema text more closed next) :
    fragmentOf (text ++ more) = fragmentOf text ++ more := by
  rw [fragmentOf, fragmentOf, shares.mode, shares.grows.fragment, spell_append, String.ofList_toList]

/-- Right after a start tag that has closed, it is what came last. -/
theorem SharesClosed.entered {text more : String}
    (shares : SharesClosed schema text more closed next) (typesOn : TypesOn text more)
    (complete : (ofText schema text).isComplete = true)
    (content : modeAfter .fresh text.toList = .content) :
    ∃ tag, closed.last = some (.startTag tag) := by
  have same := shares.before
  rw [content] at same
  have last := (last_ofText complete).1
  rw [same] at last
  cases typesOn with
  | content tag _ found _ => exact ⟨tag, last.trans found⟩
  | text word found _ => exact absurd found (getLast?_events_of_content content word)
  | name typing _ _ => simp [caretOf, content, Mode.caret] at typing
  | attributeName typing _ _ => simp [caretOf, content, Mode.caret] at typing
  | newAttribute typing _ _ _ => simp [caretOf, content, Mode.caret] at typing
  | value quote typing _ => simp [caretOf, content, Mode.caret] at typing

/-- Whether the texts are clean or not, the later offers are among the earlier ones. -/
theorem SharesClosed.suggestions_eq {text more : String}
    (shares : SharesClosed engine.schema text more closed next) (hookless : engine.hooks = {})
    (nonempty : more ≠ "") (typesOn : TypesOn text more)
    (keepsType : ¬ Retypes engine.schema text more) :
    (engine.suggest (text ++ more)).suggestions =
      (engine.suggest text).suggestions.filter
        (Suggestion.goesOnFrom (caretOf text) (fragmentOf (text ++ more))) := by
  have spelled : more.toList ≠ [] := by simpa using nonempty
  by_cases clean : IsClean engine.schema text
  · have asks := shares.clean.mp clean
    have agrees : (ofText engine.schema text).Agrees :=
      ⟨clean.1, clean.2.resolve_right shares.grows.elsewhere.1⟩
    by_cases still : next.Asks engine.schema closed
    · rw [suggest_of_isClean clean, suggest_of_isClean (shares.stillClean.mpr still)]
      have sameType : (ofText engine.schema (text ++ more)).topType? =
          (ofText engine.schema text).topType? := by
        by_contra differ
        exact keepsType ⟨agrees, differ⟩
      rw [shares.after, shares.before] at sameType ⊢
      rw [fragmentOf, caretOf, shares.mode]
      exact offersIn_grows hookless spelled shares.grows asks
        (shares.entered typesOn clean.1) sameType
    · -- what was typed on says something before the root, and nothing had been offered there
      have unclean : ¬ IsClean engine.schema (text ++ more) := still ∘ shares.stillClean.mp
      have nothing := offersIn_of_not_asks shares.grows asks still
        (shares.early (agrees_of_asks asks))
      rw [suggest_of_isClean clean, suggest_of_not_isClean unclean, shares.before, nothing]
      rfl
  · rw [suggest_of_not_isClean clean, suggest_of_not_isClean (not_isClean_append clean more)]
    rfl

/-- The lengths of two completions differ as their fragments do. -/
theorem narrows_of_suggestions {text more : String} {kept : Suggestion → Bool}
    (elsewhere : caretOf text ≠ .inEndTag) (still : caretOf (text ++ more) ≠ .inEndTag)
    (fragment : fragmentOf (text ++ more) = fragmentOf text ++ more)
    (suggestions : (engine.suggest (text ++ more)).suggestions =
      (engine.suggest text).suggestions.filter kept) :
    Narrows (engine.suggest text) (engine.suggest (text ++ more)) kept more.length := by
  refine ⟨suggestions, fun left => ?_⟩
  obtain ⟨suggestion, offered⟩ := List.exists_mem_of_ne_nil _ left
  have earlier : suggestion ∈ (engine.suggest text).suggestions := by
    rw [suggestions] at offered
    exact List.mem_of_mem_filter offered
  obtain ⟨length, -⟩ := continues_fragmentOf elsewhere earlier
  obtain ⟨longer, -⟩ := continues_fragmentOf still offered
  rw [length, longer, fragment, String.length_append]

/-- **Typing on narrows the offers.**  What is typed on goes on with the fragment.  The
offers that are left are, in their order, those that go on from the longer fragment, an end tag
apart where a name is being typed; and if there are any, as many characters more are
replaced.  This holds as long as the innermost open element keeps its type, and it loses its
type only while the name of an attribute is being typed: when the tag has a type already and
the name typed, before or after, is that of the attribute that gives it. -/
theorem typing_on_narrows (engine : Engine) (hookless : engine.hooks = {}) (text more : String)
    (nonempty : more ≠ "") (typesOn : TypesOn text more) :
    fragmentOf (text ++ more) = fragmentOf text ++ more ∧
      (¬ Retypes engine.schema text more →
        Narrows (engine.suggest text) (engine.suggest (text ++ more))
          (Suggestion.goesOnFrom (caretOf text) (fragmentOf (text ++ more))) more.length) ∧
      (Retypes engine.schema text more →
        (caretOf text = .inAttributeName ∨ caretOf text = .awaitingAttribute true) ∧
          ∃ tag, (events text).getLast? = some (.startTag tag) ∧
            tag.attributes.text? typeAttribute ≠ none ∧
            (tag.current = some typeAttribute ∨ fragmentOf (text ++ more) = typeAttribute)) := by
  obtain ⟨closed, next, shares⟩ := typesOn.sharesClosed nonempty engine.schema
  obtain ⟨elsewhere, still⟩ := shares.grows.elsewhere
  rw [← shares.mode] at still
  refine ⟨shares.fragmentOf_eq, fun keepsType => ?_, ?_⟩
  · exact narrows_of_suggestions elsewhere still shares.fragmentOf_eq
      (shares.suggestions_eq hookless nonempty typesOn keepsType)
  · rintro ⟨agrees, differ⟩
    have asks := shares.clean.mp ⟨agrees.1, .inl agrees.2⟩
    rw [shares.after, shares.before] at differ
    obtain ⟨caret, tag, pending, valued, typing⟩ := retypes_of_grows shares.grows asks differ
    rw [← shares.mode] at typing
    exact ⟨caret, tag, getLast?_events pending, valued, typing⟩

/-- A word among blanks, and an attribute that is given again. -/
theorem parcels_typing_on_narrows :
    (TypesOn "<parcel>\u00a0g" "r" ∧
      Narrows ((Engine.mk parcels {} {}).suggest "<parcel>\u00a0g")
        ((Engine.mk parcels {} {}).suggest ("<parcel>\u00a0g" ++ "r"))
        (Suggestion.goesOnFrom (caretOf "<parcel>\u00a0g")
          (fragmentOf ("<parcel>\u00a0g" ++ "r"))) "r".length ∧
      ((Engine.mk parcels {} {}).suggest ("<parcel>\u00a0g" ++ "r")).suggestions.map
        Suggestion.text = ["groß", "grün"]) ∧
    (Retypes parcels "<parcel xsi:type='Freight' xsi:typ" "e" ∧
      ∃ tag, (events "<parcel xsi:type='Freight' xsi:typ").getLast? = some (.startTag tag) ∧
        tag.attributes.text? typeAttribute ≠ none ∧
        (tag.current = some typeAttribute ∨
          fragmentOf ("<parcel xsi:type='Freight' xsi:typ" ++ "e") = typeAttribute)) := by
  have word : TypesOn "<parcel>\u00a0g" "r" :=
    .text "\u00a0g" (by decide +kernel) (by decide +kernel)
  have keepsType : ¬ Retypes parcels "<parcel>\u00a0g" "r" := by decide +kernel
  have again : TypesOn "<parcel xsi:type='Freight' xsi:typ" "e" :=
    .attributeName (by decide +kernel) (by decide +kernel) (by decide +kernel)
  have retypes : Retypes parcels "<parcel xsi:type='Freight' xsi:typ" "e" := by decide +kernel
  have narrows := (typing_on_narrows ⟨parcels, {}, {}⟩ rfl _ _ (by decide) word).2.1 keepsType
  have typed := (typing_on_narrows ⟨parcels, {}, {}⟩ rfl _ _ (by decide) again).2.2 retypes
  exact ⟨⟨word, narrows, by decide +kernel⟩, retypes, typed.2⟩

/-- An attribute is offered, and is gone for want of a type when one more character of its
name has been typed. -/
theorem parcels_lose_type :
    TypesOn "<parcel xsi:type='Freight' xsi:typ" "e" ∧
      ((Engine.mk parcels {} {}).suggest
        "<parcel xsi:type='Freight' xsi:typ").suggestions.map Suggestion.text = ["xsi:types"] ∧
      Text.startsWith "xsi:types" (fragmentOf ("<parcel xsi:type='Freight' xsi:typ" ++ "e")) = true ∧
      ((Engine.mk parcels {} {}).suggest
        ("<parcel xsi:type='Freight' xsi:typ" ++ "e")).suggestions = [] := by
  refine ⟨.attributeName ?_ ?_ ?_, ?_, ?_, ?_⟩
  all_goals decide +kernel

end ContentAssist
