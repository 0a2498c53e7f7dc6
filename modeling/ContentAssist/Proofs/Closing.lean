/-
# ContentAssist.Proofs.Closing -- end tags that are being typed

An end tag that is being typed is the one place where a replay with a fault still gets an
offer.  `TypesEndTag` says where such a tag stands in its text; the replay there is one step
after what stands before the bracket (`TypesEndTag.ofText_eq`), so the open element that the
tag is to close is known.

* A text that disagrees gets no offers, unless it ends in such a tag.  There the end tag of
  the innermost open element is offered if its name goes on from what has been typed
  (`silent_unless_typing_endTag`).
* The offered name is meant to replace what has been typed of it.  `offered_endTag_agrees_iff`
  says when that gives a text that agrees.  It does right after an unfinished name.  It does
  not after white space, since the characters replaced are then not those of the name; nor
  after a finished name, where the offer is the name of the element around it.
-/
import ContentAssist.Proofs.Mirror
import ContentAssist.Proofs.Offered

namespace ContentAssist

set_option autoImplicit false

open Markup Schema Replay Completion

/-! ## Where the tag stands -/

namespace Markup

/-- The text ends in an end tag that is not closed.  Its bracket stands outside of markup
after `front`; `typed` is there of its name, and white space parts it from the `rest`. -/
structure TypesEndTag (text front typed rest : String) : Prop where
  written : text = front ++ "</" ++ typed ++ rest
  outside : caretOf front = .atStart ∨ caretOf front = .inText
  plain : Plain typed
  parted : ∀ c ∈ rest.toList.head?, Text.isSpace c = true
  unclosed : '>' ∉ rest.toList

/-- Where an end tag is being typed, it stands in the text. -/
theorem exists_typesEndTag {text : String} (typing : caretOf text = .inEndTag) :
    ∃ front typed rest, TypesEndTag text front typed rest := by
  rcases outside_or_began text.toList with outside | ⟨front, inner, split, outside, -, -, spells⟩
  · rw [Mode.outside_iff_caret, ← caretOf, typing] at outside
    simp at outside
  · have before : caretOf (String.ofList front) = .atStart ∨
        caretOf (String.ofList front) = .inText := by
      rw [caretOf, String.toList_ofList]
      exact (Mode.outside_iff_caret _).mp outside
    rw [caretOf] at typing
    cases mode : modeAfter .fresh text.toList with
    | endName typed =>
        rw [mode] at spells
        obtain ⟨spelled, plain⟩ := spells
        refine ⟨String.ofList front, spell typed, "", ?_, before, plain, by simp, by simp⟩
        apply String.toList_injective
        simp [split, spelled, spell]
    | endRest name =>
        rw [mode] at spells
        obtain ⟨space, rest, spelled, plain, isSpace, unclosed⟩ := spells
        have notBracket : '>' ≠ space := by
          rintro rfl
          exact absurd isSpace (by decide)
        refine ⟨String.ofList front, name, String.ofList (space :: rest), ?_, before, plain,
          by simpa using isSpace, by simp [notBracket, unclosed]⟩
        apply String.toList_injective
        simp [split, spelled]
    | _ => simp [mode, Mode.caret] at typing

end Markup

/-- The open elements of a replay that agrees are declared. -/
theorem exists_decl_beforeTag {schema : Schema} {front : String}
    (agrees : (beforeTag schema front).Agrees) {top : OpenElement} {below : List OpenElement}
    (stack : (beforeTag schema front).stack = top :: below) :
    ∃ decl, schema.element? top.element = some decl := by
  obtain ⟨names, -, opened⟩ := (mirrors_runClosed agrees).names
  change (beforeTag schema front).stack.map _ = _ at opened
  rw [stack, List.map_cons] at opened
  cases names with
  | nil => cases opened
  | cons name names =>
      obtain ⟨decl, declared, -⟩ := exists_decl_of_elementName? (List.cons.inj opened).1
      exact ⟨decl, declared⟩

namespace Markup.TypesEndTag

variable {text front typed rest : String} {schema : Schema}

/-- The replay at an end tag being typed, and what it is once the tag has been closed. -/
theorem ofText_eq (typing : TypesEndTag text front typed rest) (schema : Schema) :
    ofText schema text = (beforeTag schema front).step schema (.endTag typed) .inEndTag ∧
      ofText schema (text ++ ">") =
        (beforeTag schema front).step schema (.endTag typed) .inText := by
  obtain ⟨mode, reads, pending, caret, closes⟩ :=
    reads_endTag_typed typing.plain typing.parted typing.unclosed
  have outside := (Mode.outside_iff_caret _).mpr typing.outside
  constructor
  · rw [ofText_tag text outside reads (by simp [typing.written])]
    simp [Reading.settle, pending, caret]
  · rw [ofText_tag (text ++ ">") outside (reads.append (.last closes))
      (by simp [typing.written])]
    simp [Reading.settle, Mode.pending?]

/-- A complete replay is inside an element that the tag is to close, and nothing but its name
decides whether a text with an end tag in this place agrees. -/
theorem awaits (typing : TypesEndTag text front typed rest)
    (complete : (ofText schema text).isComplete = true) :
    ∃ top below, (beforeTag schema front).Agrees ∧ (beforeTag schema front).started = true ∧
      (beforeTag schema front).stack = top :: below ∧
      ∀ name caret, ((beforeTag schema front).step schema (.endTag name) caret).Agrees ↔
        schema.elementName? top.element = some name := by
  rw [(typing.ofText_eq schema).1] at complete
  obtain ⟨agrees, started, inside⟩ := open_of_isComplete_step_endTag complete
  obtain ⟨top, below, stack⟩ := List.exists_cons_of_ne_nil inside
  refine ⟨top, below, agrees, started, stack, fun name caret => ?_⟩
  rw [agrees_step_endTag]
  simp [agrees, started, stack]

/-- Where the tag does not agree, its element is still open and has another name. -/
theorem unfinished (typing : TypesEndTag text front typed rest)
    (complete : (ofText schema text).isComplete = true)
    (disagrees : ¬ (ofText schema text).Agrees) :
    ∃ top decl, (ofText schema text).top? = some top ∧
      schema.element? top.element = some decl ∧ decl.name ≠ typed := by
  obtain ⟨top, below, agrees, started, stack, decides⟩ := typing.awaits complete
  obtain ⟨decl, declared⟩ := exists_decl_beforeTag agrees stack
  have followed := (typing.ofText_eq schema).1
  have other : schema.elementName? top.element ≠ some typed := by
    rwa [followed, decides] at disagrees
  rw [followed, step_endTag_unfinished agrees started stack other]
  refine ⟨top, decl, by simp [top?, stack], declared, ?_⟩
  rintro rfl
  simp [elementName?, declared] at other

/-- The offers at an end tag being typed are those for an end tag. -/
theorem suggest_eq {engine : Engine} (typing : TypesEndTag text front typed rest)
    (complete : (ofText engine.schema text).isComplete = true) :
    engine.suggest text =
      endTagOffers engine.schema (ofText engine.schema text) typed := by
  have followed := (typing.ofText_eq engine.schema).1
  obtain ⟨last, caret⟩ := last_step (followed ▸ complete)
  rw [← followed] at last caret
  simp [Engine.suggest, ofReplay, complete, typedEndTag?, last, caret]

end Markup.TypesEndTag

/-! ## Silence -/

namespace Completion

theorem typedEndTag?_eq_some {replay : Replay} {typed : String}
    (found : typedEndTag? replay = some typed) :
    replay.last = some (.endTag typed) ∧ replay.caret = .inEndTag := by
  unfold typedEndTag? at found
  split at found
  · rename_i name last caret
    cases found
    exact ⟨last, caret⟩
  · cases found

theorem startsWith_iff (word typed : String) :
    Text.startsWith word typed = true ↔ typed.toList <+: word.toList := by
  rw [Text.startsWith, List.isPrefixOf_iff_prefix]

/-- The offers for an end tag are at most the end tag of the innermost open element. -/
theorem endTagOffers_eq {schema : Schema} {replay : Replay} {top : OpenElement}
    {decl : ElementDecl} (inside : replay.top? = some top)
    (declared : schema.element? top.element = some decl) (typed : String) :
    endTagOffers schema replay typed =
      if typed.toList <+: decl.name.toList then
        { suggestions := [.endTag schema decl false], length := typed.length }
      else {} := by
  simp only [endTagOffers, inside, Option.bind_some, declared, startsWith_iff]

end Completion

/-- **A text that disagrees gets no offers**, unless its replay is complete and it ends in an
end tag that is being typed.  Then the innermost open element has another name than the one
typed; its end tag is the only offer if its name goes on from there, and the length is that
of what has been typed; and there is no offer otherwise. -/
theorem silent_unless_typing_endTag (engine : Engine) (text : String)
    (disagrees : ¬ (ofText engine.schema text).Agrees) :
    (¬ ((ofText engine.schema text).isComplete = true ∧ caretOf text = .inEndTag ∧
        ∃ typed, (events text).getLast? = some (.endTag typed)) → engine.suggest text = {}) ∧
    ∀ typed, (ofText engine.schema text).isComplete = true → caretOf text = .inEndTag →
      (events text).getLast? = some (.endTag typed) →
      ∃ top decl, (ofText engine.schema text).top? = some top ∧
        engine.schema.element? top.element = some decl ∧ decl.name ≠ typed ∧
        (typed.toList <+: decl.name.toList →
          ∃ suggestion, suggestion.insertion = .endTag decl.name false ∧
            engine.suggest text = { suggestions := [suggestion], length := typed.length }) ∧
        (¬ typed.toList <+: decl.name.toList → engine.suggest text = {}) := by
  constructor
  · intro elsewhere
    cases complete : (ofText engine.schema text).isComplete with
    | false => simp [Engine.suggest, ofReplay, complete]
    | true =>
        have invalid : (ofText engine.schema text).isValid = false := by
          simpa [Agrees, complete] using disagrees
        cases found : typedEndTag? (ofText engine.schema text) with
        | none => simp [Engine.suggest, ofReplay, complete, found, invalid]
        | some typed =>
            obtain ⟨last, caret⟩ := typedEndTag?_eq_some found
            obtain ⟨lastEvent, atEnd⟩ := last_ofText complete
            rw [last] at lastEvent
            rw [caret] at atEnd
            exact absurd ⟨complete, atEnd.symm, typed, lastEvent.symm⟩ elsewhere
  · intro typed complete caret last
    obtain ⟨front, name, rest, typing⟩ := exists_typesEndTag caret
    have same : name = typed := by
      have lastEvent := (last_ofText complete).1
      have followed := (typing.ofText_eq engine.schema).1
      rw [last, followed, (last_step (followed ▸ complete)).1] at lastEvent
      simpa using lastEvent
    subst same
    obtain ⟨top, decl, inside, declared, other⟩ := typing.unfinished complete disagrees
    rw [typing.suggest_eq complete, endTagOffers_eq inside declared]
    refine ⟨top, decl, inside, declared, other, fun begins => ?_, fun strays => if_neg strays⟩
    exact ⟨_, rfl, if_pos begins⟩

/-- An end tag that begins with the right letters is completed, another text with a fault
gets nothing. -/
theorem letters_silent_unless_typing :
    ¬ (ofText letters "<letter></let").Agrees ∧
    (∃ suggestion, suggestion.insertion = .endTag "letter" false ∧
      (Engine.mk letters {} {}).suggest "<letter></let" =
        { suggestions := [suggestion], length := 3 }) ∧
    ¬ (ofText letters "<letter><line/><").Agrees ∧
    (Engine.mk letters {} {}).suggest "<letter><line/><" = {} := by
  have unfinished : ¬ (ofText letters "<letter></let").Agrees := by decide +kernel
  have misplaced : ¬ (ofText letters "<letter><line/><").Agrees := by decide +kernel
  obtain ⟨top, decl, inside, declared, -, offered, -⟩ :=
    (silent_unless_typing_endTag (Engine.mk letters {} {}) _ unfinished).2 "let"
      (by decide +kernel) (by decide +kernel) (by decide +kernel)
  have named : decl.name = "letter" := by
    have found : (ofText letters "<letter></let").top?.bind
        (fun top => letters.elementName? top.element) = some "letter" := by decide +kernel
    rw [inside] at found
    simpa [elementName?, declared] using found
  rw [named] at offered
  refine ⟨unfinished, offered (by decide), misplaced, ?_⟩
  exact (silent_unless_typing_endTag (Engine.mk letters {} {}) _ misplaced).1
    fun typing => absurd typing.2.1 (by decide +kernel)

/-! ## Putting an offered end tag in its place -/

/-- The text with its last characters replaced. -/
def Text.replaceLast (text : String) (count : Nat) (insertion : String) : String :=
  String.ofList (text.toList.take (text.toList.length - count) ++ insertion.toList)

theorem Text.replaceLast_append (text : String) (count : Nat) (insertion more : String) :
    replaceLast text count (insertion ++ more) = replaceLast text count insertion ++ more := by
  apply String.toList_injective
  simp [replaceLast]

/-- The name of an end tag after as many characters as were typed of it have been replaced
at the end of the text.  These are its own characters only if nothing follows it. -/
def replacedName (typed rest name : String) : String :=
  if rest.length ≤ typed.length then String.ofList (typed.toList.take rest.length) ++ name
  else typed

/-- A longer name only stays as it is where it replaces all that was typed. -/
theorem replacedName_eq_name_iff {typed rest name : String} (other : name ≠ typed) :
    name = replacedName typed rest name ↔ rest = "" := by
  unfold replacedName
  split
  · rename_i short
    constructor
    · intro same
      have lengths : name.length = min rest.length typed.length + name.length := by
        simpa [String.length_toList] using congrArg String.length same
      have nothing : rest.length = 0 := by omega
      simpa using nothing
    · rintro rfl
      simp
  · rename_i long
    constructor
    · intro same
      exact absurd same other
    · rintro rfl
      simp at long

/-- The name that was typed is left alone where it stands too far from the end, and is there
again where it was the one inserted. -/
theorem replacedName_eq_typed_iff {typed rest name : String}
    (begins : typed.toList <+: name.toList) :
    typed = replacedName typed rest name ↔
      rest = "" ∧ name = typed ∨ typed.length < rest.length := by
  unfold replacedName
  split
  · rename_i short
    constructor
    · intro same
      have lengths : typed.length = min rest.length typed.length + name.length := by
        simpa [String.length_toList] using congrArg String.length same
      have longer : typed.length ≤ name.length := by
        simpa [String.length_toList] using begins.length_le
      have nothing : rest.length = 0 := by omega
      obtain rfl : rest = "" := by simpa using nothing
      exact .inl ⟨rfl, by simpa using same.symm⟩
    · rintro (⟨rfl, rfl⟩ | long)
      · simp
      · omega
  · rename_i long
    simp [Nat.lt_of_not_le long]

/-- After the replacement an end tag stands in the same place. -/
theorem Markup.TypesEndTag.replaceLast {text front typed rest : String}
    (typing : TypesEndTag text front typed rest) {name : String} (plain : Plain name) :
    ∃ after, TypesEndTag (Text.replaceLast text typed.length name) front
      (replacedName typed rest name) after := by
  -- what is kept of the tag is as long as what followed its name
  have kept : (Text.replaceLast text typed.length name).toList =
      front.toList ++ '<' :: '/' :: (typed.toList.take rest.length ++
        rest.toList.take (rest.length - typed.length) ++ name.toList) := by
    have spelled : text.toList = front.toList ++ ['<', '/'] ++ (typed.toList ++ rest.toList) := by
      simp [typing.written]
    have length : text.toList.length - typed.length =
        (front.toList ++ ['<', '/']).length + rest.length := by
      simp only [spelled, List.length_append, String.length_toList]
      omega
    rw [Text.replaceLast, String.toList_ofList, length, spelled, List.take_length_add_append,
      List.take_append, String.length_toList]
    simp
  unfold replacedName
  split
  · rename_i short
    refine ⟨"", ?_, typing.outside, ?_, by simp, by simp⟩
    · apply String.toList_injective
      rw [kept, Nat.sub_eq_zero_of_le short]
      simp
    · intro c listed
      rw [String.toList_append, String.toList_ofList, List.mem_append] at listed
      rcases listed with old | new
      · exact typing.plain c (List.mem_of_mem_take old)
      · exact plain c new
  · rename_i long
    refine ⟨String.ofList (rest.toList.take (rest.length - typed.length)) ++ name, ?_,
      typing.outside, typing.plain, ?_, ?_⟩
    · apply String.toList_injective
      rw [kept, List.take_of_length_le (by rw [String.length_toList]; omega)]
      simp
    · intro c first
      have some_left : rest.length - typed.length = rest.length - typed.length - 1 + 1 := by
        omega
      cases spelled : rest.toList with
      | nil => simp [← String.length_toList, spelled] at long
      | cons d later =>
          rw [String.toList_append, String.toList_ofList, some_left, spelled] at first
          apply typing.parted c
          rw [spelled]
          exact first
    · rw [String.toList_append, String.toList_ofList, List.mem_append]
      rintro (old | new)
      · exact typing.unclosed (List.mem_of_mem_take old)
      · exact (plain '>' new).2 rfl

/-! ## Which offers are end tags -/

namespace Completion

variable {schema : Schema} {options : Options} {hooks : Hooks} {replay : Replay}
  {tag : StartTag} {suggestion : Suggestion}

theorem insertion_of_mem_attributeNameOffers
    (listed : suggestion ∈ (attributeNameOffers schema options replay tag).suggestions) :
    ∃ name, suggestion.insertion = .attributeName name := by
  unfold attributeNameOffers at listed
  split at listed
  · cases listed
  · have named := (List.mem_filter.mp listed).1
    rcases List.mem_append.mp named with fixed | declared
    · simp only [instanceAttributes, List.mem_append] at fixed
      rcases fixed with (fixed | fixed) | fixed
      all_goals
        split at fixed
        · rw [List.mem_singleton.mp fixed]
          exact ⟨_, rfl⟩
        · cases fixed
    · rw [declaredNames, List.mem_mergeSort] at declared
      obtain ⟨use, -, rfl⟩ := List.mem_map.mp declared
      exact ⟨_, rfl⟩

theorem insertion_of_mem_attributeValueOffers {quote : Option Quote}
    (listed : suggestion ∈ (attributeValueOffers schema hooks replay tag quote).suggestions) :
    ∃ value quoted mark, suggestion.insertion = .attributeValue value quoted mark := by
  cases inside : replay.top? with
  | none => simp [attributeValueOffers, inside] at listed
  | some top =>
      simp only [attributeValueOffers, inside] at listed
      obtain ⟨candidate, -, rfl⟩ := List.mem_map.mp listed
      exact ⟨_, _, _, rfl⟩

theorem insertion_of_mem_textOffers {typed : String}
    (listed : suggestion ∈ (textOffers schema hooks replay typed).suggestions) :
    ∃ value, suggestion.insertion = .value value := by
  unfold textOffers at listed
  split at listed
  · cases listed
  · obtain ⟨candidate, -, rfl⟩ := List.mem_map.mp listed
    exact ⟨_, rfl⟩

/-- Where the text agrees and no end tag is being typed, end tags are offered with their
slash only. -/
theorem withSlash_of_offersEnd {name : String} {withSlash : Bool}
    (offered : (validOffers schema options hooks replay).OffersEnd name withSlash) :
    withSlash = true := by
  unfold validOffers at offered
  split at offered
  · obtain ⟨-, top, suggestion, -, listed, inserts⟩ := mem_closingTag_of_offersEnd offered
    obtain ⟨-, other, -, closes⟩ := mem_closingTag listed
    exact (Insertion.endTag.inj (inserts.symm.trans closes)).2
  all_goals obtain ⟨suggestion, listed, inserts⟩ := offered
  · obtain ⟨_, other⟩ := insertion_of_mem_attributeNameOffers listed
    cases inserts.symm.trans other
  · obtain ⟨_, other⟩ := insertion_of_mem_attributeNameOffers listed
    cases inserts.symm.trans other
  · obtain ⟨_, _, _, other⟩ := insertion_of_mem_attributeValueOffers listed
    cases inserts.symm.trans other
  · obtain ⟨_, _, _, other⟩ := insertion_of_mem_attributeValueOffers listed
    cases inserts.symm.trans other
  · obtain ⟨_, other⟩ := insertion_of_mem_textOffers listed
    cases inserts.symm.trans other
  · obtain ⟨_, other⟩ := insertion_of_mem_textOffers listed
    cases inserts.symm.trans other
  · cases listed

/-- An end tag without its slash is only offered where one is being typed. -/
theorem typing_of_offersEnd {engine : Engine} {text name : String}
    (offered : (engine.suggest text).OffersEnd name false) :
    (ofText engine.schema text).isComplete = true ∧ caretOf text = .inEndTag := by
  unfold Engine.suggest ofReplay at offered
  split at offered
  · simp [OffersEnd] at offered
  · rename_i complete
    have complete : (ofText engine.schema text).isComplete = true := by simpa using complete
    refine ⟨complete, ?_⟩
    split at offered
    · rename_i typed found
      rw [← (last_ofText complete).2]
      exact (typedEndTag?_eq_some found).2
    · split at offered
      · cases withSlash_of_offersEnd offered
      · simp [OffersEnd] at offered

/-- What is offered for an end tag is the name of the innermost open element, and goes on from
what has been typed. -/
theorem open_of_offersEnd_endTagOffers {typed name : String} {withSlash : Bool}
    (offered : (endTagOffers schema replay typed).OffersEnd name withSlash) :
    (∃ top, replay.top? = some top ∧ schema.elementName? top.element = some name) ∧
      typed.toList <+: name.toList ∧
      (endTagOffers schema replay typed).length = typed.length := by
  obtain ⟨suggestion, listed, inserts⟩ := offered
  unfold endTagOffers at listed ⊢
  split at listed
  · rename_i decl found
    split at listed
    · rename_i begins
      obtain rfl := List.mem_singleton.mp listed
      obtain ⟨rfl, -⟩ := Insertion.endTag.inj inserts
      obtain ⟨top, inside, declared⟩ := Option.bind_eq_some_iff.mp found
      refine ⟨⟨top, inside, by simp [elementName?, declared]⟩, (startsWith_iff _ _).mp begins, ?_⟩
      simp [begins]
    · cases listed
  · cases listed

end Completion

/-! ## When it can be written -/

/-- **When an offered end tag can be put in its place.**  An end tag is only offered without
its slash where one is being typed, and the length is that of what has been typed of its
name.  With the offered name and a bracket in place of that many characters the text agrees
in exactly three cases: right after a name that disagrees so far; right after a name that
agrees, if the offered one is the same; and after a name that agrees with so much following
it that the replacement does not reach back to the name. -/
theorem offered_endTag_agrees_iff (engine : Engine) (text name : String) (plain : Plain name)
    (offered : (engine.suggest text).OffersEnd name false) :
    (∃ front typed rest, TypesEndTag text front typed rest) ∧
    ∀ front typed rest, TypesEndTag text front typed rest →
      (engine.suggest text).length = typed.length ∧
      ((ofText engine.schema
          (Text.replaceLast text (engine.suggest text).length (name ++ ">"))).Agrees ↔
        rest = "" ∧ ((ofText engine.schema text).isValid = false ∨ name = typed) ∨
        (ofText engine.schema text).isValid = true ∧ typed.length < rest.length) := by
  obtain ⟨complete, caret⟩ := typing_of_offersEnd offered
  refine ⟨exists_typesEndTag caret, fun front typed rest typing => ?_⟩
  rw [typing.suggest_eq complete] at offered ⊢
  obtain ⟨⟨innermost, inside, named⟩, begins, length⟩ := open_of_offersEnd_endTagOffers offered
  refine ⟨length, ?_⟩
  obtain ⟨after, replaced⟩ := typing.replaceLast plain
  obtain ⟨top, below, earlier, started, stack, decides⟩ := typing.awaits complete
  rw [length, Text.replaceLast_append, (replaced.ofText_eq engine.schema).2, decides]
  by_cases agrees : (ofText engine.schema text).Agrees
  · -- the name is finished, and the offer is that of the element around
    have finished : engine.schema.elementName? top.element = some typed := by
      rwa [(typing.ofText_eq engine.schema).1, decides] at agrees
    rw [finished, Option.some.injEq, replacedName_eq_typed_iff begins]
    simp [agrees.2]
  · -- the name is unfinished, and the offer is that of the element it is to close
    have other : engine.schema.elementName? top.element ≠ some typed := by
      rwa [(typing.ofText_eq engine.schema).1, decides] at agrees
    have invalid : (ofText engine.schema text).isValid = false := by
      simpa [Agrees, complete] using agrees
    rw [(typing.ofText_eq engine.schema).1,
      step_endTag_unfinished earlier started stack other] at inside
    obtain rfl : top = innermost := by simpa [top?, stack] using inside
    rw [named, Option.some.injEq, replacedName_eq_name_iff (by rintro rfl; exact other named)]
    simp [invalid]

/-- Items hold any number of one item; both names begin alike. -/
def inventory : Schema where
  types :=
    [.complex { content := .sequence { particles := [⟨.element 1, .any⟩] } }, .simple {}]
  elements := [{ name := "items", type := 0 }, { name := "item", type := 1 }]
  globals := [0]

/-- The end tag of an item is completed while its name is unfinished. -/
theorem inventory_endTag_agrees :
    Plain "item" ∧
    ((Engine.mk inventory {} {}).suggest "<items><item></it").OffersEnd "item" false ∧
    TypesEndTag "<items><item></it" "<items><item>" "it" "" ∧
    (ofText inventory (Text.replaceLast "<items><item></it"
      ((Engine.mk inventory {} {}).suggest "<items><item></it").length ("item" ++ ">"))).Agrees := by
  have plain : Plain "item" := by decide
  have offered : ((Engine.mk inventory {} {}).suggest "<items><item></it").OffersEnd
      "item" false := by decide +kernel
  have typing : TypesEndTag "<items><item></it" "<items><item>" "it" "" :=
    ⟨by decide, by decide +kernel, by decide, by decide, by decide⟩
  have agrees := ((offered_endTag_agrees_iff _ _ _ plain offered).2 _ _ _ typing).2
  exact ⟨plain, offered, typing, agrees.mpr (.inl ⟨rfl, .inl (by decide +kernel)⟩)⟩

/-- Once the name of the item has been typed, the end tag of the items around it is offered,
and it cannot be put there: the item has not been closed. -/
theorem inventory_offers_outer_endTag :
    Plain "items" ∧
    ((Engine.mk inventory {} {}).suggest "<items><item></item").OffersEnd "items" false ∧
    ¬ (ofText inventory (Text.replaceLast "<items><item></item"
      ((Engine.mk inventory {} {}).suggest "<items><item></item").length
      ("items" ++ ">"))).Agrees := by
  refine ⟨by decide, by decide +kernel, by decide +kernel⟩

end ContentAssist
