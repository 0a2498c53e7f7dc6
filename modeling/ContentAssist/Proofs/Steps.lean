/-
# ContentAssist.Proofs.Steps -- what one event can do to a replay

Every later proof about a replay goes through the lemmas of this module; none of them
opens `step` again.

* `Agrees`: the replay is complete and valid.  Agreement is never won back
  (`Agrees.of_step`).
* A closed start tag keeps agreement exactly when its name is admitted
  (`agrees_step_startTag`), and nothing but the name decides (`Admits`).
* An end tag with the name of the innermost open element closes it (`step_endTag`);
  one that is still being typed only needs an open element
  (`isComplete_step_endTag_typing`).
* Text keeps agreement unless it says something before the root
  (`agrees_step_text`).
* `Effect`: all that an event without a fault can do to the open elements and the
  document.  `run_induction` carries what every effect keeps along a run.
-/
import ContentAssist.Proofs.Matching
import ContentAssist.Replay.Basic

namespace ContentAssist.Replay

set_option autoImplicit false

open Markup Schema

/-! ## Agreement -/

/-- A root element that is found exists and has the name. -/
theorem elementName?_of_findGlobal? {schema : Schema} {name : String} {element : ElementId}
    (found : schema.findGlobal? name = some element) :
    schema.elementName? element = some name := by
  obtain ⟨⟨id, decl⟩, hit, rfl⟩ := Option.map_eq_some_iff.mp found
  have named : decl.name = name := by simpa using List.find?_some hit
  have listed := List.mem_of_find?_eq_some hit
  simp only [globalElements, List.mem_filterMap, Option.map_eq_some_iff, Prod.mk.injEq] at listed
  obtain ⟨other, -, declared, exist, rfl, rfl⟩ := listed
  simp [elementName?, exist, named]

/-- The replay is complete and valid: nothing in the text disagrees with the schema. -/
def Agrees (replay : Replay) : Prop :=
  replay.isComplete = true ∧ replay.isValid = true

instance (replay : Replay) : Decidable replay.Agrees :=
  inferInstanceAs (Decidable (_ ∧ _))

theorem agrees_iff (replay : Replay) :
    replay.Agrees ↔ replay.stopped = none ∧ replay.fault = none := by
  simp [Agrees, isComplete, isValid]

theorem Agrees.stopped {replay : Replay} (agrees : replay.Agrees) : replay.stopped = none :=
  ((agrees_iff replay).mp agrees).1

theorem Agrees.fault {replay : Replay} (agrees : replay.Agrees) : replay.fault = none :=
  ((agrees_iff replay).mp agrees).2

/-- A step from a replay that goes on and agrees follows a significant event. -/
theorem step_eq_follow {replay : Replay} (agrees : replay.Agrees) (schema : Schema)
    {event : Event} (significant : event.isInsignificant = false) (caret : Caret) :
    replay.step schema event caret =
      { follow schema { replay with caret, lastIsRoot := false } event with
        last := some event } := by
  simp [step, agrees.stopped, agrees.fault, significant]

/-- An insignificant event changes nothing but what came last. -/
theorem step_of_insignificant {replay : Replay} (going : replay.stopped = none)
    (schema : Schema) {event : Event} (insignificant : event.isInsignificant = true)
    (caret : Caret) :
    replay.step schema event caret =
      { replay with caret, lastIsRoot := false, last := some event } := by
  simp [step, going, insignificant]

/-- Nothing significant is followed after a fault. -/
theorem isComplete_step_of_fault {replay : Replay} (schema : Schema) {event : Event}
    {caret : Caret} (significant : event.isInsignificant = false)
    (complete : (replay.step schema event caret).isComplete = true) : replay.Agrees := by
  rw [agrees_iff]
  cases stopped : replay.stopped with
  | some cause => simp [step, stopped, isComplete] at complete
  | none =>
      cases fault : replay.fault with
      | some blamed => simp [step, stopped, fault, significant, isComplete, stop] at complete
      | none => exact ⟨rfl, rfl⟩

/-- Agreement is never won back. -/
theorem Agrees.of_step {schema : Schema} {replay : Replay} {event : Event} {caret : Caret}
    (agrees : (replay.step schema event caret).Agrees) : replay.Agrees := by
  cases significance : event.isInsignificant with
  | false => exact isComplete_step_of_fault schema significance agrees.1
  | true =>
      cases stopped : replay.stopped with
      | some cause =>
          rw [step_of_stopped schema replay event caret (by simp [stopped])] at agrees
          exact agrees
      | none =>
          rw [step_of_insignificant stopped schema significance caret] at agrees
          exact (agrees_iff replay).mpr ⟨stopped, agrees.fault⟩

/-! ## Start tags -/

/-- The entry that an opened element gets on the stack. -/
def entryOf (schema : Schema) (replay : Replay) (element : ElementId) (decl : ElementDecl)
    (tag : StartTag) : OpenElement :=
  { element
    type := effectiveType schema decl.type tag
    nillable := decl.nillable
    progress := Progress.start (schema.content? (effectiveType schema decl.type tag))
    node := replay.document.size }

/-- Opening a declared element adds a node and, unless the tag closes itself, an entry. -/
theorem openElement_eq {schema : Schema} {element : ElementId} {decl : ElementDecl}
    (declared : schema.element? element = some decl) (replay : Replay) (tag : StartTag) :
    openElement schema replay element tag =
      { replay with
        document := replay.document.append (replay.top?.map OpenElement.node) tag
        stack :=
          if tag.selfClosing then replay.stack
          else entryOf schema replay element decl tag :: replay.stack } := by
  simp [openElement, declared, entryOf]

/-- An element with a name is declared. -/
theorem exists_decl_of_elementName? {schema : Schema} {element : ElementId} {name : String}
    (named : schema.elementName? element = some name) :
    ∃ decl, schema.element? element = some decl ∧ decl.name = name := by
  simpa [elementName?] using named

/-- A closed start tag with this name would be accepted: as the root, or as the next
child of the innermost open element. -/
def Admits (schema : Schema) (replay : Replay) (name : String) : Prop :=
  if replay.started then
    ∃ top below after element, replay.stack = top :: below ∧
      matchContent schema (schema.content? top.type) name top.progress = (after, .ok element)
  else ∃ element, schema.findGlobal? name = some element

/-- While the name is being typed a start tag is left alone. -/
theorem step_startTag_typing {replay : Replay} (agrees : replay.Agrees) (schema : Schema)
    (tag : StartTag) :
    replay.step schema (.startTag tag) .inStartName =
      { replay with
        caret := .inStartName, lastIsRoot := !replay.started, started := true
        last := some (.startTag tag) } := by
  rw [step_eq_follow agrees schema rfl]
  cases started : replay.started <;> simp [follow, followStart, followRoot]

/-- A start tag inside an element whose content takes its name opens the element found. -/
theorem step_startTag_inside {schema : Schema} {replay : Replay} (agrees : replay.Agrees)
    (started : replay.started = true) {top : OpenElement} {below : List OpenElement}
    (stack : replay.stack = top :: below) {tag : StartTag} {after : Progress}
    {element : ElementId}
    (taken : matchContent schema (schema.content? top.type) tag.name top.progress =
      (after, .ok element))
    {caret : Caret} (typed : caret ≠ .inStartName) :
    replay.step schema (.startTag tag) caret =
      { openElement schema
          { replay with caret, lastIsRoot := false, stack := { top with progress := after } :: below }
          element tag with
        last := some (.startTag tag) } := by
  rw [step_eq_follow agrees schema rfl]
  simp [follow, followStart, started, stack, taken, typed]

/-- The first start tag opens the root element with its name. -/
theorem step_startTag_root {schema : Schema} {replay : Replay} (agrees : replay.Agrees)
    (started : replay.started = false) {tag : StartTag} {element : ElementId}
    (found : schema.findGlobal? tag.name = some element)
    {caret : Caret} (typed : caret ≠ .inStartName) :
    replay.step schema (.startTag tag) caret =
      { openElement schema { replay with caret, lastIsRoot := true, started := true }
          element tag with
        last := some (.startTag tag) } := by
  rw [step_eq_follow agrees schema rfl]
  simp [follow, followRoot, started, found, typed]

/-- **Only the name decides.**  A start tag keeps agreement exactly when its name is
still being typed or is admitted. -/
theorem agrees_step_startTag (schema : Schema) (replay : Replay) (tag : StartTag)
    (caret : Caret) :
    (replay.step schema (.startTag tag) caret).Agrees ↔
      replay.Agrees ∧ (caret = .inStartName ∨ replay.Admits schema tag.name) := by
  constructor
  · intro after
    have agrees := after.of_step
    refine ⟨agrees, ?_⟩
    by_cases typing : caret = .inStartName
    · exact .inl typing
    · right
      rw [step_eq_follow agrees schema rfl, agrees_iff] at after
      unfold Admits
      cases started : replay.started with
      | false =>
          cases found : schema.findGlobal? tag.name with
          | some element => simp
          | none => simp [follow, followRoot, started, typing, found, blame] at after
      | true =>
          cases stack : replay.stack with
          | nil => simp [follow, followStart, started, typing, stack, stop] at after
          | cons top below =>
              rcases taken : matchContent schema (schema.content? top.type) tag.name top.progress
                with ⟨progress, _ | element⟩
              · simp [follow, followStart, started, typing, stack, taken, blame] at after
              · simp only [if_true]
                exact ⟨top, below, progress, element, rfl, taken⟩
  · rintro ⟨agrees, typing | admitted⟩
    · rw [typing, step_startTag_typing agrees, agrees_iff]
      exact ⟨agrees.stopped, agrees.fault⟩
    · by_cases typing : caret = .inStartName
      · rw [typing, step_startTag_typing agrees, agrees_iff]
        exact ⟨agrees.stopped, agrees.fault⟩
      · unfold Admits at admitted
        split at admitted
        · rename_i started
          obtain ⟨top, below, progress, element, stack, taken⟩ := admitted
          obtain ⟨decl, declared, -⟩ :=
            exists_decl_of_elementName? (elementName?_of_matchContent taken)
          rw [step_startTag_inside agrees started stack taken typing, openElement_eq declared,
            agrees_iff]
          exact ⟨agrees.stopped, agrees.fault⟩
        · rename_i started
          obtain ⟨element, found⟩ := admitted
          obtain ⟨decl, declared, -⟩ :=
            exists_decl_of_elementName? (elementName?_of_findGlobal? found)
          rw [step_startTag_root agrees (by simpa using started) found typing,
            openElement_eq declared, agrees_iff]
          exact ⟨agrees.stopped, agrees.fault⟩

/-! ## End tags and text -/

/-- An end tag with the name of the innermost open element closes it. -/
theorem step_endTag {schema : Schema} {replay : Replay} (agrees : replay.Agrees)
    (started : replay.started = true) {top : OpenElement} {below : List OpenElement}
    (stack : replay.stack = top :: below) {name : String}
    (named : schema.elementName? top.element = some name) (caret : Caret) :
    replay.step schema (.endTag name) caret =
      { replay with caret, lastIsRoot := false, stack := below, last := some (.endTag name) } := by
  rw [step_eq_follow agrees schema rfl]
  simp [follow, followEnd, started, stack, named]

/-- An end tag is complete only inside an element. -/
theorem open_of_isComplete_step_endTag {schema : Schema} {replay : Replay} {name : String}
    {caret : Caret} (complete : (replay.step schema (.endTag name) caret).isComplete = true) :
    replay.Agrees ∧ replay.started = true ∧ replay.stack ≠ [] := by
  have agrees := isComplete_step_of_fault schema rfl complete
  refine ⟨agrees, ?_⟩
  rw [step_eq_follow agrees schema rfl] at complete
  cases started : replay.started with
  | false => simp [follow, started, stop, isComplete] at complete
  | true =>
      refine ⟨rfl, fun stack => ?_⟩
      simp [follow, followEnd, started, stack, stop, isComplete] at complete

/-- While an end tag is being typed, an open element is all it needs. -/
theorem isComplete_step_endTag_typing {schema : Schema} {replay : Replay} (agrees : replay.Agrees)
    (started : replay.started = true) (inside : replay.stack ≠ []) (name : String) :
    (replay.step schema (.endTag name) .inEndTag).isComplete = true := by
  rw [step_eq_follow agrees schema rfl]
  obtain ⟨top, below, stack⟩ := List.exists_cons_of_ne_nil inside
  by_cases named : schema.elementName? top.element = some name
  · simp [follow, followEnd, started, stack, named, isComplete, agrees.stopped]
  · simp [follow, followEnd, started, stack, named, isComplete, blame, agrees.stopped]

/-- An end tag that does not have the name yet leaves the element open. -/
theorem step_endTag_unfinished {schema : Schema} {replay : Replay} (agrees : replay.Agrees)
    (started : replay.started = true) {top : OpenElement} {below : List OpenElement}
    (stack : replay.stack = top :: below) {name : String}
    (other : schema.elementName? top.element ≠ some name) :
    replay.step schema (.endTag name) .inEndTag =
      { replay with
        caret := .inEndTag, lastIsRoot := false, fault := some ⟨name, .endTagUnfinished⟩
        last := some (.endTag name) } := by
  rw [step_eq_follow agrees schema rfl]
  simp [follow, followEnd, started, stack, other, blame]

/-- An end tag keeps agreement exactly when it names the innermost open element. -/
theorem agrees_step_endTag (schema : Schema) (replay : Replay) (name : String) (caret : Caret) :
    (replay.step schema (.endTag name) caret).Agrees ↔
      replay.Agrees ∧ replay.started = true ∧ ∃ top below, replay.stack = top :: below ∧
        schema.elementName? top.element = some name := by
  constructor
  · intro after
    obtain ⟨agrees, started, inside⟩ := open_of_isComplete_step_endTag after.1
    obtain ⟨top, below, stack⟩ := List.exists_cons_of_ne_nil inside
    refine ⟨agrees, started, top, below, stack, ?_⟩
    rw [step_eq_follow agrees schema rfl, agrees_iff] at after
    by_cases named : schema.elementName? top.element = some name
    · exact named
    · by_cases typing : caret = .inEndTag
      · simp [follow, followEnd, started, stack, named, typing, blame] at after
      · simp [follow, followEnd, started, stack, named, typing, stop] at after
  · rintro ⟨agrees, started, top, below, stack, named⟩
    rw [step_endTag agrees started stack named, agrees_iff]
    exact ⟨agrees.stopped, agrees.fault⟩

/-- Text inside a document changes nothing but what came last. -/
theorem step_text_inside {replay : Replay} (agrees : replay.Agrees) (schema : Schema)
    (started : replay.started = true) (content : String) (caret : Caret) :
    replay.step schema (.text content) caret =
      { replay with caret, lastIsRoot := false, last := some (.text content) } := by
  cases significance : (Event.text content).isInsignificant with
  | true => exact step_of_insignificant agrees.stopped schema significance caret
  | false =>
      rw [step_eq_follow agrees schema significance]
      simp [follow, started]

/-- Text keeps agreement unless it is significant and comes before the root. -/
theorem agrees_step_text (schema : Schema) (replay : Replay) (content : String)
    (caret : Caret) :
    (replay.step schema (.text content) caret).Agrees ↔
      replay.Agrees ∧
        (replay.started = true ∨ (Event.text content).isInsignificant = true) := by
  constructor
  · intro after
    have agrees := after.of_step
    refine ⟨agrees, ?_⟩
    by_cases significance : (Event.text content).isInsignificant = true
    · exact .inr significance
    · left
      rw [Bool.not_eq_true] at significance
      rw [step_eq_follow agrees schema significance, agrees_iff] at after
      cases started : replay.started with
      | true => rfl
      | false => simp [follow, started, stop] at after
  · rintro ⟨agrees, started | insignificant⟩
    · rw [step_text_inside agrees schema started, agrees_iff]
      exact ⟨agrees.stopped, agrees.fault⟩
    · rw [step_of_insignificant agrees.stopped schema insignificant, agrees_iff]
      exact ⟨agrees.stopped, agrees.fault⟩

/-- An instruction keeps agreement. -/
theorem agrees_step_instruction (schema : Schema) (replay : Replay) (caret : Caret) :
    (replay.step schema .instruction caret).Agrees ↔ replay.Agrees := by
  refine ⟨Agrees.of_step, fun agrees => ?_⟩
  rw [step_of_insignificant agrees.stopped schema rfl, agrees_iff]
  exact ⟨agrees.stopped, agrees.fault⟩

/-! ## Open elements and document -/

/-- All that an event can do to the open elements and the document, short of a fault. -/
inductive Effect (schema : Schema) (before after : Replay) : Prop where
  | kept (stack : after.stack = before.stack) (document : after.document = before.document)
  /-- The innermost open element is gone. -/
  | closed (top : OpenElement) (stack : before.stack = top :: after.stack)
      (document : after.document = before.document)
  /-- A root element has been opened. -/
  | root (tag : StartTag) (element : ElementId) (decl : ElementDecl)
      (early : before.started = false) (begun : after.started = true)
      (declared : schema.element? element = some decl)
      (document : after.document =
        before.document.append (before.top?.map OpenElement.node) tag)
      (stack : after.stack =
        if tag.selfClosing then before.stack
        else entryOf schema before element decl tag :: before.stack)
  /-- The innermost open element has taken a child. -/
  | child (tag : StartTag) (top : OpenElement) (below : List OpenElement) (progress : Progress)
      (element : ElementId) (decl : ElementDecl)
      (inside : before.stack = top :: below)
      (taken : matchContent schema (schema.content? top.type) tag.name top.progress =
        (progress, .ok element))
      (declared : schema.element? element = some decl)
      (document : after.document = before.document.append (some top.node) tag)
      (stack : after.stack =
        if tag.selfClosing then { top with progress } :: below
        else entryOf schema before element decl tag :: { top with progress } :: below)

theorem effect_of_followRoot {schema : Schema} {replay : Replay} {tag : StartTag}
    (early : replay.started = false)
    (valid : (follow schema replay (.startTag tag)).fault = none) :
    Effect schema replay (follow schema replay (.startTag tag)) := by
  simp only [follow, early, followRoot, Bool.false_eq_true, if_false] at valid ⊢
  split
  · exact .kept rfl rfl
  · rename_i typed
    simp only [typed, if_false] at valid
    cases found : schema.findGlobal? tag.name with
    | none => simp [found, blame] at valid
    | some element =>
        obtain ⟨decl, declared, -⟩ :=
          exists_decl_of_elementName? (elementName?_of_findGlobal? found)
        simp only [openElement_eq declared]
        exact .root tag element decl early rfl declared rfl rfl

theorem effect_of_followStart {schema : Schema} {replay : Replay} {tag : StartTag}
    (valid : (followStart schema replay tag).fault = none) :
    Effect schema replay (followStart schema replay tag) := by
  unfold followStart at valid ⊢
  split
  · exact .kept rfl rfl
  · rename_i typed
    simp only [typed, if_false] at valid
    cases inside : replay.stack with
    | nil => exact .kept rfl rfl
    | cons top below =>
        simp only [inside] at valid
        rcases taken : matchContent schema (schema.content? top.type) tag.name top.progress
          with ⟨progress, _ | element⟩
        · simp [taken, blame] at valid
        · obtain ⟨decl, declared, -⟩ :=
            exists_decl_of_elementName? (elementName?_of_matchContent taken)
          simp only [taken, openElement_eq declared]
          exact .child tag top below progress element decl inside taken declared rfl rfl

theorem effect_of_followEnd {schema : Schema} {replay : Replay} {name : String} :
    Effect schema replay (followEnd schema replay name) := by
  unfold followEnd
  cases inside : replay.stack with
  | nil => exact .kept rfl rfl
  | cons top below =>
      simp only
      split
      · exact .closed top inside rfl
      · split
        · exact .kept rfl rfl
        · exact .closed top inside rfl

theorem effect_of_follow {schema : Schema} {replay : Replay} {event : Event}
    (valid : (follow schema replay event).fault = none) :
    Effect schema replay (follow schema replay event) := by
  by_cases started : replay.started = true
  · cases event with
    | startTag tag =>
        simp only [follow, started, if_true] at valid ⊢
        exact effect_of_followStart valid
    | endTag name =>
        simp only [follow, started, if_true]
        exact effect_of_followEnd
    | instruction => simpa [follow, started] using .kept rfl rfl
    | text content => simpa [follow, started] using .kept rfl rfl
  · rw [Bool.not_eq_true] at started
    cases event with
    | startTag tag => exact effect_of_followRoot started valid
    | instruction => simpa [follow, started, stop] using .kept rfl rfl
    | endTag name => simpa [follow, started, stop] using .kept rfl rfl
    | text content => simpa [follow, started, stop] using .kept rfl rfl

/-- Passing over what came last and where the typing stood. -/
theorem Effect.of_follow {schema : Schema} {replay : Replay} {event : Event} {caret : Caret}
    (effect : Effect schema { replay with caret, lastIsRoot := false }
      (follow schema { replay with caret, lastIsRoot := false } event)) :
    Effect schema replay
      { follow schema { replay with caret, lastIsRoot := false } event with
        last := some event } := by
  cases effect with
  | kept stack document => exact .kept stack document
  | closed top stack document => exact .closed top stack document
  | root tag element decl early begun declared document stack =>
      exact .root tag element decl early begun declared document stack
  | child tag top below progress element decl inside taken declared document stack =>
      exact .child tag top below progress element decl inside taken declared document stack

theorem isValid_of_step {schema : Schema} {replay : Replay} {event : Event} {caret : Caret}
    (valid : (replay.step schema event caret).fault = none) : replay.fault = none := by
  cases fault : replay.fault with
  | none => rfl
  | some blamed =>
      unfold step at valid
      split at valid
      · exact (fault.symm.trans valid)
      · split at valid
        · exact (fault.symm.trans valid)
        · simp [fault, stop] at valid

/-- **What one event can do.** -/
theorem effect_of_step {schema : Schema} {replay : Replay} {event : Event} {caret : Caret}
    (valid : (replay.step schema event caret).fault = none) :
    Effect schema replay (replay.step schema event caret) := by
  have sound := isValid_of_step valid
  cases stopped : replay.stopped with
  | some cause =>
      rw [step_of_stopped schema replay event caret (by simp [stopped])]
      exact .kept rfl rfl
  | none =>
      cases significance : event.isInsignificant with
      | true =>
          rw [step_of_insignificant stopped schema significance]
          exact .kept rfl rfl
      | false =>
          rw [step_eq_follow ((agrees_iff replay).mpr ⟨stopped, sound⟩) schema significance]
            at valid ⊢
          exact Effect.of_follow (effect_of_follow valid)

theorem started_openElement (schema : Schema) (replay : Replay) (element : ElementId)
    (tag : StartTag) : (openElement schema replay element tag).started = replay.started := by
  unfold openElement
  split <;> rfl

theorem started_follow {schema : Schema} {replay : Replay} (begun : replay.started = true)
    (event : Event) : (follow schema replay event).started = true := by
  cases event with
  | startTag tag =>
      rw [follow, if_pos begun]
      unfold followStart
      split
      · exact begun
      · split
        · exact begun
        · split
          · rw [started_openElement]
            exact begun
          · exact begun
  | endTag name =>
      rw [follow, if_pos begun]
      unfold followEnd
      split
      · exact begun
      · split
        · exact begun
        · split <;> exact begun
  | instruction => simp [follow, begun]
  | text content => simp [follow, begun]

/-- Once begun, a document stays so. -/
theorem started_step {schema : Schema} {replay : Replay} {event : Event} {caret : Caret}
    (begun : replay.started = true) : (replay.step schema event caret).started = true := by
  unfold step
  split
  · exact begun
  · dsimp only
    split
    · exact begun
    · split
      · exact begun
      · have current : { replay with caret, lastIsRoot := false }.started = true := begun
        exact started_follow current event

/-! ## What came last -/

theorem caret_openElement (schema : Schema) (replay : Replay) (element : ElementId)
    (tag : StartTag) : (openElement schema replay element tag).caret = replay.caret := by
  unfold openElement
  split <;> rfl

theorem caret_follow (schema : Schema) (replay : Replay) (event : Event) :
    (follow schema replay event).caret = replay.caret := by
  unfold follow
  split
  · cases event with
    | startTag tag =>
        simp only [followStart]
        repeat' split
        all_goals first | rfl | exact caret_openElement schema _ _ tag
    | endTag name =>
        simp only [followEnd]
        repeat' split
        all_goals rfl
    | instruction => rfl
    | text content => rfl
  · cases event with
    | startTag tag =>
        simp only [followRoot]
        repeat' split
        all_goals first | rfl | exact caret_openElement schema _ _ tag
    | _ => rfl

/-- A replay that goes on has taken note of the event and of where the typing stood. -/
theorem last_step {schema : Schema} {replay : Replay} {event : Event} {caret : Caret}
    (complete : (replay.step schema event caret).isComplete = true) :
    (replay.step schema event caret).last = some event ∧
      (replay.step schema event caret).caret = caret := by
  cases stopped : replay.stopped with
  | some cause => simp [step, stopped, isComplete] at complete
  | none =>
      cases significance : event.isInsignificant with
      | true =>
          rw [step_of_insignificant stopped schema significance]
          exact ⟨rfl, rfl⟩
      | false =>
          have agrees := isComplete_step_of_fault schema significance complete
          rw [step_eq_follow agrees schema significance]
          exact ⟨rfl, caret_follow schema _ event⟩

/-! ## Runs -/

/-- What holds at the beginning and is kept by every event without a fault holds of
every run without a fault.  The property may speak of the tokens read so far. -/
theorem run_induction {schema : Schema} {P : List Token → Replay → Prop} (init : P [] {})
    (keep : ∀ seen token replay, P seen replay →
      (replay.step schema token.event token.caret).fault = none →
      P (seen ++ [token]) (replay.step schema token.event token.caret))
    (tokens : List Token) (valid : (run schema {} tokens).fault = none) :
    P tokens (run schema {} tokens) := by
  have general : ∀ (rest seen : List Token) (replay : Replay), P seen replay →
      (run schema replay rest).fault = none → P (seen ++ rest) (run schema replay rest) := by
    intro rest
    induction rest with
    | nil =>
        intro seen replay holds _
        simpa [run] using holds
    | cons token rest ih =>
        intro seen replay holds valid
        have first : (replay.step schema token.event token.caret).fault = none := by
          have later : ∀ (rest : List Token) (replay : Replay),
              (run schema replay rest).fault = none → replay.fault = none := by
            intro rest
            induction rest with
            | nil => exact fun _ valid => valid
            | cons token rest ih => exact fun replay valid => isValid_of_step (ih _ valid)
          exact later rest _ valid
        have := ih (seen ++ [token]) _ (keep seen token replay holds first) valid
        rwa [List.append_assoc, List.singleton_append] at this
  simpa using general tokens [] {} init valid

end ContentAssist.Replay
