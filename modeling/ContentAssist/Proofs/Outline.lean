/-
# ContentAssist.Proofs.Outline -- what a replay is without its document

A replay keeps a document for hooks to look at, and every open element knows its node there.
Neither decides how the replay goes on.  The *outline* of a replay is what is left when the
document and the nodes are dropped.

* `outline_step`: a step keeps to the outline, so replays with one outline stay together
  (`outline_step_congr`).
* Offers look at the innermost open element but not at its node, unless a hook is asked
  (`elementOffers_outline` and its kin); so an engine without hooks offers the same for one
  outline (`ofReplay_outline`).
-/
import ContentAssist.Engine

namespace ContentAssist

set_option autoImplicit false

open Markup Schema Replay Completion

/-! ## Outlines -/

namespace Replay

/-- An open element without its place in the document. -/
def OpenElement.bare (entry : OpenElement) : OpenElement :=
  { entry with node := 0 }

/-- A replay without its document. -/
def outline (replay : Replay) : Replay :=
  { replay with stack := replay.stack.map OpenElement.bare, document := {} }

@[simp] theorem bare_bare (entry : OpenElement) : entry.bare.bare = entry.bare := rfl

@[simp] theorem outline_outline (replay : Replay) : replay.outline.outline = replay.outline := by
  simp [outline, Function.comp_def]

theorem top?_outline (replay : Replay) :
    replay.outline.top? = replay.top?.map OpenElement.bare := by
  simp [outline, top?]

/-! ## Steps keep to the outline -/

theorem outline_openElement (schema : Schema) (replay : Replay) (element : ElementId)
    (tag : StartTag) :
    (openElement schema replay element tag).outline =
      (openElement schema replay.outline element tag).outline := by
  unfold openElement
  cases schema.element? element with
  | none => simp [outline, blame, Function.comp_def]
  | some decl =>
      cases tag.selfClosing <;> simp [outline, OpenElement.bare, Function.comp_def]

theorem outline_followRoot (schema : Schema) (replay : Replay) (tag : StartTag) :
    (followRoot schema replay tag).outline = (followRoot schema replay.outline tag).outline := by
  have caret : replay.outline.caret = replay.caret := rfl
  unfold followRoot
  rw [caret]
  split
  · exact (outline_outline replay).symm
  · split
    · exact outline_openElement schema replay _ tag
    · simp [outline, blame, Function.comp_def]

theorem outline_followStart (schema : Schema) (replay : Replay) (tag : StartTag) :
    (followStart schema replay tag).outline = (followStart schema replay.outline tag).outline := by
  have caret : replay.outline.caret = replay.caret := rfl
  unfold followStart
  rw [caret]
  split
  · exact (outline_outline replay).symm
  · cases stack : replay.stack with
    | nil => simp [outline, stack, stop]
    | cons top below =>
        have inside : replay.outline.stack = top.bare :: below.map OpenElement.bare := by
          simp [outline, stack]
        simp only [inside]
        -- the innermost open element takes the name by its type and progress alone
        have alike : matchContent schema (schema.content? top.bare.type) tag.name
            top.bare.progress =
          matchContent schema (schema.content? top.type) tag.name top.progress := rfl
        rw [alike]
        rcases matchContent schema (schema.content? top.type) tag.name top.progress with
          ⟨progress, _ | element⟩
        · simp [outline, blame, OpenElement.bare, Function.comp_def]
        · dsimp only
          rw [outline_openElement]
          congr 2

theorem outline_followEnd (schema : Schema) (replay : Replay) (name : String) :
    (followEnd schema replay name).outline = (followEnd schema replay.outline name).outline := by
  unfold followEnd
  cases stack : replay.stack with
  | nil => simp [outline, stack, stop]
  | cons top below =>
      have inside : replay.outline.stack = top.bare :: below.map OpenElement.bare := by
        simp [outline, stack]
      have caret : replay.outline.caret = replay.caret := rfl
      have element : top.bare.element = top.element := rfl
      simp only [inside, caret, element]
      split
      · simp [outline, Function.comp_def]
      · split
        · simp [outline, blame, Function.comp_def]
        · simp [outline, stop, Function.comp_def]

theorem outline_follow (schema : Schema) (replay : Replay) (event : Event) :
    (follow schema replay event).outline = (follow schema replay.outline event).outline := by
  have started : replay.outline.started = replay.started := rfl
  unfold follow
  rw [started]
  split
  · cases event with
    | startTag tag => exact outline_followStart schema replay tag
    | endTag name => exact outline_followEnd schema replay name
    | _ => exact (outline_outline replay).symm
  · cases event with
    | startTag tag =>
        exact outline_followRoot schema { replay with started := true, lastIsRoot := true } tag
    | _ => simp [outline, stop, Function.comp_def]

/-- **A step keeps to the outline.** -/
theorem outline_step (schema : Schema) (replay : Replay) (event : Event) (caret : Caret) :
    (replay.step schema event caret).outline =
      (replay.outline.step schema event caret).outline := by
  have stopped : replay.outline.stopped = replay.stopped := rfl
  have fault : replay.outline.fault = replay.fault := rfl
  unfold step
  rw [stopped, fault]
  split
  · exact (outline_outline replay).symm
  · dsimp only
    split
    · simp [outline, Function.comp_def]
    · split
      · simp [outline, stop, Function.comp_def]
      · have followed :=
          outline_follow schema { replay with caret, lastIsRoot := false } event
        exact congrArg (fun after => { after with last := some event }) followed

/-- Replays with one outline stay together. -/
theorem outline_step_congr {schema : Schema} {one other : Replay}
    (same : one.outline = other.outline) (event : Event) (caret : Caret) :
    (one.step schema event caret).outline = (other.step schema event caret).outline := by
  rw [outline_step, same, ← outline_step]

end Replay

/-! ## Offers look at the outline -/

namespace Completion

variable (schema : Schema) (options : Options) (replay : Replay)

theorem endTagOffers_outline (typed : String) :
    endTagOffers schema replay.outline typed = endTagOffers schema replay typed := by
  unfold endTagOffers
  rw [top?_outline]
  cases replay.top? <;> rfl

theorem elementOffers_outline (typed : String) :
    elementOffers schema replay.outline typed = elementOffers schema replay typed := by
  have root : replay.outline.lastIsRoot = replay.lastIsRoot := rfl
  unfold elementOffers
  rw [top?_outline, root]
  cases replay.top? <;> rfl

theorem attributeNameOffers_outline (tag : StartTag) :
    attributeNameOffers schema options replay.outline tag =
      attributeNameOffers schema options replay tag := by
  unfold attributeNameOffers
  rw [top?_outline]
  cases replay.top? <;> rfl

/-- Without hooks, an attribute has the values that its type lists. -/
theorem declaredAttributeValues_hookless (top : OpenElement) (name : String) :
    declaredAttributeValues schema {} replay top name =
      ((schema.findAttributeUse? top.type name).bind fun use =>
        knownValues? schema use.2.type).getD [] := by
  unfold declaredAttributeValues
  rcases schema.findAttributeUse? top.type name with _ | use
  · rfl
  · simp only [Option.bind_some]
    cases knownValues? schema use.2.type with
    | some values => rfl
    | none => cases site? schema replay top <;> rfl

/-- Without hooks, text has the values that the type lists. -/
theorem textValues_hookless (top : OpenElement) :
    textValues schema {} replay top = (knownValues? schema top.type).getD [] := by
  unfold textValues
  cases knownValues? schema top.type with
  | some values => rfl
  | none => cases site? schema replay top <;> rfl

theorem attributeValueOffers_outline (tag : StartTag) (quote : Option Quote) :
    attributeValueOffers schema {} replay.outline tag quote =
      attributeValueOffers schema {} replay tag quote := by
  unfold attributeValueOffers
  rw [top?_outline]
  cases replay.top? with
  | none => rfl
  | some top =>
      simp only [Option.map_some, declaredAttributeValues_hookless]
      rfl

theorem textOffers_outline (typed : String) :
    textOffers schema {} replay.outline typed = textOffers schema {} replay typed := by
  unfold textOffers
  rw [top?_outline]
  cases replay.top? with
  | none => rfl
  | some top =>
      simp only [Option.map_some, textValues_hookless]
      rfl

theorem validOffers_outline :
    validOffers schema options {} replay.outline = validOffers schema options {} replay := by
  have last : replay.outline.last = replay.last := rfl
  have caret : replay.outline.caret = replay.caret := rfl
  unfold validOffers
  rw [last, caret]
  split
  · exact elementOffers_outline schema replay _
  · exact attributeNameOffers_outline schema options replay _
  · exact attributeNameOffers_outline schema options replay _
  · exact attributeValueOffers_outline schema replay _ none
  · exact attributeValueOffers_outline schema replay _ (some _)
  · exact textOffers_outline schema replay ""
  · exact textOffers_outline schema replay _
  · rfl

/-- **Without hooks, the outline is all that offers look at.** -/
theorem ofReplay_outline :
    ofReplay schema options {} replay.outline = ofReplay schema options {} replay := by
  have complete : replay.outline.isComplete = replay.isComplete := rfl
  have valid : replay.outline.isValid = replay.isValid := rfl
  have typed : typedEndTag? replay.outline = typedEndTag? replay := rfl
  unfold ofReplay
  rw [complete, valid, typed]
  split
  · rfl
  · split
    · exact endTagOffers_outline schema replay _
    · split
      · exact validOffers_outline schema options replay
      · rfl

end Completion

end ContentAssist
