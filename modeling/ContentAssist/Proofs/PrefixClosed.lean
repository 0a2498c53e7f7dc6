/-
# ContentAssist.Proofs.PrefixClosed -- a clean text was clean all along

A text is *clean* when it has been followed to its end and agrees with the schema, or
its last event is an end tag still being typed, which disagrees until its name is
complete.  Typing never repairs a text: every prefix of a clean text is clean.

A cut may fall inside any token, and what is left of the token may read as another
kind of event (the bracket of an end tag or an instruction reads as a start tag
without a name).  So the proof does not compare events.  It asks what the unfinished
event of each mode demands of the replay of the closed ones (`Mode.Asks`): a clean
reading is one whose demand is met (`isClean_iff_asks`), and reading a character only
ever adds to the demand (`asks_of_read`).
-/
import ContentAssist.Proofs.ContentModel
import ContentAssist.Proofs.Reading

namespace ContentAssist

set_option autoImplicit false

open Markup Schema Replay

/-- The text was followed to its end and agrees with the schema, or its last event is an
end tag still being typed. -/
def IsClean (schema : Schema) (text : String) : Prop :=
  (ofText schema text).isComplete = true ∧
    ((ofText schema text).isValid = true ∨ caretOf text = .inEndTag)

instance (schema : Schema) (text : String) : Decidable (IsClean schema text) :=
  inferInstanceAs (Decidable (_ ∧ _))

/-- The same of a reading. -/
def Reading.IsClean (schema : Schema) (reading : Reading) : Prop :=
  (reading.settle schema).isComplete = true ∧
    ((reading.settle schema).isValid = true ∨ reading.mode.caret = .inEndTag)

theorem isClean_iff_read (schema : Schema) (text : String) :
    IsClean schema text ↔ (({} : Reading).read schema text.toList).IsClean schema := by
  rw [IsClean, ofText_eq_settle]
  rfl

/-! ## What an unfinished event demands -/

/-- What the unfinished event of a mode demands of the replay of the closed ones. -/
def Markup.Mode.Asks (schema : Schema) (replay : Replay) : Mode → Prop
  | .fresh => replay.Agrees
  | .content => replay.Agrees
  | .text typed =>
      replay.Agrees ∧
        (replay.started = true ∨ (Event.text (spell typed)).isInsignificant = true)
  | .opened => replay.Agrees
  | .instruction _ => replay.Agrees
  | .endName _ => replay.Agrees ∧ replay.started = true ∧ replay.stack ≠ []
  | .endRest _ => replay.Agrees ∧ replay.started = true ∧ replay.stack ≠ []
  | .startName _ => replay.Agrees
  | .between tag _ => replay.Agrees ∧ replay.Admits schema tag.name
  | .attributeName tag _ => replay.Agrees ∧ replay.Admits schema tag.name
  | .equals tag _ _ => replay.Agrees ∧ replay.Admits schema tag.name
  | .value tag _ _ _ => replay.Agrees ∧ replay.Admits schema tag.name

/-- Where the caret is not in an end tag, clean means agreeing. -/
theorem isClean_iff_agrees {schema : Schema} {reading : Reading}
    (elsewhere : reading.mode.caret ≠ .inEndTag) :
    reading.IsClean schema ↔ (reading.settle schema).Agrees := by
  simp [Reading.IsClean, Agrees, elsewhere]

/-- An unfinished end tag is clean inside an element. -/
theorem isClean_endTag_iff (schema : Schema) (replay : Replay) (name : String) :
    ((replay.step schema (.endTag name) .inEndTag).isComplete = true) ↔
      replay.Agrees ∧ replay.started = true ∧ replay.stack ≠ [] :=
  ⟨open_of_isComplete_step_endTag,
    fun ⟨agrees, started, inside⟩ => isComplete_step_endTag_typing agrees started inside name⟩

/-- **A reading is clean exactly when the demand of its mode is met.** -/
theorem isClean_iff_asks (schema : Schema) (reading : Reading) :
    reading.IsClean schema ↔ reading.mode.Asks schema reading.closed := by
  obtain ⟨mode, replay⟩ := reading
  cases mode with
  | fresh => exact isClean_iff_agrees (by simp [Mode.caret])
  | content => exact isClean_iff_agrees (by simp [Mode.caret])
  | text typed =>
      rw [isClean_iff_agrees (by simp [Mode.caret])]
      exact agrees_step_text schema replay (spell typed) .inText
  | opened =>
      rw [isClean_iff_agrees (by simp [Mode.caret])]
      exact (agrees_step_startTag schema replay _ .inStartName).trans (by simp [Mode.Asks])
  | instruction asked =>
      rw [isClean_iff_agrees (by simp [Mode.caret])]
      exact agrees_step_instruction schema replay .inInstruction
  | endName typed =>
      refine Iff.trans ?_ (isClean_endTag_iff schema replay (spell typed))
      simp [Reading.IsClean, Reading.settle, Mode.pending?, Mode.caret]
  | endRest name =>
      refine Iff.trans ?_ (isClean_endTag_iff schema replay name)
      simp [Reading.IsClean, Reading.settle, Mode.pending?, Mode.caret]
  | startName typed =>
      rw [isClean_iff_agrees (by simp [Mode.caret])]
      exact (agrees_step_startTag schema replay _ .inStartName).trans (by simp [Mode.Asks])
  | between tag last =>
      rw [isClean_iff_agrees (by simp [Mode.caret])]
      exact (agrees_step_startTag schema replay _ _).trans (by simp [Mode.Asks, Mode.caret])
  | attributeName tag typed =>
      rw [isClean_iff_agrees (by simp [Mode.caret])]
      exact (agrees_step_startTag schema replay _ _).trans (by simp [Mode.Asks, Mode.caret])
  | equals tag name last =>
      rw [isClean_iff_agrees (by simp [Mode.caret])]
      exact (agrees_step_startTag schema replay _ _).trans (by simp [Mode.Asks, Mode.caret])
  | value tag name quote typed =>
      rw [isClean_iff_agrees (by simp [Mode.caret])]
      exact (agrees_step_startTag schema replay _ _).trans (by simp [Mode.Asks, Mode.caret])

/-! ## Reading adds to the demand -/

/-- Whatever the mode, the closed events have to agree. -/
theorem agrees_of_asks {schema : Schema} {replay : Replay} {mode : Mode}
    (asks : mode.Asks schema replay) : replay.Agrees := by
  cases mode with
  | fresh => exact asks
  | content => exact asks
  | opened => exact asks
  | instruction _ => exact asks
  | startName _ => exact asks
  | text _ => exact asks.1
  | endName _ => exact asks.1
  | endRest _ => exact asks.1
  | between _ _ => exact asks.1
  | attributeName _ _ => exact asks.1
  | equals _ _ _ => exact asks.1
  | value _ _ _ _ => exact asks.1

/-- A tag that closed was admitted. -/
theorem admits_of_close {schema : Schema} {replay : Replay} {tag : OpenTag} {last : Char}
    (agrees : (replay.step schema (tag.close last) .inText).Agrees) :
    replay.Agrees ∧ replay.Admits schema tag.name := by
  obtain ⟨before, typing | admitted⟩ := (agrees_step_startTag schema replay _ .inText).mp agrees
  · cases typing
  · exact ⟨before, admitted⟩

/-- An end tag that closed had something to close. -/
theorem open_of_endTag {schema : Schema} {replay : Replay} {name : String}
    (agrees : (replay.step schema (.endTag name) .inText).Agrees) :
    replay.Agrees ∧ replay.started = true ∧ replay.stack ≠ [] :=
  open_of_isComplete_step_endTag agrees.1

/-- Blanks that more was typed after were blanks before. -/
theorem isInsignificant_text_of_cons {c : Char} {typed : List Char}
    (blank : (Event.text (spell (c :: typed))).isInsignificant = true) :
    (Event.text (spell typed)).isInsignificant = true := by
  simp only [Event.isInsignificant, Text.isAllBlank, spell, String.toList_ofList,
    List.all_reverse, List.all_cons, Bool.and_eq_true] at blank ⊢
  exact blank.2

/-- While a start tag's name is read, whatever comes next asks for agreement. -/
theorem agrees_of_readStartName {schema : Schema} {replay : Replay} {typed : List Char}
    {c : Char}
    (asks : (readStartName typed c).mode.Asks schema
      (runClosed schema replay (readStartName typed c).closed.toList)) :
    replay.Agrees := by
  unfold readStartName at asks
  split at asks
  · exact Agrees.of_step (agrees_of_asks asks)
  · split at asks <;> exact agrees_of_asks asks

/-- While an end tag's name is read, whatever comes next asks for an open element. -/
theorem open_of_readEndName {schema : Schema} {replay : Replay} {typed : List Char} {c : Char}
    (asks : (readEndName typed c).mode.Asks schema
      (runClosed schema replay (readEndName typed c).closed.toList)) :
    replay.Agrees ∧ replay.started = true ∧ replay.stack ≠ [] := by
  unfold readEndName at asks
  split at asks
  · exact open_of_endTag (agrees_of_asks asks)
  · split at asks <;> exact asks

/-- **Reading only adds to the demand.**  What is asked after one more character was
asked before it. -/
theorem asks_of_read {schema : Schema} {replay : Replay} {mode : Mode} {c : Char}
    (asks : (mode.read c).mode.Asks schema
      (runClosed schema replay (mode.read c).closed.toList)) :
    mode.Asks schema replay := by
  cases mode with
  | fresh =>
      simp only [Mode.read, readContent] at asks
      split at asks <;> exact agrees_of_asks asks
  | content =>
      simp only [Mode.read, readContent] at asks
      split at asks <;> exact agrees_of_asks asks
  | text typed =>
      simp only [Mode.read] at asks
      split at asks
      · exact (agrees_step_text schema replay (spell typed) .inText).mp asks
      · obtain ⟨agrees, started | blank⟩ := asks
        · exact ⟨agrees, .inl started⟩
        · exact ⟨agrees, .inr (isInsignificant_text_of_cons blank)⟩
  | opened =>
      simp only [Mode.read] at asks
      split at asks
      · exact asks
      · split at asks
        · exact agrees_of_asks asks
        · exact agrees_of_readStartName asks
  | instruction asked =>
      simp only [Mode.read] at asks
      split at asks
      · exact Agrees.of_step (agrees_of_asks asks)
      · exact asks
  | endName typed => exact open_of_readEndName asks
  | endRest name =>
      simp only [Mode.read] at asks
      split at asks
      · exact open_of_endTag (agrees_of_asks asks)
      · exact asks
  | startName typed => exact agrees_of_readStartName asks
  | between tag last =>
      simp only [Mode.read] at asks
      split at asks
      · exact admits_of_close (agrees_of_asks asks)
      · split at asks <;> exact asks
  | attributeName tag typed =>
      simp only [Mode.read] at asks
      split at asks
      · exact admits_of_close (agrees_of_asks asks)
      · split at asks
        · exact asks
        · split at asks <;> exact asks
  | equals tag name last =>
      simp only [Mode.read] at asks
      split at asks
      · exact admits_of_close (agrees_of_asks asks)
      · split at asks <;> exact asks
  | value tag name quote typed =>
      simp only [Mode.read] at asks
      split at asks <;> exact asks

/-- A reading that is clean after some more characters was clean before them. -/
theorem isClean_of_read {schema : Schema} {reading : Reading} {cs : List Char}
    (clean : (reading.read schema cs).IsClean schema) : reading.IsClean schema := by
  induction cs generalizing reading with
  | nil => exact clean
  | cons c cs ih =>
      rw [Reading.read_cons] at clean
      have first := (isClean_iff_asks schema _).mp (ih clean)
      rw [Reading.read_singleton] at first
      exact (isClean_iff_asks schema reading).mpr (asks_of_read first)

/-- A text that is clean was clean at every cut. -/
theorem isClean_of_isPrefix {schema : Schema} {text front : String}
    (cut : front.toList <+: text.toList) (clean : IsClean schema text) :
    IsClean schema front := by
  obtain ⟨rest, whole⟩ := cut
  rw [isClean_iff_read, ← whole, Reading.read_append] at clean
  exact (isClean_iff_read schema front).mpr (isClean_of_read clean)

/-- A cut inside a tag, of a text that ends in the middle of an end tag. -/
theorem letters_isClean_of_isPrefix :
    IsClean letters "<letter><greeting/><note a='1'><greeting/></no" ∧
      IsClean letters "<letter><greeting/><note a=" := by
  have clean : IsClean letters "<letter><greeting/><note a='1'><greeting/></no" := by
    decide +kernel
  exact ⟨clean, isClean_of_isPrefix (by decide +kernel) clean⟩

end ContentAssist
