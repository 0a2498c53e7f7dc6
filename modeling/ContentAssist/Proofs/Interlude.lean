/-
# ContentAssist.Proofs.Interlude -- what stands between two tags

Instructions and text between two tags are an *interlude*: they change no offers.  Text
merges with the text before it and instructions split it, so the events of the two texts
differ; what is kept is the replay, but for what came last.

* `ofText_bracket`: outside of markup, an opening bracket goes on from the replay of the text
  before it.
* `step_forgetLast`: the next event of a replay that agrees does not depend on what came last.
* `settle_read_congr`: whatever is related by its first event, and stays so, is related at the
  end of a text that begins with a bracket.
* `interlude_keeps_suggestions` puts them together; a text that disagrees gets no offers
  with or without an interlude.
-/
import ContentAssist.Proofs.Fragment
import ContentAssist.Proofs.Mirror

namespace ContentAssist

set_option autoImplicit false

open Markup Schema Replay Completion

/-! ## Going on from a bracket -/

/-- A text that ends outside of markup has no event that is still being typed but text. -/
theorem ofText_of_outside (schema : Schema) {text : String}
    (outside : (modeAfter .fresh text.toList).Outside) :
    ofText schema text = runClosed schema {} (events text) := by
  rw [ofText_eq_settle, settle_of_outside schema outside, events_eq, runClosed_append]
  rfl

theorem beforeTag_eq_ofText (schema : Schema) {before : String}
    (outside : (modeAfter .fresh before.toList).Outside) :
    beforeTag schema before = ofText schema before := by
  rw [ofText_of_outside schema outside, events_eq, beforeTag]
  simp only [Reading.read, closedEvents_append, (reads_bracket outside).closes]

/-- **Markup goes on from the replay of the text before its bracket.** -/
theorem ofText_bracket (schema : Schema) {before after : String} {rest : List Char}
    (outside : (modeAfter .fresh before.toList).Outside) (opens : after.toList = '<' :: rest) :
    ofText schema (before ++ after) =
      (Reading.read schema ⟨.opened, ofText schema before⟩ rest).settle schema := by
  have reads : Reads .opened rest (closedEvents .opened rest) (modeAfter .opened rest) :=
    ⟨rfl, rfl⟩
  rw [ofText_tag (before ++ after) outside reads (by simp [opens]),
    beforeTag_eq_ofText schema outside]
  rfl

/-- A piece of markup that has closed is one more event. -/
theorem ofText_markup (schema : Schema) {before markup : String} {inner : List Char}
    {event : Event} (outside : (modeAfter .fresh before.toList).Outside)
    (opens : markup.toList = '<' :: inner) (reads : Reads .opened inner [event] .content) :
    (modeAfter .fresh (before ++ markup).toList).Outside ∧
      ofText schema (before ++ markup) = (ofText schema before).step schema event .inText := by
  constructor
  · have whole := (reads_bracket outside).append reads
    rw [String.toList_append, opens, modeAfter_append, ← List.singleton_append, whole.leaves]
    trivial
  · have same : (⟨.opened, ofText schema before⟩ : Reading).mode = .opened := rfl
    rw [ofText_bracket schema outside opens]
    rw [← same] at reads
    rw [Reading.read_of_reads reads]
    rfl

/-! ## What came last -/

namespace Replay

/-- A replay without what came last and where the typing stood. -/
def forgetLast (replay : Replay) : Replay :=
  { replay with last := none, lastIsRoot := false, caret := .atStart }

theorem openElement_last (schema : Schema) (replay : Replay) (element : ElementId)
    (tag : StartTag) (last : Option Event) :
    openElement schema { replay with last } element tag =
      { openElement schema replay element tag with last } := by
  unfold openElement
  split <;> rfl

theorem followRoot_last (schema : Schema) (replay : Replay) (tag : StartTag)
    (last : Option Event) :
    followRoot schema { replay with last } tag = { followRoot schema replay tag with last } := by
  unfold followRoot
  dsimp only
  split
  · rfl
  · cases schema.findGlobal? tag.name with
    | none => rfl
    | some element => exact openElement_last schema replay element tag last

theorem followStart_last (schema : Schema) (replay : Replay) (tag : StartTag)
    (last : Option Event) :
    followStart schema { replay with last } tag = { followStart schema replay tag with last } := by
  unfold followStart
  dsimp only
  split
  · rfl
  · split
    · rfl
    · rename_i top below _
      split
      · rename_i progress element _
        exact openElement_last schema { replay with stack := { top with progress } :: below }
          element tag last
      · rfl

theorem followEnd_last (schema : Schema) (replay : Replay) (name : String)
    (last : Option Event) :
    followEnd schema { replay with last } name = { followEnd schema replay name with last } := by
  unfold followEnd
  dsimp only
  split
  · rfl
  · split
    · rfl
    · split <;> rfl

theorem follow_last (schema : Schema) (replay : Replay) (event : Event) (last : Option Event) :
    follow schema { replay with last } event = { follow schema replay event with last } := by
  unfold follow
  dsimp only
  split
  · cases event with
    | startTag tag => exact followStart_last schema replay tag last
    | endTag name => exact followEnd_last schema replay name last
    | _ => rfl
  · cases event with
    | startTag tag =>
        exact followRoot_last schema { replay with started := true, lastIsRoot := true } tag last
    | _ => rfl

/-- **The next event does not depend on what came last**, as long as the replay agrees. -/
theorem step_forgetLast (schema : Schema) {replay : Replay} (agrees : replay.Agrees)
    (event : Event) (caret : Caret) :
    replay.forgetLast.step schema event caret = replay.step schema event caret := by
  have forgotten : replay.forgetLast.Agrees := agrees
  cases significance : event.isInsignificant with
  | true =>
      rw [step_of_insignificant agrees.stopped schema significance,
        step_of_insignificant forgotten.stopped schema significance]
      rfl
  | false =>
      rw [step_eq_follow agrees schema significance, step_eq_follow forgotten schema significance]
      have followed :=
        follow_last schema { replay with caret, lastIsRoot := false } event none
      exact congrArg (fun after => { after with last := some event }) followed

theorem Agrees.of_forgetLast {one other : Replay} (agrees : one.Agrees)
    (same : other.forgetLast = one.forgetLast) : other.Agrees := by
  show other.forgetLast.Agrees
  rw [same]
  exact agrees

theorem started_of_forgetLast {one other : Replay} (same : other.forgetLast = one.forgetLast) :
    other.started = one.started := by
  show other.forgetLast.started = _
  rw [same]
  rfl

theorem step_eq_of_forgetLast (schema : Schema) {one other : Replay} (agrees : one.Agrees)
    (same : other.forgetLast = one.forgetLast) (event : Event) (caret : Caret) :
    other.step schema event caret = one.step schema event caret := by
  rw [← step_forgetLast schema (agrees.of_forgetLast same), same, step_forgetLast schema agrees]

/-- Text that keeps agreement is forgotten. -/
theorem forgetLast_step_text (schema : Schema) {replay : Replay} {content : String}
    {caret : Caret} (agrees : (replay.step schema (.text content) caret).Agrees) :
    (replay.step schema (.text content) caret).forgetLast = replay.forgetLast := by
  obtain ⟨before, started | blank⟩ := (agrees_step_text schema replay content caret).mp agrees
  · rw [step_text_inside before schema started]
    rfl
  · rw [step_of_insignificant before.stopped schema blank]
    rfl

end Replay

/-! ## Related replays -/

section Related

variable {schema : Schema} {R : Replay → Replay → Prop}

theorem runClosed_related
    (keep : ∀ one other event caret, R one other →
      R (one.step schema event caret) (other.step schema event caret))
    (events : List Event) {one other : Replay} (related : R one other) :
    R (runClosed schema one events) (runClosed schema other events) := by
  induction events generalizing one other with
  | nil => exact related
  | cons event events ih => exact ih (keep one other event .inText related)

theorem settle_read_related
    (keep : ∀ one other event caret, R one other →
      R (one.step schema event caret) (other.step schema event caret))
    (mode : Mode) (cs : List Char) {one other : Replay} (related : R one other) :
    R ((Reading.read schema ⟨mode, one⟩ cs).settle schema)
      ((Reading.read schema ⟨mode, other⟩ cs).settle schema) := by
  have closed := runClosed_related keep (closedEvents mode cs) related
  simp only [Reading.read, Reading.settle]
  cases (modeAfter mode cs).pending? with
  | none => exact closed
  | some event => exact keep _ _ event _ closed

/-- **Replays that every event brings together stay together**, where an event has begun. -/
theorem settle_read_congr
    (keep : ∀ one other event caret, R one other →
      R (one.step schema event caret) (other.step schema event caret))
    {one other : Replay}
    (first : ∀ event caret, R (one.step schema event caret) (other.step schema event caret))
    {mode : Mode} (begun : mode.pending?.isSome = true) (cs : List Char) :
    R ((Reading.read schema ⟨mode, one⟩ cs).settle schema)
      ((Reading.read schema ⟨mode, other⟩ cs).settle schema) := by
  induction cs generalizing mode with
  | nil =>
      obtain ⟨event, pending⟩ := Option.isSome_iff_exists.mp begun
      simp only [Reading.read_nil, Reading.settle, pending]
      exact first event _
  | cons c cs ih =>
      rw [Reading.read_cons schema ⟨mode, one⟩, Reading.read_cons schema ⟨mode, other⟩,
        Reading.read_singleton, Reading.read_singleton]
      cases closes : (mode.read c).closed with
      | some event => exact settle_read_related keep _ cs (first event .inText)
      | none =>
          -- nothing has closed, so something is still unfinished
          rcases isSome_pending?_or_finish mode c with pends | ⟨event, finished⟩
          · exact ih pends
          · rw [finished] at closes
            cases closes

end Related

/-! ## Interludes -/

namespace Markup

/-- One piece of an interlude. -/
inductive Filler where
  /-- A closed instruction, without its brackets. -/
  | instruction (inner : String)
  | text (content : String)
  deriving DecidableEq, Repr, Inhabited

namespace Filler

def written : Filler → String
  | instruction inner => "<" ++ inner ++ ">"
  | text content => content

/-- The event that the piece is when nothing else stands around it. -/
def event : Filler → Event
  | instruction _ => .instruction
  | text content => .text content

/-- An instruction runs from a question mark to the first one right before a bracket, which
may be the same; text has no opening bracket. -/
def Valid : Filler → Prop
  | instruction inner =>
      inner.toList.head? = some '?' ∧ inner.toList.getLast? = some '?' ∧
        ¬ ['?', '>'] <:+: inner.toList
  | text content => '<' ∉ content.toList

instance (filler : Filler) : Decidable filler.Valid :=
  match filler with
  | instruction inner =>
      inferInstanceAs (Decidable (inner.toList.head? = some '?' ∧
        inner.toList.getLast? = some '?' ∧ ¬ ['?', '>'] <:+: inner.toList))
  | text content => inferInstanceAs (Decidable ('<' ∉ content.toList))

end Filler

/-- The pieces, written one after the other. -/
def interlude : List Filler → String
  | [] => ""
  | filler :: fillers => filler.written ++ interlude fillers

theorem reads_filler_instruction {inner : String} (valid : (Filler.instruction inner).Valid) :
    Reads .opened (inner.toList ++ ['>']) [.instruction] .content := by
  obtain ⟨begins, ends, closed⟩ := valid
  obtain ⟨rest, split⟩ := List.head?_eq_some_iff.mp begins
  rw [split] at ends closed ⊢
  rcases List.eq_nil_or_concat rest with rfl | ⟨body, last, rfl⟩
  · -- the question mark that opens the instruction may close it
    exact .cons (.instruction true) (by simp [Mode.read]) (.last (by simp [Mode.read]))
  · rw [List.concat_eq_append] at ends closed ⊢
    obtain rfl : last = '?' := by
      rw [← List.cons_append, List.getLast?_concat] at ends
      exact Option.some.inj ends
    have inside : ¬ ['?', '>'] <:+: '?' :: body := by
      intro part
      exact closed (part.trans ⟨[], ['?'], by simp⟩)
    simpa using reads_instruction inside

end Markup

/-- A document that has not begun consists of insignificant events. -/
theorem insignificant_of_not_started {schema : Schema} {events : List Event}
    (agrees : (runClosed schema {} events).Agrees) :
    (runClosed schema {} events).started = false →
      ∀ event ∈ events, event.isInsignificant = true := by
  refine runClosed_induction (P := fun seen replay => replay.started = false →
    ∀ event ∈ seen, event.isInsignificant = true) (fun _ _ listed => by cases listed) ?_ events agrees
  intro seen event replay before agrees unbegun other listed
  have earlier : replay.started = false := by
    cases started : replay.started with
    | false => rfl
    | true => exact (started_step started).symm.trans unbegun
  rcases List.mem_append.mp listed with older | newest
  · exact before earlier other older
  · rw [List.mem_singleton.mp newest]
    cases event with
    | instruction => rfl
    | startTag tag =>
        obtain ⟨-, -, -, started, -⟩ := opened_of_agrees (by simp) agrees
        exact absurd (started.symm.trans unbegun) (by simp)
    | endTag name =>
        obtain ⟨-, started, -⟩ := (agrees_step_endTag schema replay name .inText).mp agrees
        exact absurd (started.symm.trans earlier) (by simp)
    | text content =>
        obtain ⟨-, started | blank⟩ := (agrees_step_text schema replay content .inText).mp agrees
        · exact absurd (started.symm.trans earlier) (by simp)
        · exact blank

/-- Outside of markup, the events that have closed differ from the whole text at most by the
text that is being typed. -/
theorem closed_of_outside {schema : Schema} {reading : Reading} (outside : reading.mode.Outside)
    (agrees : (reading.settle schema).Agrees) :
    reading.closed.forgetLast = (reading.settle schema).forgetLast ∧
      (reading.closed.started = true ∨
        Text.isAllBlank (spell reading.mode.typedText) = true) := by
  obtain ⟨mode, closed⟩ := reading
  cases mode with
  | fresh => exact ⟨rfl, .inr rfl⟩
  | content => exact ⟨rfl, .inr rfl⟩
  | text typed =>
      obtain ⟨-, begun⟩ := (agrees_step_text schema closed (spell typed) .inText).mp agrees
      exact ⟨(forgetLast_step_text schema agrees).symm, begun⟩
  | _ => exact outside.elim

/-- More text changes nothing but what came last, in a document that has begun; and neither do
more blanks. -/
theorem forgetLast_moreText {schema : Schema} {reading : Reading}
    (outside : reading.mode.Outside) (agrees : (reading.settle schema).Agrees) {content : String}
    (begun : (reading.settle schema).started = true ∨ Text.isAllBlank content = true) :
    (Reading.settle schema
        ⟨.text (content.toList.reverse ++ reading.mode.typedText), reading.closed⟩).forgetLast =
      (reading.settle schema).forgetLast := by
  obtain ⟨same, early⟩ := closed_of_outside outside agrees
  have started := started_of_forgetLast same
  rw [← same]
  apply forgetLast_step_text
  rw [agrees_step_text, started, spell_append, String.ofList_toList]
  refine ⟨agrees.of_forgetLast same, ?_⟩
  rw [started] at early
  rcases begun with begun | blank
  · exact .inl begun
  · refine early.imp_right fun blankBefore => ?_
    simp only [Event.isInsignificant, Text.isAllBlank, String.toList_append, List.all_append,
      Bool.and_eq_true] at blank blankBefore ⊢
    exact ⟨blankBefore, blank⟩

/-- **One piece changes nothing but what came last.** -/
theorem forgetLast_filler {schema : Schema} {before : String} {filler : Filler}
    (valid : filler.Valid) (outside : (modeAfter .fresh before.toList).Outside)
    (agrees : (ofText schema before).Agrees)
    (begun : (ofText schema before).started = true ∨ filler.event.isInsignificant = true) :
    (modeAfter .fresh (before ++ filler.written).toList).Outside ∧
      (ofText schema (before ++ filler.written)).forgetLast = (ofText schema before).forgetLast := by
  cases filler with
  | instruction inner =>
      have opens : (Filler.instruction inner).written.toList = '<' :: (inner.toList ++ ['>']) := by
        simp [Filler.written]
      obtain ⟨still, followed⟩ :=
        ofText_markup schema outside opens (reads_filler_instruction valid)
      refine ⟨still, ?_⟩
      rw [followed, step_of_insignificant agrees.stopped schema rfl]
      rfl
  | text content =>
      by_cases empty : content = ""
      · subst empty
        simpa [Filler.written] using outside
      · have free : '<' ∉ content.toList := valid
        have reads := reads_text outside free (by simpa using empty)
        have whole := Reading.read_append_of_reads schema reads
        refine ⟨?_, ?_⟩
        · show (({} : Reading).read schema (before ++ content).toList).mode.Outside
          rw [whole]
          trivial
        · rw [ofText_eq_settle] at agrees begun
          rw [Filler.written, ofText_eq_settle, ofText_eq_settle, whole]
          exact forgetLast_moreText outside agrees begun

/-- **An interlude changes nothing but what came last.** -/
theorem forgetLast_interlude {schema : Schema} {before : String} {fillers : List Filler}
    (valid : ∀ filler ∈ fillers, filler.Valid)
    (outside : (modeAfter .fresh before.toList).Outside) (agrees : (ofText schema before).Agrees)
    (begun : (ofText schema before).started = true ∨
      ∀ filler ∈ fillers, filler.event.isInsignificant = true) :
    (modeAfter .fresh (before ++ interlude fillers).toList).Outside ∧
      (ofText schema (before ++ interlude fillers)).forgetLast =
        (ofText schema before).forgetLast := by
  induction fillers generalizing before with
  | nil => simpa [interlude] using outside
  | cons filler fillers ih =>
      rw [List.forall_mem_cons] at valid
      obtain ⟨still, same⟩ := forgetLast_filler valid.1 outside agrees
        (begun.imp_right fun blank => blank filler List.mem_cons_self)
      have goesOn : (ofText schema (before ++ filler.written)).started = true ∨
          ∀ filler ∈ fillers, filler.event.isInsignificant = true := by
        rw [started_of_forgetLast same]
        exact begun.imp_right fun blank other later => blank other (List.mem_cons_of_mem _ later)
      have rest := ih valid.2 still (agrees.of_forgetLast same) goesOn
      rw [same, String.append_assoc] at rest
      exact rest

/-- **An interlude changes no suggestions.**  After a text that is empty or ends outside of
markup, closed instructions and text may be put before the next bracket, or left out.  Before
anything significant the text has to be blank. -/
theorem interlude_keeps_suggestions (engine : Engine) (before after : String)
    (fillers : List Filler) (outside : before = "" ∨ caretOf before = .inText)
    (valid : ∀ filler ∈ fillers, filler.Valid)
    (blank : (∀ event ∈ events before, event.isInsignificant = true) →
      ∀ filler ∈ fillers, filler.event.isInsignificant = true)
    (opens : after.toList.head? = some '<') :
    engine.suggest (before ++ interlude fillers ++ after) = engine.suggest (before ++ after) := by
  have caret : caretOf before = .atStart ∨ caretOf before = .inText :=
    outside.imp_left (congrArg caretOf)
  have elsewhere : caretOf before ≠ .inEndTag := by
    rcases caret with caret | caret <;> simp [caret]
  have outside := (Mode.outside_iff_caret _).mpr caret
  obtain ⟨rest, opens⟩ := List.head?_eq_some_iff.mp opens
  by_cases clean : IsClean engine.schema before
  · have agrees : (ofText engine.schema before).Agrees :=
      ⟨clean.1, clean.2.resolve_right elsewhere⟩
    have begun : (ofText engine.schema before).started = true ∨
        ∀ filler ∈ fillers, filler.event.isInsignificant = true := by
      cases started : (ofText engine.schema before).started with
      | true => exact .inl rfl
      | false =>
          rw [ofText_of_outside engine.schema outside] at agrees started
          exact .inr (blank (insignificant_of_not_started agrees started))
    obtain ⟨still, same⟩ := forgetLast_interlude valid outside agrees begun
    have followed : ofText engine.schema (before ++ interlude fillers ++ after) =
        ofText engine.schema (before ++ after) := by
      rw [ofText_bracket engine.schema still opens, ofText_bracket engine.schema outside opens]
      exact settle_read_congr (R := Eq) (fun _ _ event caret same => by rw [same])
        (step_eq_of_forgetLast engine.schema agrees same) rfl rest
    rw [Engine.suggest, Engine.suggest, followed]
  · rw [String.append_assoc, suggest_of_not_isClean (not_isClean_append clean _),
      suggest_of_not_isClean (not_isClean_append clean _)]

/-- Text that merges and is split, and blanks before the root. -/
theorem letters_interlude_keeps_suggestions :
    ((Engine.mk letters {} {}).suggest ("<letter>Dear " ++
        interlude [.text "reader", .instruction "?", .text " ", .instruction "?a > b?"] ++ "<gre") =
      (Engine.mk letters {} {}).suggest ("<letter>Dear " ++ "<gre")) ∧
    ((Engine.mk letters {} {}).suggest ("\n" ++
        interlude [.text "\u00a0", .instruction "?xml?", .text " "] ++ "<let") =
      (Engine.mk letters {} {}).suggest ("\n" ++ "<let")) ∧
    ((Engine.mk letters {} {}).suggest ("<letter>Dear " ++ "<gre")).suggestions.map
      Suggestion.text = ["greeting"] := by
  refine ⟨interlude_keeps_suggestions _ _ _ _ (.inr (by decide +kernel)) (by decide +kernel) ?_
      (by decide +kernel),
    interlude_keeps_suggestions _ _ _ _ (.inr (by decide +kernel)) (by decide +kernel) ?_
      (by decide +kernel), by decide +kernel⟩
  · intro blank
    exact absurd blank (by decide +kernel)
  · intro _
    decide +kernel

end ContentAssist
