/-
# ContentAssist.Proofs.Reading -- a replay, one character at a time

A replay is defined on the tokens of a whole text.  Typing goes on character by
character, so this module keeps a *reading*: the replay of the events that have
closed, and the mode that holds the unfinished one.  `Reading.settle` takes the
unfinished event in, and `ofText_eq_settle` says that reading a text to its end and
settling is following the text.

The byte offsets that tokens carry never matter to a replay, so the closed events
(`closedEvents`) are all that is followed (`run_closedFrom`).
-/
import ContentAssist.Proofs.Lexing
import ContentAssist.Proofs.Steps

namespace ContentAssist

set_option autoImplicit false

open Markup Schema Replay

/-! ## Events that close -/

namespace Replay

/-- Follow events that have closed. -/
def runClosed (schema : Schema) (replay : Replay) (events : List Event) : Replay :=
  events.foldl (fun replay event => replay.step schema event .inText) replay

@[simp] theorem runClosed_nil (schema : Schema) (replay : Replay) :
    runClosed schema replay [] = replay := rfl

@[simp] theorem runClosed_cons (schema : Schema) (replay : Replay) (event : Event)
    (events : List Event) :
    runClosed schema replay (event :: events) =
      runClosed schema (replay.step schema event .inText) events := rfl

theorem runClosed_append (schema : Schema) (replay : Replay) (front back : List Event) :
    runClosed schema replay (front ++ back) =
      runClosed schema (runClosed schema replay front) back :=
  List.foldl_append

/-- What holds at the beginning and is kept by every event that agrees holds of every run of
closed events that agrees. -/
theorem runClosed_induction {schema : Schema} {P : List Event → Replay → Prop} (init : P [] {})
    (keep : ∀ seen event replay, P seen replay → (replay.step schema event .inText).Agrees →
      P (seen ++ [event]) (replay.step schema event .inText))
    (events : List Event) (agrees : (runClosed schema {} events).Agrees) :
    P events (runClosed schema {} events) := by
  induction events using List.reverseRecOn with
  | nil => exact init
  | append_singleton seen event ih =>
      rw [runClosed_append, runClosed_cons, runClosed_nil] at agrees ⊢
      exact keep seen event _ (ih agrees.of_step) agrees

/-- Every token but the unfinished one ends in text, so its event is all that counts. -/
theorem run_closedFrom (schema : Schema) (replay : Replay) (mode : Mode) (offset : Nat)
    (cs : List Char) :
    run schema replay (closedFrom mode offset cs) =
      runClosed schema replay (closedEvents mode cs) := by
  induction cs generalizing replay mode offset with
  | nil => rfl
  | cons c cs ih =>
      rw [closedFrom, closedEvents_cons]
      rcases mode.read c with ⟨_ | event, next⟩
      · exact ih replay next _
      · exact ih (replay.step schema event .inText) next _

end Replay

/-! ## Readings -/

/-- A text being read: what has closed of it, followed, and what is unfinished. -/
structure Reading where
  mode : Mode := .fresh
  closed : Replay := {}

namespace Reading

/-- Read some more characters. -/
def read (schema : Schema) (reading : Reading) (cs : List Char) : Reading :=
  { mode := modeAfter reading.mode cs
    closed := runClosed schema reading.closed (closedEvents reading.mode cs) }

/-- The replay with the unfinished event taken in. -/
def settle (schema : Schema) (reading : Reading) : Replay :=
  match reading.mode.pending? with
  | none => reading.closed
  | some event => reading.closed.step schema event reading.mode.caret

@[simp] theorem read_nil (schema : Schema) (reading : Reading) :
    reading.read schema [] = reading := rfl

theorem read_append (schema : Schema) (reading : Reading) (cs ds : List Char) :
    reading.read schema (cs ++ ds) = (reading.read schema cs).read schema ds := by
  simp only [read, modeAfter_append, closedEvents_append, runClosed_append]

theorem read_cons (schema : Schema) (reading : Reading) (c : Char) (cs : List Char) :
    reading.read schema (c :: cs) = (reading.read schema [c]).read schema cs :=
  read_append schema reading [c] cs

/-- Reading one character: the mode moves on, and an event that closes is followed. -/
theorem read_singleton (schema : Schema) (reading : Reading) (c : Char) :
    reading.read schema [c] =
      { mode := (reading.mode.read c).mode
        closed := runClosed schema reading.closed (reading.mode.read c).closed.toList } := by
  simp [read, closedEvents_cons]

/-- Reading a piece that is known to read as some events. -/
theorem read_of_reads {schema : Schema} {reading : Reading} {cs : List Char}
    {events : List Event} {next : Mode} (reads : Reads reading.mode cs events next) :
    reading.read schema cs =
      { mode := next, closed := runClosed schema reading.closed events } := by
  rw [read, reads.closes, reads.leaves]

/-- A piece that closes nothing leaves the replay of what has closed as it is. -/
theorem read_append_of_reads (schema : Schema) {text more : String} {next : Mode}
    (reads : Reads (modeAfter .fresh text.toList) more.toList [] next) :
    ({} : Reading).read schema (text ++ more).toList =
      { mode := next, closed := (({} : Reading).read schema text.toList).closed } := by
  rw [String.toList_append, read_append, read_of_reads reads, runClosed_nil]

end Reading

/-- Outside of markup settling is what an opening bracket does. -/
theorem settle_of_outside (schema : Schema) {reading : Reading} (outside : reading.mode.Outside) :
    reading.settle schema = runClosed schema reading.closed reading.mode.pending?.toList := by
  obtain ⟨mode, replay⟩ := reading
  cases mode with
  | fresh => rfl
  | content => rfl
  | text typed => rfl
  | _ => exact outside.elim

namespace Replay

/-- Following a text is reading it to its end and settling. -/
theorem ofText_eq_settle (schema : Schema) (text : String) :
    ofText schema text = (({} : Reading).read schema text.toList).settle schema := by
  rw [ofText, tokens, tokensFrom_eq_closedFrom_append, run_append, run_closedFrom]
  simp only [Reading.settle, Reading.read, pendingToken]
  rcases (modeAfter .fresh text.toList).pending? with _ | event
  · rfl
  · rfl

/-- A text followed to its end: what came last is its last event, and the typing stands
where the text ends. -/
theorem last_ofText {schema : Schema} {text : String}
    (complete : (ofText schema text).isComplete = true) :
    (ofText schema text).last = (events text).getLast? ∧
      (ofText schema text).caret = caretOf text := by
  rw [ofText_eq_settle] at complete ⊢
  rw [events_eq, caretOf]
  generalize text.toList = cs at complete ⊢
  induction cs using List.reverseRecOn with
  | nil => exact ⟨rfl, rfl⟩
  | append_singleton cs c _ =>
      rw [Reading.read_append, Reading.read_singleton] at complete ⊢
      rw [modeAfter_append, modeAfter_cons, modeAfter_nil, closedEvents_append, closedEvents_cons]
      simp only [Reading.read, closedEvents_nil, List.append_nil] at complete ⊢
      generalize modeAfter .fresh cs = mode at complete ⊢
      rcases isSome_pending?_or_finish mode c with pends | ⟨event, closes⟩
      · obtain ⟨event, pending⟩ := Option.isSome_iff_exists.mp pends
        simp only [Reading.settle, pending] at complete ⊢
        obtain ⟨last, caret⟩ := last_step complete
        exact ⟨by simp [last], caret⟩
      · simp only [closes, Step.finish, Reading.settle, Mode.pending?] at complete ⊢
        obtain ⟨last, caret⟩ := last_step complete
        exact ⟨by simpa using last, caret⟩

end Replay

end ContentAssist
