/-
# ContentAssist.Proofs.RoundTrip -- reading undoes writing

Closed markup can be written in many ways: with any white space inside tags and either
quote around a value.  `WrittenEvent` is an event together with a way to write it, and
`events_written` says that reading a list of them gives the events back, one for one, and
ends outside of markup.  Two texts in a row would be read as one, so they are kept apart
(`Apart`).

A value may hold brackets, slashes and the other quote; a name given again keeps its first
place and takes the later value (`keys_ofList`, `get?_ofList`).

The proof reads the list from the front.  Text stays unfinished until the next bracket, so
what has been read so far is what closed and what is unfinished (`reads_written`).
-/
import ContentAssist.Proofs.Lexing
import Mathlib.Data.List.Chain

namespace ContentAssist.Markup

set_option autoImplicit false

/-! ## Attributes given more than once -/

namespace Attributes

theorem ofList_append_singleton (front : List (String × AttributeValue)) (name : String)
    (value : AttributeValue) :
    ofList (front ++ [(name, value)]) = (ofList front).insert name value := by
  simp [ofList]

/-- Every name stands once, in the order in which the names were first given. -/
theorem keys_ofList (pairs : List (String × AttributeValue)) :
    (ofList pairs).keys = (pairs.map Prod.fst).eraseDups := by
  induction pairs using List.reverseRecOn with
  | nil => rfl
  | append_singleton front pair ih =>
      obtain ⟨name, value⟩ := pair
      rw [ofList_append_singleton, keys_insert, ih, List.map_append, List.eraseDups_append]
      by_cases given : name ∈ front.map Prod.fst
      · simp [List.mem_eraseDups.mpr given, List.removeAll, given]
      · have absent : name ∉ (front.map Prod.fst).eraseDups := by rwa [List.mem_eraseDups]
        simp [absent, List.removeAll, given, List.eraseDups_cons]

theorem nodup_keys_ofList (pairs : List (String × AttributeValue)) :
    (ofList pairs).keys.Nodup := by
  induction pairs using List.reverseRecOn with
  | nil => exact List.nodup_nil
  | append_singleton front pair ih =>
      rw [ofList_append_singleton]
      exact nodup_keys_insert ih _ _

/-- The value of a name is the one given last. -/
theorem get?_ofList (pairs : List (String × AttributeValue)) (name : String) :
    (ofList pairs).get? name = pairs.reverse.lookup name := by
  induction pairs using List.reverseRecOn with
  | nil => rfl
  | append_singleton front pair ih =>
      obtain ⟨key, value⟩ := pair
      rw [ofList_append_singleton, List.reverse_append, List.reverse_singleton,
        List.singleton_append, List.lookup_cons]
      by_cases same : name = key
      · simp [same]
      · have other : (name == key) = false := beq_eq_false_iff_ne.mpr same
        rw [get?_insert_of_ne _ _ same, other]
        exact ih

end Attributes

/-! ## Written events -/

/-- An event as it is written. -/
inductive WrittenEvent where
  | instruction (body : List Char)
  | text (content : String)
  /-- White space may stand after the name of an end tag. -/
  | endTag (name : String) (gap : List Char)
  | startTag (tag : WrittenTag)
  deriving DecidableEq, Repr, Inhabited

namespace WrittenEvent

def chars : WrittenEvent → List Char
  | instruction body => '<' :: '?' :: (body ++ ['?', '>'])
  | text content => content.toList
  | endTag name gap => '<' :: '/' :: (name.toList ++ (gap ++ ['>']))
  | startTag tag => '<' :: tag.chars

/-- Nothing in the event ends it early. -/
def Valid : WrittenEvent → Prop
  | instruction body => ¬ ['?', '>'] <:+: '?' :: body
  | text content => content.toList ≠ [] ∧ '<' ∉ content.toList
  | endTag name gap => Plain name ∧ ∀ c ∈ gap, Text.isSpace c = true
  | startTag tag => tag.Valid

instance : DecidablePred Valid
  | instruction body => inferInstanceAs (Decidable (¬ ['?', '>'] <:+: '?' :: body))
  | text content => inferInstanceAs (Decidable (content.toList ≠ [] ∧ '<' ∉ content.toList))
  | endTag name gap =>
      inferInstanceAs (Decidable (Plain name ∧ ∀ c ∈ gap, Text.isSpace c = true))
  | startTag tag => inferInstanceAs (Decidable tag.Valid)

/-- The event that is meant. -/
def event : WrittenEvent → Event
  | instruction _ => .instruction
  | text content => .text content
  | endTag name _ => .endTag name
  | startTag tag => .startTag tag.event

def isText : WrittenEvent → Bool
  | text _ => true
  | _ => false

/-- One of the two is markup, so that they are not read as one text. -/
def Apart (first second : WrittenEvent) : Prop :=
  ¬ (first.isText = true ∧ second.isText = true)

instance (first second : WrittenEvent) : Decidable (Apart first second) :=
  inferInstanceAs (Decidable (¬ _))

/-- Markup is a bracket and what closes its event. -/
theorem reads_markup {written : WrittenEvent} (valid : written.Valid)
    (markup : written.isText = false) :
    ∃ inner, written.chars = '<' :: inner ∧ Reads .opened inner [written.event] .content := by
  cases written with
  | instruction body => exact ⟨_, rfl, reads_instruction valid⟩
  | text content => cases markup
  | endTag name gap => exact ⟨_, rfl, reads_endTag valid.1 valid.2⟩
  | startTag tag => exact ⟨_, rfl, reads_tag valid⟩

end WrittenEvent

open WrittenEvent

/-! ## Reading a list of them -/

/-- What is unfinished outside of markup is text. -/
theorem Mode.Outside.typedText_eq_nil {mode : Mode} (outside : mode.Outside)
    (nothing : mode.pending? = none) : mode.typedText = [] := by
  cases mode with
  | text typed => cases nothing
  | fresh => rfl
  | content => rfl
  | _ => exact outside.elim

/-- Reading written events from outside of markup closes or leaves unfinished exactly
those events, after the text that was unfinished before. -/
theorem reads_written {mode : Mode} (outside : mode.Outside) {written : List WrittenEvent}
    (valid : ∀ event ∈ written, event.Valid) (apart : written.IsChain Apart)
    (begins : ∀ event ∈ written.head?, event.isText = true → mode.pending? = none) :
    ∃ closed next, Reads mode (written.flatMap chars) closed next ∧
      closed ++ next.pending?.toList = mode.pending?.toList ++ written.map event ∧
      next.caret = if written = [] then mode.caret else .inText := by
  induction written generalizing mode with
  | nil => exact ⟨[], mode, .nil mode, by simp, rfl⟩
  | cons first rest ih =>
      have now := valid first List.mem_cons_self
      have later : ∀ event ∈ rest, event.Valid := fun event listed =>
        valid event (List.mem_cons_of_mem first listed)
      rw [List.isChain_cons] at apart
      simp only [List.flatMap_cons, List.map_cons, reduceCtorEq, if_false]
      cases kind : first.isText with
      | true =>
          -- text closes nothing: it is what is unfinished when the rest is read
          obtain ⟨content, rfl⟩ : ∃ content, first = .text content := by
            cases first with
            | text content => exact ⟨content, rfl⟩
            | _ => cases kind
          have nothing := begins _ rfl kind
          have reads := reads_text outside now.2 now.1
          rw [outside.typedText_eq_nil nothing, List.append_nil] at reads
          have spelled : (Mode.text content.toList.reverse).pending? = some (.text content) := by
            simp [Mode.pending?, spell_reverse]
          have unfinished : (Mode.text content.toList.reverse).Outside := trivial
          obtain ⟨closed, next, more, all, caret⟩ := ih unfinished later apart.2
            (fun event heads text => absurd ⟨kind, text⟩ (apart.1 event heads))
          refine ⟨closed, next, reads.append more, ?_, ?_⟩
          · rw [all, spelled, nothing]
            rfl
          · rw [caret]
            split <;> rfl
      | false =>
          obtain ⟨inner, written, reads⟩ := reads_markup now kind
          have after : Mode.content.Outside := trivial
          obtain ⟨closed, next, more, all, caret⟩ :=
            ih after later apart.2 (fun _ _ _ => rfl)
          refine ⟨mode.pending?.toList ++ ([first.event] ++ closed), next, ?_, ?_, ?_⟩
          · rw [written]
            exact (reads_bracket outside).append (reads.append more)
          · rw [List.append_assoc, List.append_assoc, all]
            rfl
          · rw [caret]
            split <;> rfl

/-- **Reading undoes writing.**  A text that writes out some events, no two texts in a row,
is read as exactly those events, and ends outside of markup.  Of a start tag the name, the
slash and the attributes are read: no attribute is still being typed, every name stands
once, at the place where it was first given, and has the value that was given last. -/
theorem events_written {written : List WrittenEvent} (valid : ∀ event ∈ written, event.Valid)
    (apart : written.IsChain Apart) {text : String}
    (spelled : text.toList = written.flatMap chars) :
    events text = written.map event ∧
    caretOf text = (if written = [] then .atStart else .inText) ∧
    ∀ (index : Nat) (tag : WrittenTag), written[index]? = some (.startTag tag) →
      ∃ read : StartTag, (events text)[index]? = some (.startTag read) ∧
        read.name = tag.name ∧ read.selfClosing = tag.selfClosing ∧ read.current = none ∧
        read.attributes.keys.Nodup ∧
        read.attributes.keys = (tag.pairs.map Prod.fst).eraseDups ∧
        ∀ name, read.attributes.get? name = tag.pairs.reverse.lookup name := by
  have start : Mode.fresh.Outside := trivial
  obtain ⟨closed, next, reads, all, caret⟩ :=
    reads_written start valid apart (fun _ _ _ => rfl)
  have same : events text = written.map event := by
    rw [events_eq, spelled, reads.closes, reads.leaves, all]
    rfl
  refine ⟨same, ?_, fun index tag listed => ⟨tag.event, ?_, rfl, rfl, rfl, ?_, ?_, ?_⟩⟩
  · rw [caretOf, spelled, reads.leaves, caret]
    rfl
  · rw [same, List.getElem?_map, listed]
    rfl
  · exact Attributes.nodup_keys_ofList tag.pairs
  · exact Attributes.keys_ofList tag.pairs
  · exact Attributes.get?_ofList tag.pairs

/-- Brackets, slashes and quotes inside values, and an attribute that is given again. -/
def memo : List WrittenEvent :=
  [.instruction "xml a='>' ".toList,
    .startTag
      { name := "memo"
        attributes :=
          [⟨[' '], "to", [], .double, "</memo a='>'"⟩, ⟨['\n', '\t'], "re", [' '], .single, "\"/"⟩,
            ⟨[' '], "to", [], .single, "all="⟩]
        gap := [' '] },
    .text " > ", .startTag { name := "br", selfClosing := true }, .endTag "memo" [' ']]

theorem memo_read_back :
    (∀ event ∈ memo, event.Valid) ∧ memo.IsChain Apart ∧
    events "<?xml a='>' ?><memo to=\"</memo a='>'\"\n\tre= '\"/' to='all=' > > <br/></memo >" =
      [.instruction,
        .startTag
          { name := "memo"
            attributes := ⟨[("to", .value "all="), ("re", .value "\"/")]⟩ },
        .text " > ", .startTag { name := "br", selfClosing := true }, .endTag "memo"] := by
  have valid : ∀ event ∈ memo, event.Valid := by decide +kernel
  have apart : memo.IsChain Apart := by decide +kernel
  refine ⟨valid, apart, ?_⟩
  rw [(events_written valid apart (by decide +kernel)).1]
  decide +kernel

end ContentAssist.Markup
