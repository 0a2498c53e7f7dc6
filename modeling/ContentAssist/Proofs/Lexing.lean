/-
# ContentAssist.Proofs.Lexing -- what written markup reads as

`Reads mode cs events next` says that reading `cs` from `mode` closes exactly `events`
and leaves `next`.  Readings of pieces compose (`Reads.append`), so the lemmas below
take written markup apart piece by piece: names, attributes, start tags, end tags,
instructions and text.

* `reads_tag`: a written start tag closes as one event, with the attributes in the
  order they were first written and the last value of each.
* `reads_endTag`, `reads_instruction`, `reads_text`: the other pieces.
* `outside_or_began`: unfinished markup began at a bracket that stood outside of markup,
  and the mode still knows what has been typed of a name since (`Mode.Spells`).
-/
import ContentAssist.Markup.Lexer
import Mathlib.Data.List.Induction

namespace ContentAssist.Markup

set_option autoImplicit false

/-! ## Events that close -/

/-- The events that close while some characters are read. -/
def closedEvents : Mode → List Char → List Event
  | _, [] => []
  | mode, c :: cs => (mode.read c).closed.toList ++ closedEvents (mode.read c).mode cs

@[simp] theorem closedEvents_nil (mode : Mode) : closedEvents mode [] = [] := rfl

theorem closedEvents_cons (mode : Mode) (c : Char) (cs : List Char) :
    closedEvents mode (c :: cs) =
      (mode.read c).closed.toList ++ closedEvents (mode.read c).mode cs := rfl

theorem closedEvents_append (mode : Mode) (cs ds : List Char) :
    closedEvents mode (cs ++ ds) =
      closedEvents mode cs ++ closedEvents (modeAfter mode cs) ds := by
  induction cs generalizing mode with
  | nil => rfl
  | cons c cs ih =>
      rw [List.cons_append, closedEvents_cons, closedEvents_cons, ih, modeAfter_cons,
        List.append_assoc]

/-- Reading the characters closes exactly these events and leaves this mode. -/
structure Reads (mode : Mode) (cs : List Char) (events : List Event) (next : Mode) : Prop where
  closes : closedEvents mode cs = events
  leaves : modeAfter mode cs = next

namespace Reads

theorem nil (mode : Mode) : Reads mode [] [] mode := ⟨rfl, rfl⟩

theorem append {mode middle next : Mode} {cs ds : List Char} {front back : List Event}
    (first : Reads mode cs front middle) (second : Reads middle ds back next) :
    Reads mode (cs ++ ds) (front ++ back) next := by
  constructor
  · rw [closedEvents_append, first.closes, first.leaves, second.closes]
  · rw [modeAfter_append, first.leaves, second.leaves]

/-- One character that closes nothing. -/
theorem one {mode next : Mode} {c : Char} (read : mode.read c = .stay next) :
    Reads mode [c] [] next := by
  constructor
  · simp [closedEvents_cons, read, Step.stay]
  · simp [read, Step.stay]

/-- One character that closes an event as its last. -/
theorem last {mode : Mode} {c : Char} {event : Event} (read : mode.read c = .finish event) :
    Reads mode [c] [event] .content := by
  constructor
  · simp [closedEvents_cons, read, Step.finish]
  · simp [read, Step.finish]

/-- A character that closes nothing, then more. -/
theorem cons {mode next : Mode} {c : Char} {cs : List Char} {events : List Event}
    (middle : Mode) (read : mode.read c = .stay middle) (rest : Reads middle cs events next) :
    Reads mode (c :: cs) events next :=
  (one read).append rest

/-- A mode that collects the characters it reads, newest first. -/
theorem collect (mode : List Char → Mode) {cs : List Char}
    (each : ∀ c ∈ cs, ∀ typed, (mode typed).read c = .stay (mode (c :: typed)))
    (typed : List Char) : Reads (mode typed) cs [] (mode (cs.reverse ++ typed)) := by
  induction cs generalizing typed with
  | nil => exact .nil _
  | cons c cs ih =>
      have rest := ih (fun d later => each d (List.mem_cons_of_mem c later)) (c :: typed)
      rw [List.reverse_cons, List.append_assoc]
      exact .cons _ (each c List.mem_cons_self typed) rest

/-- A mode that keeps but the last character. -/
theorem skip (mode : Char → Mode) {cs : List Char}
    (each : ∀ c ∈ cs, ∀ last, (mode last).read c = .stay (mode c)) (last : Char) :
    Reads (mode last) cs [] (mode (cs.getLastD last)) := by
  induction cs generalizing last with
  | nil => exact .nil _
  | cons c cs ih =>
      rw [List.getLastD_cons]
      exact .cons _ (each c List.mem_cons_self last)
        (ih (fun d later => each d (List.mem_cons_of_mem c later)) c)

end Reads

theorem spell_reverse (text : String) : spell text.toList.reverse = text := by
  simp [spell]

/-! ## Outside of markup -/

/-- Nothing but text may be unfinished. -/
def Mode.Outside : Mode → Prop
  | .fresh => True
  | .content => True
  | .text _ => True
  | _ => False

theorem Mode.outside_iff_caret (mode : Mode) :
    mode.Outside ↔ mode.caret = .atStart ∨ mode.caret = .inText := by
  cases mode <;> simp [Mode.Outside, Mode.caret]

/-- An opening bracket ends the text, if there is any, and opens markup. -/
theorem reads_bracket {mode : Mode} (outside : mode.Outside) :
    Reads mode ['<'] mode.pending?.toList .opened := by
  cases mode with
  | fresh => exact ⟨rfl, rfl⟩
  | content => exact ⟨rfl, rfl⟩
  | text typed => exact ⟨rfl, rfl⟩
  | _ => exact outside.elim

/-- The text that is unfinished, newest character first. -/
def Mode.typedText : Mode → List Char
  | .text typed => typed
  | _ => []

/-- Text without a bracket goes on with the text that is unfinished. -/
theorem reads_text {mode : Mode} (outside : mode.Outside) {cs : List Char} (free : '<' ∉ cs)
    (some : cs ≠ []) : Reads mode cs [] (.text (cs.reverse ++ mode.typedText)) := by
  obtain ⟨c, cs, rfl⟩ := List.exists_cons_of_ne_nil some
  have plain : ∀ d ∈ c :: cs, d ≠ '<' := fun d listed bad => free (bad ▸ listed)
  have first : mode.read c = .stay (.text (c :: mode.typedText)) := by
    cases mode with
    | fresh => simp [Mode.read, readContent, plain c, Mode.typedText]
    | content => simp [Mode.read, readContent, plain c, Mode.typedText]
    | text typed => simp [Mode.read, plain c, Mode.typedText]
    | _ => exact outside.elim
  rw [List.reverse_cons, List.append_assoc]
  refine .cons _ first (Reads.collect .text (fun d later typed => ?_) _)
  simp [Mode.read, plain d (List.mem_cons_of_mem c later)]

/-! ## Names -/

/-- No white space and no closing bracket: what a name is read up to. -/
def Plain (name : String) : Prop :=
  ∀ c ∈ name.toList, Text.isSpace c = false ∧ c ≠ '>'

/-- A name that a start tag can be written with. -/
structure TagName (name : String) : Prop where
  nonempty : name.toList ≠ []
  plain : Plain name
  begins : ∀ c ∈ name.toList.head?, c ≠ '?' ∧ c ≠ '/'
  ends : ∀ c ∈ name.toList.getLast?, c ≠ '/'

-- Characters are finitely many, but a check of a text goes along the text and does not try
-- every character there is.
instance (priority := 2000) decidableForallMem (cs : List Char) (P : Char → Prop)
    [DecidablePred P] : Decidable (∀ c ∈ cs, P c) :=
  List.decidableBAll P cs

instance (priority := 2000) decidableForallMem? (c? : Option Char) (P : Char → Prop)
    [DecidablePred P] : Decidable (∀ c ∈ c?, P c) :=
  Option.decidableForallMem c?

instance (name : String) : Decidable (Plain name) :=
  inferInstanceAs (Decidable (∀ c ∈ name.toList, _))

instance (name : String) : Decidable (TagName name) :=
  decidable_of_iff
    (name.toList ≠ [] ∧ Plain name ∧ (∀ c ∈ name.toList.head?, c ≠ '?' ∧ c ≠ '/') ∧
      ∀ c ∈ name.toList.getLast?, c ≠ '/')
    ⟨fun ⟨nonempty, plain, begins, ends⟩ => ⟨nonempty, plain, begins, ends⟩,
      fun ⟨nonempty, plain, begins, ends⟩ => ⟨nonempty, plain, begins, ends⟩⟩

theorem read_startName {typed : List Char} {c : Char} (space : Text.isSpace c = false)
    (bracket : c ≠ '>') : (Mode.startName typed).read c = .stay (.startName (c :: typed)) := by
  simp [Mode.read, readStartName, space, bracket]

theorem reads_name {name : String} (named : TagName name) :
    Reads .opened name.toList [] (.startName name.toList.reverse) := by
  obtain ⟨c, cs, split⟩ := List.exists_cons_of_ne_nil named.nonempty
  have begins := named.begins c (by simp [split])
  have plain := named.plain
  rw [Plain, split] at plain
  obtain ⟨space, bracket⟩ := plain c List.mem_cons_self
  rw [split, List.reverse_cons]
  refine .cons _ ?_ (Reads.collect .startName (fun d later typed => ?_) [c])
  · simp [Mode.read, readStartName, begins, space, bracket]
  · obtain ⟨space, bracket⟩ := plain d (List.mem_cons_of_mem c later)
    exact read_startName space bracket

/-- A start tag of a name alone. -/
theorem reads_startTag {name : String} (named : TagName name) :
    Reads .opened (name.toList ++ ['>']) [.startTag { name }] .content := by
  refine (reads_name named).append (.last ?_)
  have closes : closeStartName name.toList.reverse = .startTag { name } := by
    cases reversed : name.toList.reverse with
    | nil => exact absurd (List.reverse_eq_nil_iff.mp reversed) named.nonempty
    | cons c typed =>
        have slash : c ≠ '/' := named.ends c (by
          rw [← List.head?_reverse, reversed]
          rfl)
        rw [closeStartName.eq_def]
        split
        · rename_i same
          exact absurd (List.cons.inj same).1 slash
        · rw [← reversed, spell_reverse]
  simp [Mode.read, readStartName, closes]

theorem reads_endName {name : String} (plain : Plain name) :
    Reads (.endName []) name.toList [] (.endName name.toList.reverse) := by
  have reads : Reads (.endName []) name.toList [] (.endName (name.toList.reverse ++ [])) :=
    Reads.collect .endName ?_ []
  · rwa [List.append_nil] at reads
  · intro c listed typed
    obtain ⟨space, bracket⟩ := plain c listed
    simp [Mode.read, readEndName, space, bracket]

/-- An end tag that is not closed yet; once white space has followed its name, anything but
a bracket may stand there. -/
theorem reads_endTag_typed {name : String} (plain : Plain name) {rest : List Char}
    (parted : ∀ c ∈ rest.head?, Text.isSpace c = true) (unclosed : '>' ∉ rest) :
    ∃ mode, Reads .opened ('/' :: (name.toList ++ rest)) [] mode ∧
      mode.pending? = some (.endTag name) ∧ mode.caret = .inEndTag ∧
      mode.read '>' = .finish (.endTag name) := by
  have named : Reads .opened ('/' :: name.toList) [] (.endName name.toList.reverse) :=
    .cons (.endName []) (by simp [Mode.read]) (reads_endName plain)
  cases rest with
  | nil =>
      refine ⟨_, by simpa using named, ?_, rfl, ?_⟩
      · simp [Mode.pending?, spell_reverse]
      · simp [Mode.read, readEndName, spell_reverse]
  | cons c rest =>
      have space := parted c rfl
      rw [List.mem_cons, not_or] at unclosed
      refine ⟨.endRest name, ?_, rfl, rfl, by simp [Mode.read]⟩
      rw [← List.cons_append]
      refine named.append (.cons (.endRest name) ?_ ?_)
      · simp [Mode.read, readEndName, space, Ne.symm unclosed.1, spell_reverse]
      · refine Reads.skip (fun _ => .endRest name) (fun d later last => ?_) c
        have notBracket : d ≠ '>' := fun bracket => unclosed.2 (bracket ▸ later)
        simp [Mode.read, notBracket]

/-- An end tag; white space may stand after its name. -/
theorem reads_endTag {name : String} (plain : Plain name) {gap : List Char}
    (spaces : ∀ c ∈ gap, Text.isSpace c = true) :
    Reads .opened ('/' :: (name.toList ++ (gap ++ ['>']))) [.endTag name] .content := by
  have unclosed : '>' ∉ gap := fun bracket => absurd (spaces '>' bracket) (by decide)
  obtain ⟨mode, reads, -, -, closes⟩ := reads_endTag_typed plain
    (fun c first => spaces c (List.mem_of_mem_head? first)) unclosed
  simpa using reads.append (.last closes)

/-! ## Attributes and start tags -/

theorem ne_of_isSpace {c d : Char} (space : Text.isSpace c = true)
    (other : Text.isSpace d = false) : c ≠ d := by
  rintro rfl
  rw [space] at other
  cases other

/-- An attribute as it is written: white space, the name, an equals sign, perhaps more
white space, and the value in quotes. -/
structure WrittenAttribute where
  gap : List Char
  name : String
  pause : List Char
  quote : Quote
  value : String
  deriving DecidableEq, Repr, Inhabited

namespace WrittenAttribute

def chars (written : WrittenAttribute) : List Char :=
  written.gap ++ (written.name.toList ++ ('=' :: (written.pause ++
    (written.quote.char :: (written.value.toList ++ [written.quote.char])))))

structure Valid (written : WrittenAttribute) : Prop where
  separated : written.gap ≠ []
  gap : ∀ c ∈ written.gap, Text.isSpace c = true
  named : written.name.toList ≠ []
  name : ∀ c ∈ written.name.toList, Text.isSpace c = false ∧ c ≠ '=' ∧ c ≠ '>'
  begins : ∀ c ∈ written.name.toList.head?, c ≠ '/'
  pause : ∀ c ∈ written.pause, Text.isSpace c = true
  quoted : written.quote.char ∉ written.value.toList

instance (written : WrittenAttribute) : Decidable written.Valid :=
  decidable_of_iff
    (written.gap ≠ [] ∧ (∀ c ∈ written.gap, Text.isSpace c = true) ∧
      written.name.toList ≠ [] ∧
      (∀ c ∈ written.name.toList, Text.isSpace c = false ∧ c ≠ '=' ∧ c ≠ '>') ∧
      (∀ c ∈ written.name.toList.head?, c ≠ '/') ∧
      (∀ c ∈ written.pause, Text.isSpace c = true) ∧
      written.quote.char ∉ written.value.toList)
    ⟨fun ⟨h₁, h₂, h₃, h₄, h₅, h₆, h₇⟩ => ⟨h₁, h₂, h₃, h₄, h₅, h₆, h₇⟩,
      fun ⟨h₁, h₂, h₃, h₄, h₅, h₆, h₇⟩ => ⟨h₁, h₂, h₃, h₄, h₅, h₆, h₇⟩⟩

end WrittenAttribute

/-- A tag with one more attribute. -/
def OpenTag.record (tag : OpenTag) (written : WrittenAttribute) : OpenTag :=
  { tag with attributes := tag.attributes.insert written.name (.value written.value) }

/-- Past the name of a tag, outside of its attributes, and not after a slash. -/
def Mode.InTag (mode : Mode) (tag : OpenTag) : Prop :=
  (∃ c typed, mode = .startName (c :: typed) ∧ c ≠ '/' ∧ tag = { name := spell (c :: typed) }) ∨
    ∃ last, mode = .between tag last ∧ last ≠ '/'

theorem getLastD_isSpace {gap : List Char} (spaces : ∀ c ∈ gap, Text.isSpace c = true)
    {last : Char} (space : Text.isSpace last = true) :
    Text.isSpace (gap.getLastD last) = true := by
  cases gap with
  | nil => exact space
  | cons c gap =>
      rw [List.getLastD_cons, ← List.getLast_eq_getLastD (List.cons_ne_nil c gap)]
      exact spaces _ (List.getLast_mem _)

/-- White space ends a tag's name and separates attributes. -/
theorem reads_gap {mode : Mode} {tag : OpenTag} (inTag : mode.InTag tag) {gap : List Char}
    (some : gap ≠ []) (spaces : ∀ c ∈ gap, Text.isSpace c = true) :
    ∃ last, Reads mode gap [] (.between tag last) ∧ Text.isSpace last = true := by
  obtain ⟨c, gap, rfl⟩ := List.exists_cons_of_ne_nil some
  have space := spaces c List.mem_cons_self
  have bracket : ∀ d, Text.isSpace d = true → d ≠ '>' := fun d isSpace =>
    ne_of_isSpace isSpace rfl
  have later : ∀ d ∈ gap, Text.isSpace d = true := fun d listed =>
    spaces d (List.mem_cons_of_mem c listed)
  have first : mode.read c = .stay (.between tag c) := by
    rcases inTag with ⟨d, typed, rfl, -, rfl⟩ | ⟨last, rfl, -⟩
    · simp [Mode.read, readStartName, space, bracket c space]
    · simp [Mode.read, space, bracket c space]
  refine ⟨gap.getLastD c, .cons _ first (Reads.skip (.between tag) (fun d listed last => ?_) c),
    getLastD_isSpace later space⟩
  simp [Mode.read, later d listed, bracket d (later d listed)]

theorem char_ofChar (quote : Quote) : Quote.ofChar? quote.char = some quote := by
  cases quote <;> rfl

theorem ofChar_of_isSpace {c : Char} (space : Text.isSpace c = true) :
    Quote.ofChar? c = none := by
  have double : c ≠ '"' := ne_of_isSpace space rfl
  have single : c ≠ '\'' := ne_of_isSpace space rfl
  simp [Quote.ofChar?, double, single]

/-- One attribute is recorded with its value. -/
theorem reads_attribute {mode : Mode} {tag : OpenTag} (inTag : mode.InTag tag)
    {written : WrittenAttribute} (valid : written.Valid) :
    Reads mode written.chars [] (.between (tag.record written) written.quote.char) := by
  obtain ⟨last, gap, -⟩ := reads_gap inTag valid.separated valid.gap
  obtain ⟨c, cs, split⟩ := List.exists_cons_of_ne_nil valid.named
  have name := valid.name
  rw [split] at name
  obtain ⟨space, equals, bracket⟩ := name c List.mem_cons_self
  have slash := valid.begins c (by simp [split])
  -- the name, from its first character to the equals sign
  have named : Reads (.between tag last) written.name.toList []
      (.attributeName tag written.name.toList.reverse) := by
    rw [split, List.reverse_cons]
    refine .cons _ ?_ (Reads.collect (.attributeName tag) (fun d later typed => ?_) [c])
    · simp [Mode.read, space, bracket, slash]
    · obtain ⟨space, equals, bracket⟩ := name d (List.mem_cons_of_mem c later)
      simp [Mode.read, space, equals, bracket]
  have paused : Reads (.equals tag written.name '=') written.pause []
      (.equals tag written.name (written.pause.getLastD '=')) := by
    refine Reads.skip (.equals tag written.name) (fun d listed last => ?_) '='
    have space := valid.pause d listed
    have bracket : d ≠ '>' := ne_of_isSpace space rfl
    simp [Mode.read, bracket, ofChar_of_isSpace space]
  have valued : Reads (.value tag written.name written.quote []) written.value.toList []
      (.value tag written.name written.quote (written.value.toList.reverse ++ [])) := by
    refine Reads.collect (.value tag written.name written.quote) (fun d listed typed => ?_) []
    have inside : d ≠ written.quote.char := fun same => valid.quoted (same ▸ listed)
    simp [Mode.read, inside]
  have opens : (Mode.equals tag written.name (written.pause.getLastD '=')).read
      written.quote.char = .stay (.value tag written.name written.quote []) := by
    have bracket : written.quote.char ≠ '>' := by cases written.quote <;> decide
    simp [Mode.read, bracket, char_ofChar]
  rw [List.append_nil] at valued
  refine gap.append (named.append (.cons (.equals tag written.name '=') ?_ (paused.append
    (.cons _ opens (valued.append (.one ?_))))))
  · have spaced : Text.isSpace '=' = false := rfl
    simp [Mode.read, spaced, spell_reverse]
  · simp [Mode.read, OpenTag.record, spell_reverse]

theorem reads_attributes {mode : Mode} {tag : OpenTag} (inTag : mode.InTag tag)
    {attributes : List WrittenAttribute} (valid : ∀ written ∈ attributes, written.Valid) :
    ∃ next, Reads mode (attributes.flatMap WrittenAttribute.chars) [] next ∧
      next.InTag (attributes.foldl OpenTag.record tag) := by
  induction attributes generalizing mode tag with
  | nil => exact ⟨mode, .nil mode, inTag⟩
  | cons written rest ih =>
      have one := reads_attribute inTag (valid written List.mem_cons_self)
      have quoted : written.quote.char ≠ '/' := by cases written.quote <;> decide
      obtain ⟨next, reads, stays⟩ := ih (.inr ⟨written.quote.char, rfl, quoted⟩)
        (fun other later => valid other (List.mem_cons_of_mem written later))
      exact ⟨next, one.append reads, stays⟩

/-- A start tag as it is written. -/
structure WrittenTag where
  name : String
  attributes : List WrittenAttribute := []
  /-- White space before the closing bracket. -/
  gap : List Char := []
  selfClosing : Bool := false
  deriving DecidableEq, Repr, Inhabited

namespace WrittenTag

/-- The characters after the opening bracket. -/
def chars (tag : WrittenTag) : List Char :=
  tag.name.toList ++ (tag.attributes.flatMap WrittenAttribute.chars ++
    (tag.gap ++ if tag.selfClosing then ['/', '>'] else ['>']))

structure Valid (tag : WrittenTag) : Prop where
  name : TagName tag.name
  attributes : ∀ written ∈ tag.attributes, written.Valid
  gap : ∀ c ∈ tag.gap, Text.isSpace c = true

instance (tag : WrittenTag) : Decidable tag.Valid :=
  decidable_of_iff
    (TagName tag.name ∧ (∀ written ∈ tag.attributes, written.Valid) ∧
      ∀ c ∈ tag.gap, Text.isSpace c = true)
    ⟨fun ⟨name, attributes, gap⟩ => ⟨name, attributes, gap⟩,
      fun ⟨name, attributes, gap⟩ => ⟨name, attributes, gap⟩⟩

/-- The attributes as names and values. -/
def pairs (tag : WrittenTag) : List (String × AttributeValue) :=
  tag.attributes.map fun written => (written.name, .value written.value)

/-- The event that a written tag stands for. -/
def event (tag : WrittenTag) : StartTag :=
  { name := tag.name, attributes := .ofList tag.pairs, selfClosing := tag.selfClosing }

end WrittenTag

/-- The end of a tag, with or without a slash. -/
theorem reads_tagEnd {mode : Mode} {tag : OpenTag} (inTag : mode.InTag tag) {gap : List Char}
    (spaces : ∀ c ∈ gap, Text.isSpace c = true) (selfClosing : Bool) :
    Reads mode (gap ++ if selfClosing then ['/', '>'] else ['>'])
      [.startTag { name := tag.name, attributes := tag.attributes, selfClosing }] .content := by
  -- after the gap the tag is between attributes, unless there is neither gap nor attribute
  have after : ∃ next, Reads mode gap [] next ∧ next.InTag tag := by
    cases gap with
    | nil => exact ⟨mode, .nil mode, inTag⟩
    | cons c gap =>
        obtain ⟨last, reads, space⟩ := reads_gap inTag (by simp) spaces
        exact ⟨_, reads, .inr ⟨last, rfl, ne_of_isSpace space rfl⟩⟩
  obtain ⟨next, reads, stays⟩ := after
  refine reads.append ?_
  have bracket : ('/' : Char) ≠ '>' := by decide
  have spaced : Text.isSpace '/' = false := rfl
  rcases stays with ⟨c, typed, rfl, slash, rfl⟩ | ⟨last, rfl, slash⟩
  · cases selfClosing with
    | true =>
        exact .cons (.startName ('/' :: c :: typed))
          (by simp [Mode.read, readStartName, spaced]) (.last rfl)
    | false =>
        have closes : closeStartName (c :: typed) = .startTag { name := spell (c :: typed) } := by
          rw [closeStartName.eq_def]
          split
          · rename_i same
            exact absurd (List.cons.inj same).1 slash
          · rfl
        exact .last (by simp [Mode.read, readStartName, closes])
  · cases selfClosing with
    | true =>
        exact .cons (.between tag '/') (by simp [Mode.read])
          (.last (by simp [Mode.read, OpenTag.close]))
    | false =>
        have kept : (last == '/') = false := beq_eq_false_iff_ne.mpr slash
        exact .last (by simp [Mode.read, OpenTag.close, kept])

theorem foldl_record (attributes : List WrittenAttribute) (tag : OpenTag) :
    attributes.foldl OpenTag.record tag =
      { name := tag.name
        attributes :=
          (attributes.map fun written =>
            (written.name, AttributeValue.value written.value)).foldl
              (fun found (name, value) => found.insert name value) tag.attributes } := by
  induction attributes generalizing tag with
  | nil => rfl
  | cons written rest ih => exact ih (tag.record written)

/-- **A written start tag is read as its event.** -/
theorem reads_tag {tag : WrittenTag} (valid : tag.Valid) :
    Reads .opened tag.chars [.startTag tag.event] .content := by
  obtain ⟨c, typed, reversed⟩ : ∃ c typed, tag.name.toList.reverse = c :: typed :=
    List.exists_cons_of_ne_nil (by simpa using valid.name.nonempty)
  have slash : c ≠ '/' := valid.name.ends c (by
    rw [← List.head?_reverse, reversed]
    rfl)
  have named : spell (c :: typed) = tag.name := by rw [← reversed, spell_reverse]
  have inTag : (Mode.startName tag.name.toList.reverse).InTag { name := tag.name } :=
    .inl ⟨c, typed, by rw [reversed], slash, by rw [named]⟩
  obtain ⟨next, attributes, stays⟩ := reads_attributes inTag valid.attributes
  have close := reads_tagEnd stays valid.gap tag.selfClosing
  rw [foldl_record] at close
  exact (reads_name valid.name).append (attributes.append close)

/-! ## Instructions -/

/-- The body of an instruction, which a question mark comes before and after, does not
close it. -/
theorem reads_instructionBody (asked : Bool) {body : List Char}
    (closed : ¬ ['?', '>'] <:+: (if asked then '?' :: body else body)) :
    ∃ next, Reads (.instruction asked) body [] (.instruction next) := by
  induction body generalizing asked with
  | nil => exact ⟨asked, .nil _⟩
  | cons c body ih =>
      have first : (Mode.instruction asked).read c = .stay (.instruction (c == '?')) := by
        cases asked with
        | false => simp [Mode.read]
        | true =>
            have notEnd : c ≠ '>' := by
              rintro rfl
              exact closed ⟨[], body, rfl⟩
            simp [Mode.read, notEnd]
      have inside : ¬ ['?', '>'] <:+: (c :: body) := by
        cases asked with
        | false => exact closed
        | true => exact fun part => closed (part.trans (List.suffix_cons '?' _).isInfix)
      have rest : ¬ ['?', '>'] <:+: (if (c == '?') = true then '?' :: body else body) := by
        by_cases question : c = '?'
        · subst question
          exact inside
        · rw [if_neg (by simpa using question)]
          exact fun part => inside (part.trans (List.suffix_cons c _).isInfix)
      obtain ⟨next, reads⟩ := ih _ rest
      exact ⟨next, .cons _ first reads⟩

/-- A closed instruction. -/
theorem reads_instruction {body : List Char} (closed : ¬ ['?', '>'] <:+: '?' :: body) :
    Reads .opened ('?' :: (body ++ ['?', '>'])) [.instruction] .content := by
  refine .cons (.instruction true) (by simp [Mode.read]) ?_
  obtain ⟨next, reads⟩ := reads_instructionBody true closed
  refine reads.append (.cons (.instruction true) ?_ (.last (by simp [Mode.read])))
  cases next <;> simp [Mode.read]

/-! ## How many tokens there are -/

/-- After a character something is unfinished, unless it closed an event as its last. -/
theorem isSome_pending?_or_finish (mode : Mode) (c : Char) :
    (mode.read c).mode.pending?.isSome = true ∨ ∃ event, mode.read c = .finish event := by
  cases mode with
  | _ =>
      simp only [Mode.read, readContent, readStartName, readEndName]
      repeat' split
      all_goals first | exact .inl rfl | exact .inr ⟨_, rfl⟩

/-- A character closes or begins at most one event, unless it ends text at a bracket. -/
theorem length_read_le (mode : Mode) (c : Char) :
    (mode.read c).closed.toList.length + (mode.read c).mode.pending?.toList.length ≤
      1 + mode.pending?.toList.length := by
  have one (next : Mode) : next.pending?.toList.length ≤ 1 := by
    cases next.pending? <;> simp
  have stay (next : Mode) : (Step.stay next).closed.toList.length +
      (Step.stay next).mode.pending?.toList.length ≤ 1 + mode.pending?.toList.length := by
    have := one next
    simp only [Step.stay, Option.toList_none, List.length_nil]
    omega
  have finish (event : Event) : (Step.finish event).closed.toList.length +
      (Step.finish event).mode.pending?.toList.length ≤ 1 + mode.pending?.toList.length := by
    simp [Step.finish, Mode.pending?]
  cases mode with
  | text typed =>
      simp only [Mode.read]
      split
      · simp [Mode.pending?]
      · exact stay _
  | _ =>
      simp only [Mode.read, readContent, readStartName, readEndName]
      repeat' split
      all_goals first | exact stay _ | exact finish _

theorem length_tokensFrom_le (mode : Mode) (offset : Nat) (cs : List Char) :
    (tokensFrom mode offset cs).length ≤ cs.length + mode.pending?.toList.length := by
  induction cs generalizing mode offset with
  | nil =>
      rw [tokensFrom, pendingToken]
      cases mode.pending? <;> simp
  | cons c cs ih =>
      have one := length_read_le mode c
      rw [tokensFrom]
      generalize mode.read c = read at one ⊢
      obtain ⟨_ | event, next⟩ := read
      · have rest := ih next (offset + c.utf8Size)
        simp only [Option.toList_none, List.length_nil] at one
        simp only [List.length_cons]
        omega
      · have rest := ih next (offset + c.utf8Size)
        simp only [Option.toList_some, List.length_singleton] at one
        simp only [List.length_cons]
        omega

theorem length_le_byteLength (cs : List Char) : cs.length ≤ Text.byteLength cs := by
  induction cs with
  | nil => simp
  | cons c cs ih =>
      have positive := c.utf8Size_pos
      rw [List.length_cons, Text.byteLength_cons]
      omega

/-- A text has no more tokens than characters. -/
theorem length_tokens_le (text : String) : (tokens text).length ≤ text.toList.length :=
  length_tokensFrom_le .fresh 0 text.toList

/-! ## Where markup began -/

/-- What has been read since the opening bracket, as far as a mode knows. -/
def Mode.Spells (inner : List Char) : Mode → Prop
  | .opened => inner = []
  | .startName typed => inner = typed.reverse
  | .endName typed => inner = '/' :: typed.reverse ∧ Plain (spell typed)
  | .endRest name => ∃ space rest, inner = '/' :: (name.toList ++ space :: rest) ∧ Plain name ∧
      Text.isSpace space = true ∧ '>' ∉ rest
  | _ => True

theorem plain_spell_cons {c : Char} {typed : List Char} (plain : Plain (spell typed))
    (space : Text.isSpace c = false) (bracket : c ≠ '>') : Plain (spell (c :: typed)) := by
  intro d listed
  simp only [spell, String.toList_ofList, List.reverse_cons, List.mem_append,
    List.mem_singleton] at listed
  rcases listed with older | rfl
  · exact plain d (by simpa [spell] using older)
  · exact ⟨space, bracket⟩

theorem spells_readStartName {typed inner : List Char} (spelled : inner = typed.reverse)
    (c : Char) :
    (∃ event, readStartName typed c = .finish event) ∨
      ∃ next, readStartName typed c = .stay next ∧ ¬ next.Outside ∧ next.Spells (inner ++ [c]) := by
  unfold readStartName
  split
  · exact .inl ⟨_, rfl⟩
  · split
    · exact .inr ⟨_, rfl, id, trivial⟩
    · exact .inr ⟨_, rfl, id, by simp [Mode.Spells, spelled]⟩

theorem spells_readEndName {typed inner : List Char} (spelled : inner = '/' :: typed.reverse)
    (plain : Plain (spell typed)) (c : Char) :
    (∃ event, readEndName typed c = .finish event) ∨
      ∃ next, readEndName typed c = .stay next ∧ ¬ next.Outside ∧ next.Spells (inner ++ [c]) := by
  unfold readEndName
  split
  · exact .inl ⟨_, rfl⟩
  · rename_i bracket
    split
    · rename_i space
      exact .inr ⟨_, rfl, id, c, [], by simp [spelled, spell], plain, space, by simp⟩
    · rename_i space
      exact .inr ⟨_, rfl, id, by simp [spelled], plain_spell_cons plain (by simpa using space) bracket⟩

/-- Inside of markup a character closes the event, or is one more of what is spelled. -/
theorem read_inside {mode : Mode} (inside : ¬ mode.Outside) {inner : List Char}
    (spells : mode.Spells inner) (c : Char) :
    (∃ event, mode.read c = .finish event) ∨
      ∃ next, mode.read c = .stay next ∧ ¬ next.Outside ∧ next.Spells (inner ++ [c]) := by
  cases mode with
  | fresh => exact absurd trivial inside
  | content => exact absurd trivial inside
  | text typed => exact absurd trivial inside
  | opened =>
      have nothing : inner = [] := spells
      subst nothing
      simp only [Mode.read]
      split
      · exact .inr ⟨_, rfl, id, trivial⟩
      · split
        · rename_i slash
          exact .inr ⟨_, rfl, id, by simp [slash], by simp [Plain, spell]⟩
        · exact spells_readStartName rfl c
  | instruction asked =>
      simp only [Mode.read]
      split
      · exact .inl ⟨_, rfl⟩
      · exact .inr ⟨_, rfl, id, trivial⟩
  | endName typed => exact spells_readEndName spells.1 spells.2 c
  | endRest name =>
      obtain ⟨space, rest, spelled, plain, isSpace, unclosed⟩ := spells
      simp only [Mode.read]
      split
      · exact .inl ⟨_, rfl⟩
      · rename_i bracket
        exact .inr ⟨_, rfl, id, space, rest ++ [c], by simp [spelled], plain, isSpace,
          by simp [unclosed, Ne.symm bracket]⟩
  | startName typed => exact spells_readStartName spells c
  | between tag last =>
      simp only [Mode.read]
      split
      · exact .inl ⟨_, rfl⟩
      · split <;> exact .inr ⟨_, rfl, id, trivial⟩
  | attributeName tag typed =>
      simp only [Mode.read]
      split
      · exact .inl ⟨_, rfl⟩
      · split
        · exact .inr ⟨_, rfl, id, trivial⟩
        · split <;> exact .inr ⟨_, rfl, id, trivial⟩
  | equals tag name last =>
      simp only [Mode.read]
      split
      · exact .inl ⟨_, rfl⟩
      · split <;> exact .inr ⟨_, rfl, id, trivial⟩
  | value tag name quote typed =>
      simp only [Mode.read]
      split <;> exact .inr ⟨_, rfl, id, trivial⟩

theorem read_outside {mode : Mode} (outside : mode.Outside) (c : Char) :
    (mode.read c).mode.Outside ∨ (mode.read c).mode = .opened ∧ c = '<' := by
  by_cases bracket : c = '<'
  · rw [bracket]
    exact .inr ⟨(reads_bracket outside).leaves, rfl⟩
  · left
    have text : modeAfter mode [c] = .text ([c].reverse ++ mode.typedText) :=
      (reads_text outside (by simpa using Ne.symm bracket) (by simp)).leaves
    rw [modeAfter_cons, modeAfter_nil] at text
    rw [text]
    trivial

/-- **Unfinished markup began at a bracket outside of markup**, and has been read from
there on without anything closing. -/
theorem outside_or_began (cs : List Char) :
    (modeAfter .fresh cs).Outside ∨
      ∃ front inner, cs = front ++ '<' :: inner ∧ (modeAfter .fresh front).Outside ∧
        Reads .opened inner [] (modeAfter .fresh cs) ∧
        ¬ (modeAfter .fresh cs).Outside ∧ (modeAfter .fresh cs).Spells inner := by
  induction cs using List.reverseRecOn with
  | nil => exact .inl trivial
  | append_singleton cs c ih =>
      rw [modeAfter_append, modeAfter_cons, modeAfter_nil]
      rcases ih with outside | ⟨front, inner, split, outside, reads, inside, spells⟩
      · rcases read_outside outside c with still | ⟨opened, bracket⟩
        · exact .inl still
        · rw [opened, bracket]
          exact .inr ⟨cs, [], rfl, outside, .nil _, id, rfl⟩
      · rcases read_inside inside spells c with ⟨event, closes⟩ | ⟨next, stays, more, spelled⟩
        · rw [closes]
          exact .inl trivial
        · rw [stays]
          exact .inr ⟨front, inner ++ [c], by simp [split], outside, reads.append (.one stays),
            more, spelled⟩

/-- What has been typed of a start tag's name, newest character first. -/
def Mode.typedName? : Mode → Option (List Char)
  | .opened => some []
  | .startName typed => some typed
  | _ => none

/-- What has been typed of a start tag's name stands right after its bracket. -/
def Mode.NameTyped (cs : List Char) (mode : Mode) : Prop :=
  ∀ typed ∈ mode.typedName?, ∃ front, cs = front ++ '<' :: typed.reverse ∧
    (modeAfter .fresh front).Outside ∧ Reads .opened typed.reverse [] mode

theorem nameTyped_modeAfter (cs : List Char) : (modeAfter .fresh cs).NameTyped cs := by
  intro typed named
  rcases outside_or_began cs with outside | ⟨front, inner, split, outside, reads, -, spells⟩
  · cases mode : modeAfter .fresh cs with
    | opened => exact (mode ▸ outside : Mode.opened.Outside).elim
    | startName newest => exact (mode ▸ outside : (Mode.startName newest).Outside).elim
    | _ => simp [mode, Mode.typedName?] at named
  · have same : inner = typed.reverse := by
      cases mode : modeAfter .fresh cs with
      | opened =>
          rw [mode] at named spells
          cases named
          exact spells
      | startName newest =>
          rw [mode] at named spells
          cases named
          exact spells
      | _ => simp [mode, Mode.typedName?] at named
    rw [same] at split reads
    exact ⟨front, split, outside, reads⟩

theorem map_event_closedFrom (mode : Mode) (offset : Nat) (cs : List Char) :
    (closedFrom mode offset cs).map Token.event = closedEvents mode cs := by
  induction cs generalizing mode offset with
  | nil => rfl
  | cons c cs ih =>
      rw [closedFrom, closedEvents_cons]
      rcases mode.read c with ⟨_ | event, next⟩
      · exact ih next _
      · exact congrArg (event :: ·) (ih next _)

theorem closedFrom_eq_nil {mode : Mode} {cs : List Char} (closes : closedEvents mode cs = [])
    (offset : Nat) : closedFrom mode offset cs = [] := by
  rw [← map_event_closedFrom mode offset cs] at closes
  exact List.map_eq_nil_iff.mp closes

theorem caret_of_mem_closedFrom {token : Token} {mode : Mode} {offset : Nat} {cs : List Char}
    (closed : token ∈ closedFrom mode offset cs) : token.caret = .inText := by
  induction cs generalizing mode offset with
  | nil => cases closed
  | cons c cs ih =>
      rw [closedFrom] at closed
      rcases step : mode.read c with ⟨_ | event, next⟩
      · rw [step] at closed
        exact ih closed
      · rw [step] at closed
        rcases List.mem_cons.mp closed with rfl | later
        · rfl
        · exact ih later

/-- The events of a text are those that closed, then the unfinished one. -/
theorem events_eq (text : String) :
    events text =
      closedEvents .fresh text.toList ++ (modeAfter .fresh text.toList).pending?.toList := by
  rw [events, tokens, tokensFrom_eq_closedFrom_append, List.map_append, map_event_closedFrom,
    pendingToken]
  cases (modeAfter .fresh text.toList).pending? <;> rfl

/-- The name of a start tag is being typed at the end of the text, and this much of it
is there. -/
def TypesName (text typed : String) : Prop :=
  caretOf text = .inStartName ∧ (events text).getLast? = some (.startTag { name := typed })

instance (text typed : String) : Decidable (TypesName text typed) :=
  inferInstanceAs (Decidable (_ ∧ _))

/-- An unfinished event is the last one. -/
theorem getLast?_events {text : String} {event : Event}
    (pending : (modeAfter .fresh text.toList).pending? = some event) :
    (events text).getLast? = some event := by
  rw [events_eq, pending]
  simp

/-- A name being typed after a bracket is read from that bracket on, and what stands
before the bracket ends outside of markup. -/
theorem TypesName.reads {before typed : String}
    (typing : TypesName (before ++ "<" ++ typed) typed) :
    (modeAfter .fresh before.toList).Outside ∧
      ∃ mode, Reads .opened typed.toList [] mode ∧
        mode.pending? = some (.startTag { name := typed }) ∧ mode.caret = .inStartName := by
  obtain ⟨inName, last⟩ := typing
  have begun := nameTyped_modeAfter (before ++ "<" ++ typed).toList
  rw [caretOf] at inName
  generalize after : modeAfter .fresh (before ++ "<" ++ typed).toList = mode at inName begun
  -- the mode holds exactly what has been typed of the name
  have held : ∃ newest, mode.typedName? = some newest ∧
      mode.pending? = some (.startTag { name := spell newest }) := by
    cases mode with
    | opened => exact ⟨[], rfl, rfl⟩
    | startName newest => exact ⟨newest, rfl, rfl⟩
    | _ => cases inName
  obtain ⟨newest, named, pending⟩ := held
  obtain ⟨front, split, outside, reads⟩ := begun newest named
  have same : spell newest = typed := by
    have unfinished := (getLast?_events (by rw [after]; exact pending)).symm.trans last
    simpa using unfinished
  have spelled : newest.reverse = typed.toList := by rw [← same, spell, String.toList_ofList]
  rw [spelled] at split reads
  have whole : before.toList ++ '<' :: typed.toList = front ++ '<' :: typed.toList := by
    rw [← split]
    simp
  refine ⟨?_, mode, reads, by rw [pending, same], inName⟩
  rw [List.append_cancel_right whole]
  exact outside

end ContentAssist.Markup
