/-
# ContentAssist.Proofs.Caret -- the caret accounts for the last event

Reading gives events one after the other and says after each where the typing stands.  That
place is all an editor learns about an event that is still being typed, so it has to fit the
event and the text: which kind of event it is, how far it goes, what is known of the attribute
that is being typed.

`Token.Faithful` says this in full.  The lexer collects a name, a value and the attributes of a
tag over many characters, and what it has collected means something else in every mode;
`Mode.Sound` says what, one case for each mode.  Every character keeps it (`sound_read`), so it
holds wherever the reading stops (`sound_modeAfter`), and what closes on the way is settled
(`settled_of_mem_closedEvents`).

The last token ends where the text ends (`endOf_tokens`), so an unfinished token begins at its
own bracket (`endOf_closedFrom`).
-/
import ContentAssist.Proofs.Fragment
import ContentAssist.Proofs.Seam

namespace ContentAssist.Markup

set_option autoImplicit false

/-! ## What an event says, and where the typing stands -/

/-- The caret is in a start tag that is not closed. -/
def Caret.inTag : Caret → Bool
  | .inStartName => true
  | .awaitingAttribute _ => true
  | .inAttributeName => true
  | .afterEquals => true
  | .inAttributeValue _ => true
  | _ => false

/-- The caret is in an attribute. -/
def Caret.inAttribute : Caret → Bool
  | .inAttributeName => true
  | .afterEquals => true
  | .inAttributeValue _ => true
  | _ => false

/-- A start tag that begins at a byte of the text is what the caret says of it. -/
structure StartTag.Faithful (text : String) (start : Nat) (caret : Caret) (tag : StartTag) :
    Prop where
  /-- A name that is being typed is all that follows the bracket. -/
  name : caret = .inStartName →
    (∃ front : String, text = front ++ "<" ++ tag.name ∧
      Text.byteLength front.toList = start) ∧ Plain tag.name ∧ tag.attributes = {}
  current : tag.current.isSome = true ↔ caret.inAttribute = true
  /-- The name of an attribute that is being typed is the end of the text. -/
  attributeName : caret = .inAttributeName →
    ∃ name, tag.current = some name ∧ name ≠ "" ∧ Plain name ∧
      ∃ front : String, text = front ++ name
  equals : caret = .afterEquals →
    ∃ name, tag.current = some name ∧ tag.attributes.get? name = some .pending
  /-- A value that is being typed is the end of the text, from its quote on. -/
  value : ∀ quote, caret = .inAttributeValue quote →
    ∃ name value, tag.current = some name ∧ tag.attributes.get? name = some (.value value) ∧
      quote.char ∉ value.toList ∧
      ∃ front : String, text = front ++ String.singleton quote.char ++ value
  /-- Every attribute has a value, but for the one whose equals sign came last. -/
  valued : ∀ entry ∈ tag.attributes.entries,
    (caret = .afterEquals ∧ tag.current = some entry.1) ∨ ∃ value, entry.2 = .value value
  distinct : tag.attributes.keys.Nodup

/-- A token that begins at a byte of the text is what its caret says. -/
structure Token.Faithful (text : String) (start : Nat) (token : Token) : Prop where
  /-- Where more of the text is left to read, the token is closed or is text. -/
  remains : token.stop < Text.byteLength text.toList → token.caret = .inText
  instruction : token.caret = .inInstruction → token.event = .instruction
  endTag : token.caret = .inEndTag → ∃ name, token.event = .endTag name
  startTag : token.caret.inTag = true →
    ∃ tag, token.event = .startTag tag ∧ tag.selfClosing = false
  tag : ∀ tag, token.event = .startTag tag → tag.Faithful text start token.caret

/-! ## What a mode has collected -/

/-- The names are distinct, and each has a value. -/
structure Attributes.Settled (attributes : Attributes) : Prop where
  distinct : attributes.keys.Nodup
  valued : ∀ entry ∈ attributes.entries, ∃ value, entry.2 = .value value

theorem Attributes.settled_empty : Attributes.Settled {} :=
  ⟨List.nodup_nil, fun _ listed => by cases listed⟩

theorem Attributes.Settled.insert {attributes : Attributes} (settled : attributes.Settled)
    (name value : String) : (attributes.insert name (.value value)).Settled := by
  refine ⟨nodup_keys_insert settled.distinct _ _, fun entry listed => ?_⟩
  rcases mem_entries_insert listed with rfl | older
  · exact ⟨value, rfl⟩
  · exact settled.valued entry older

/-- What a mode has collected is what it is taken for. -/
def Mode.Sound : Mode → Prop
  | .startName typed => Plain (spell typed)
  | .between tag _ => tag.attributes.Settled
  | .attributeName tag typed => tag.attributes.Settled ∧ typed ≠ [] ∧ Plain (spell typed)
  | .equals tag _ _ => tag.attributes.Settled
  | .value tag _ quote typed => tag.attributes.Settled ∧ quote.char ∉ typed
  | _ => True

/-- A start tag that has closed: no attribute is being typed any more. -/
def Event.Settled : Event → Prop
  | .startTag tag => tag.attributes.Settled ∧ tag.current = none
  | _ => True

/-- A step leaves a sound mode and closes a settled event. -/
structure Step.Sound (step : Step) : Prop where
  mode : step.mode.Sound
  closed : ∀ event ∈ step.closed, event.Settled

theorem Step.sound_stay {mode : Mode} (sound : mode.Sound) : (Step.stay mode).Sound :=
  ⟨sound, fun _ nothing => by cases nothing⟩

theorem Step.sound_finish {event : Event} (settled : event.Settled) :
    (Step.finish event).Sound := by
  refine ⟨trivial, ?_⟩
  rintro _ ⟨⟩
  exact settled

theorem settled_close {tag : OpenTag} (settled : tag.attributes.Settled) (last : Char) :
    (tag.close last).Settled :=
  ⟨settled, rfl⟩

theorem settled_closeStartName (typed : List Char) : (closeStartName typed).Settled := by
  unfold closeStartName
  split
  · exact ⟨Attributes.settled_empty, rfl⟩
  · exact ⟨Attributes.settled_empty, rfl⟩

theorem plain_nil : Plain (spell []) := by
  intro c listed
  simp [spell] at listed

theorem sound_readStartName {typed : List Char} (plain : Plain (spell typed)) (c : Char) :
    (readStartName typed c).Sound := by
  unfold readStartName
  split
  · exact Step.sound_finish (settled_closeStartName typed)
  · rename_i bracket
    split
    · exact Step.sound_stay Attributes.settled_empty
    · rename_i space
      exact Step.sound_stay (plain_spell_cons plain (by simpa using space) bracket)

theorem sound_readEndName (typed : List Char) (c : Char) : (readEndName typed c).Sound := by
  unfold readEndName
  split
  · exact Step.sound_finish trivial
  · split <;> exact Step.sound_stay trivial

theorem sound_readContent (c : Char) : (readContent c).Sound := by
  unfold readContent
  split <;> exact Step.sound_stay trivial

/-- **Every character keeps what has been collected sound.** -/
theorem sound_read {mode : Mode} (sound : mode.Sound) (c : Char) : (mode.read c).Sound := by
  cases mode with
  | fresh => exact sound_readContent c
  | content => exact sound_readContent c
  | text typed =>
      simp only [Mode.read]
      split
      · refine ⟨trivial, ?_⟩
        rintro _ ⟨⟩
        trivial
      · exact Step.sound_stay trivial
  | opened =>
      simp only [Mode.read]
      split
      · exact Step.sound_stay trivial
      · split
        · exact Step.sound_stay trivial
        · exact sound_readStartName plain_nil c
  | instruction asked =>
      simp only [Mode.read]
      split
      · exact Step.sound_finish trivial
      · exact Step.sound_stay trivial
  | endName typed => exact sound_readEndName typed c
  | endRest name =>
      simp only [Mode.read]
      split
      · exact Step.sound_finish trivial
      · exact Step.sound_stay trivial
  | startName typed => exact sound_readStartName sound c
  | between tag last =>
      simp only [Mode.read]
      split
      · exact Step.sound_finish (settled_close sound last)
      · rename_i bracket
        split
        · exact Step.sound_stay sound
        · -- the first character of a name is neither white space nor a slash
          rename_i other
          have space : Text.isSpace c = false := by
            simp only [Bool.or_eq_true, not_or] at other
            simpa using other.1
          exact Step.sound_stay
            ⟨sound, List.cons_ne_nil _ _, plain_spell_cons plain_nil space bracket⟩
  | attributeName tag typed =>
      obtain ⟨settled, -, plain⟩ := sound
      simp only [Mode.read]
      split
      · exact Step.sound_finish (settled_close settled _)
      · rename_i bracket
        split
        · exact Step.sound_stay settled
        · rename_i space
          split
          · exact Step.sound_stay settled
          · exact Step.sound_stay ⟨settled, List.cons_ne_nil _ _,
              plain_spell_cons plain (by simpa using space) bracket⟩
  | equals tag name last =>
      simp only [Mode.read]
      split
      · exact Step.sound_finish (settled_close sound last)
      · split
        · exact Step.sound_stay ⟨sound, List.not_mem_nil⟩
        · exact Step.sound_stay sound
  | value tag name quote typed =>
      obtain ⟨settled, unquoted⟩ := sound
      simp only [Mode.read]
      split
      · exact Step.sound_stay (settled.insert name (spell typed))
      · rename_i other
        refine Step.sound_stay ⟨settled, ?_⟩
        rw [List.mem_cons, not_or]
        exact ⟨Ne.symm other, unquoted⟩

theorem sound_fresh : Mode.fresh.Sound := trivial

theorem sound_modeAfter {mode : Mode} (sound : mode.Sound) (cs : List Char) :
    (modeAfter mode cs).Sound := by
  induction cs generalizing mode with
  | nil => exact sound
  | cons c cs ih => exact ih (sound_read sound c).mode

theorem settled_of_mem_closedEvents {mode : Mode} (sound : mode.Sound) {cs : List Char}
    {event : Event} (closed : event ∈ closedEvents mode cs) : event.Settled := by
  induction cs generalizing mode with
  | nil => cases closed
  | cons c cs ih =>
      have step := sound_read sound c
      rw [closedEvents_cons, List.mem_append, Option.mem_toList] at closed
      rcases closed with first | later
      · exact step.closed event first
      · exact ih step.mode later

/-! ## Where a token begins -/

/-- The byte that the tokens read so far end at. -/
def endOf (tokens : List Token) : Nat :=
  (tokens.getLast?.map Token.stop).getD 0

theorem endOf_append_singleton (front : List Token) (token : Token) :
    endOf (front ++ [token]) = token.stop := by
  simp [endOf]

/-- **The last token ends where the text ends.** -/
theorem endOf_tokens (text : String) : endOf (tokens text) = Text.byteLength text.toList := by
  rw [tokens]
  induction text.toList using List.reverseRecOn with
  | nil => rfl
  | append_singleton cs c _ =>
      rw [tokensFrom_append, Nat.zero_add, Text.byteLength_append, tokensFrom]
      generalize modeAfter .fresh cs = mode
      rcases isSome_pending?_or_finish mode c with pends | ⟨event, closes⟩
      · obtain ⟨unfinished, pending⟩ := Option.isSome_iff_exists.mp pends
        generalize mode.read c = read at pending
        obtain ⟨closed, next⟩ := read
        have rest (offset : Nat) :
            tokensFrom next offset [] = [⟨unfinished, next.caret, offset⟩] := by
          rw [tokensFrom, pendingToken, pending]
        cases closed with
        | none =>
            simp only [rest, endOf_append_singleton]
            rfl
        | some event =>
            simp only [rest]
            rw [List.append_cons, endOf_append_singleton]
            rfl
      · -- text ends before the bracket that closes it, and so never closes as the last thing
        have markup : ∀ content, event ≠ .text content := by
          rintro content rfl
          exact read_ne_finish_text mode c content closes
        rw [closes]
        have stops : stopOffset event (Text.byteLength cs) c.utf8Size =
            Text.byteLength cs + c.utf8Size := by
          cases event with
          | text content => exact absurd rfl (markup content)
          | _ => rfl
        show endOf (closedFrom .fresh 0 cs ++ [⟨event, .inText, _⟩]) = _
        rw [endOf_append_singleton, stops]
        simp

theorem closedFrom_append (mode : Mode) (offset : Nat) (cs ds : List Char) :
    closedFrom mode offset (cs ++ ds) = closedFrom mode offset cs ++
      closedFrom (modeAfter mode cs) (offset + Text.byteLength cs) ds := by
  induction cs generalizing mode offset with
  | nil => rfl
  | cons c cs ih =>
      simp only [List.cons_append, closedFrom, modeAfter_cons, Text.byteLength_cons]
      rcases mode.read c with ⟨_ | event, next⟩
      · simp only [ih, Nat.add_assoc]
      · simp only [ih, Nat.add_assoc, List.cons_append]

/-- What has closed before unfinished markup ends at its bracket. -/
theorem endOf_closedFrom {front inner : List Char} (outside : (modeAfter .fresh front).Outside)
    {mode : Mode} (reads : Reads .opened inner [] mode) :
    endOf (closedFrom .fresh 0 (front ++ '<' :: inner)) = Text.byteLength front := by
  -- the bracket closes the text before it and nothing else
  have closed : closedFrom .fresh 0 (front ++ '<' :: inner) = tokens (String.ofList front) := by
    have bracket : closedFrom (modeAfter .fresh front) (Text.byteLength front) ('<' :: inner) =
        pendingToken (modeAfter .fresh front) (Text.byteLength front) := by
      have nothing := closedFrom_eq_nil reads.closes
      generalize modeAfter .fresh front = before at outside
      cases before with
      | fresh => exact nothing _
      | content => exact nothing _
      | text typed => exact congrArg (_ :: ·) (nothing _)
      | _ => exact outside.elim
    rw [closedFrom_append, Nat.zero_add, bracket, tokens_eq_closedFrom_append,
      String.toList_ofList]
  rw [closed, endOf_tokens, String.toList_ofList]

/-! ## Unfinished start tags -/

/-- What a mode has collected at the end of a text stands at the end of the text. -/
theorem exists_front_fragment (text : String) :
    ∃ front : String, text = front ++ fragmentOf text ∧
      (modeAfter .fresh text.toList).Follows front.toList.getLast? := by
  obtain ⟨front, whole, -, follows⟩ := exists_stands text.toList
  refine ⟨String.ofList front, ?_, by rwa [String.toList_ofList]⟩
  apply String.toList_injective
  rw [String.toList_append, String.toList_ofList, fragmentOf, spell, String.toList_ofList]
  exact whole

/-- A name that is being typed stands right after the bracket that the token begins with. -/
theorem exists_front_name {text : String} {typed : List Char}
    (typing : (modeAfter .fresh text.toList).typedName? = some typed) :
    ∃ front : String, text = front ++ "<" ++ spell typed ∧
      Text.byteLength front.toList = endOf (closedFrom .fresh 0 text.toList) := by
  obtain ⟨front, split, outside, reads⟩ := nameTyped_modeAfter text.toList typed typing
  refine ⟨String.ofList front, ?_, ?_⟩
  · apply String.toList_injective
    simp [split, spell]
  · rw [String.toList_ofList, split, endOf_closedFrom outside reads]

theorem faithful_name {text : String} {typed : List Char}
    (typing : (modeAfter .fresh text.toList).typedName? = some typed)
    (plain : Plain (spell typed)) :
    StartTag.Faithful text (endOf (closedFrom .fresh 0 text.toList)) .inStartName
      { name := spell typed } where
  name _ := ⟨exists_front_name typing, plain, rfl⟩
  current := by simp [Caret.inAttribute]
  attributeName := nofun
  equals := nofun
  value := nofun
  valued := nofun
  distinct := List.nodup_nil

/-- Between attributes, or once the tag has closed, every attribute has a value. -/
theorem faithful_settled {tag : StartTag} (settled : tag.attributes.Settled)
    (nothing : tag.current = none) {caret : Caret} (named : caret ≠ .inStartName)
    (elsewhere : caret.inAttribute = false) (text : String) (start : Nat) :
    tag.Faithful text start caret where
  name typing := absurd typing named
  current := by simp [nothing, elsewhere]
  attributeName typing := by simp [typing, Caret.inAttribute] at elsewhere
  equals typing := by simp [typing, Caret.inAttribute] at elsewhere
  value quote typing := by simp [typing, Caret.inAttribute] at elsewhere
  valued entry listed := .inr (settled.valued entry listed)
  distinct := settled.distinct

theorem faithful_attributeName {text : String} {tag : OpenTag} {typed : List Char}
    (mode : modeAfter .fresh text.toList = .attributeName tag typed)
    (sound : (Mode.attributeName tag typed).Sound) (start : Nat) :
    StartTag.Faithful text start .inAttributeName
      { name := tag.name, attributes := tag.attributes, current := some (spell typed) } := by
  obtain ⟨settled, nonempty, plain⟩ := sound
  obtain ⟨front, whole, -⟩ := exists_front_fragment text
  rw [fragmentOf, mode] at whole
  have named : spell typed ≠ "" := by simpa [spell] using nonempty
  exact
    { name := by simp
      current := by simp [Caret.inAttribute]
      attributeName := fun _ => ⟨_, rfl, named, plain, front, whole⟩
      equals := by simp
      value := by simp
      valued := fun entry listed => .inr (settled.valued entry listed)
      distinct := settled.distinct }

theorem faithful_equals {tag : OpenTag} (settled : tag.attributes.Settled) (name : String)
    (text : String) (start : Nat) :
    StartTag.Faithful text start .afterEquals
      { name := tag.name
        attributes := tag.attributes.insert name .pending
        current := some name } where
  name := by simp
  current := by simp [Caret.inAttribute]
  attributeName := by simp
  equals _ := ⟨name, rfl, Attributes.get?_insert_self _ _ _⟩
  value := by simp
  valued entry listed := by
    rcases Attributes.mem_entries_insert listed with rfl | older
    · exact .inl ⟨rfl, rfl⟩
    · exact .inr (settled.valued entry older)
  distinct := Attributes.nodup_keys_insert settled.distinct _ _

theorem faithful_value {text : String} {tag : OpenTag} {name : String} {quote : Quote}
    {typed : List Char} (mode : modeAfter .fresh text.toList = .value tag name quote typed)
    (sound : (Mode.value tag name quote typed).Sound) (start : Nat) :
    StartTag.Faithful text start (.inAttributeValue quote)
      { name := tag.name
        attributes := tag.attributes.insert name (.value (spell typed))
        current := some name } := by
  obtain ⟨settled, unquoted⟩ := sound
  obtain ⟨front, whole, follows⟩ := exists_front_fragment text
  rw [fragmentOf, mode] at whole
  rw [mode] at follows
  -- the character before the value is its quote
  obtain ⟨before, split⟩ := List.getLast?_eq_some_iff.mp follows
  have quoted : text = String.ofList before ++ String.singleton quote.char ++ spell typed := by
    rw [whole]
    apply String.toList_injective
    simp [split, Mode.fragment]
  have settledNow := settled.insert name (spell typed)
  have free : quote.char ∉ (spell typed).toList := by simpa [spell] using unquoted
  exact
    { name := by simp
      current := by simp [Caret.inAttribute]
      attributeName := by simp
      equals := by simp
      value := by
        rintro _ ⟨⟩
        exact ⟨name, spell typed, rfl, Attributes.get?_insert_self _ _ _, free,
          String.ofList before, quoted⟩
      valued := fun entry listed => .inr (settledNow.valued entry listed)
      distinct := settledNow.distinct }

/-! ## Tokens -/

/-- A token that has closed. -/
theorem faithful_of_closed {text : String} {token : Token}
    (closed : token ∈ closedFrom .fresh 0 text.toList) (start : Nat) :
    token.Faithful text start := by
  have inText := caret_of_mem_closedFrom closed
  have settled : token.event.Settled := by
    apply settled_of_mem_closedEvents sound_fresh
    rw [← map_event_closedFrom .fresh 0 text.toList]
    exact List.mem_map_of_mem closed
  refine ⟨fun _ => inText, ?_, ?_, ?_, ?_⟩
  · simp [inText]
  · simp [inText]
  · simp [inText, Caret.inTag]
  · intro tag event
    rw [event] at settled
    rw [inText]
    exact faithful_settled settled.1 settled.2 (by simp) rfl text start

/-- An unfinished start tag goes to the end of the text. -/
theorem faithful_startTag {text : String} {start : Nat} {caret : Caret} {tag : StartTag}
    (inTag : caret.inTag = true) (unclosed : tag.selfClosing = false)
    (faithful : tag.Faithful text start caret) :
    Token.Faithful text start ⟨.startTag tag, caret, Text.byteLength text.toList⟩ where
  remains less := absurd less (Nat.lt_irrefl _)
  instruction typing := by
    subst typing
    cases inTag
  endTag typing := by
    subst typing
    cases inTag
  startTag _ := ⟨tag, rfl, unclosed⟩
  tag := by
    rintro _ ⟨⟩
    exact faithful

/-- An unfinished event that is no start tag. -/
theorem faithful_untagged {text : String} {start : Nat} {event : Event} {caret : Caret}
    (untagged : caret.inTag = false) (other : ∀ tag, event ≠ .startTag tag)
    (instruction : caret = .inInstruction → event = .instruction)
    (endTag : caret = .inEndTag → ∃ name, event = .endTag name) :
    Token.Faithful text start ⟨event, caret, Text.byteLength text.toList⟩ where
  remains less := absurd less (Nat.lt_irrefl _)
  instruction := instruction
  endTag := endTag
  startTag typing := by
    rw [untagged] at typing
    cases typing
  tag tag same := absurd same (other tag)

/-- The token that is unfinished at the end of a text. -/
theorem faithful_pending {text : String} {event : Event}
    (pending : (modeAfter .fresh text.toList).pending? = some event) :
    Token.Faithful text (endOf (closedFrom .fresh 0 text.toList))
      ⟨event, (modeAfter .fresh text.toList).caret, Text.byteLength text.toList⟩ := by
  have sound := sound_modeAfter sound_fresh text.toList
  cases mode : modeAfter .fresh text.toList with
  | fresh => simp [mode, Mode.pending?] at pending
  | content => simp [mode, Mode.pending?] at pending
  | text typed =>
      rw [mode] at pending
      cases pending
      exact faithful_untagged rfl (by simp) (by simp [Mode.caret]) (by simp [Mode.caret])
  | instruction asked =>
      rw [mode] at pending
      cases pending
      exact faithful_untagged rfl (by simp) (by simp [Mode.caret]) (by simp [Mode.caret])
  | endName typed =>
      rw [mode] at pending
      cases pending
      exact faithful_untagged rfl (by simp) (by simp [Mode.caret]) (by simp [Mode.caret])
  | endRest name =>
      rw [mode] at pending
      cases pending
      exact faithful_untagged rfl (by simp) (by simp [Mode.caret]) (by simp [Mode.caret])
  | opened =>
      have typing : (modeAfter .fresh text.toList).typedName? = some [] := by rw [mode]; rfl
      rw [mode] at pending
      cases pending
      exact faithful_startTag rfl rfl (faithful_name typing plain_nil)
  | startName typed =>
      have typing : (modeAfter .fresh text.toList).typedName? = some typed := by rw [mode]; rfl
      rw [mode] at pending sound
      cases pending
      exact faithful_startTag rfl rfl (faithful_name typing sound)
  | between tag last =>
      rw [mode] at pending sound
      cases pending
      have settled : tag.attributes.Settled := sound
      exact faithful_startTag rfl rfl
        (faithful_settled settled rfl (by simp [Mode.caret]) rfl text _)
  | attributeName tag typed =>
      rw [mode] at pending sound
      cases pending
      exact faithful_startTag rfl rfl (faithful_attributeName mode sound _)
  | equals tag name last =>
      rw [mode] at pending sound
      cases pending
      exact faithful_startTag rfl rfl (faithful_equals sound name text _)
  | value tag name quote typed =>
      rw [mode] at pending sound
      cases pending
      exact faithful_startTag rfl rfl (faithful_value mode sound _)

/-- **The caret accounts for the last event.**  After every event that is read, if more of the
text is left, the typing stands in text.  It stands in an instruction, an end tag or a start
tag only where the event is one, and then a start tag has not closed itself.  A name that is
being typed is all that follows the bracket at which its tag begins, and there are no
attributes yet.  An attribute is current exactly where the typing stands in one: its name is
the end of the text and not empty; after the equals sign its value is pending; a value is the
end of the text from its quote on, and the quote does not occur in it.  Every other attribute
has a value, and the names are distinct. -/
theorem caret_accounts_for_event (text : String) (front back : List Token) (token : Token)
    (read : tokens text = front ++ token :: back) : token.Faithful text (endOf front) := by
  have parts := tokens_eq_closedFrom_append text
  cases pending : (modeAfter .fresh text.toList).pending? with
  | none =>
      rw [pendingToken, pending, List.append_nil] at parts
      apply faithful_of_closed
      rw [← parts, read]
      exact List.mem_append_right _ List.mem_cons_self
  | some event =>
      rw [pendingToken, pending, read] at parts
      -- the unfinished token is the last one
      rcases List.eq_nil_or_concat back with rfl | ⟨between, last, rfl⟩
      · obtain ⟨closed, same⟩ := List.append_inj' parts rfl
        rw [closed, List.singleton_inj.mp same]
        exact faithful_pending pending
      · apply faithful_of_closed
        have closed : front ++ token :: between = closedFrom .fresh 0 text.toList := by
          rw [List.concat_eq_append, ← List.cons_append, ← List.append_assoc] at parts
          exact (List.append_inj' parts rfl).1
        rw [← closed]
        exact List.mem_append_right _ List.mem_cons_self

/-- A value that holds brackets, in an attribute that is given again. -/
theorem caret_accounts_for_value :
    tokens "<a><b c='x' c=\"<y>" =
      [⟨.startTag { name := "a" }, .inText, 3⟩] ++
        ⟨.startTag
            { name := "b", attributes := ⟨[("c", .value "<y>")]⟩, current := some "c" },
          .inAttributeValue .double, 18⟩ :: [] ∧
    Token.Faithful "<a><b c='x' c=\"<y>" 3
      ⟨.startTag { name := "b", attributes := ⟨[("c", .value "<y>")]⟩, current := some "c" },
        .inAttributeValue .double, 18⟩ := by
  have read : tokens "<a><b c='x' c=\"<y>" =
      [⟨.startTag { name := "a" }, .inText, 3⟩] ++
        ⟨.startTag
            { name := "b", attributes := ⟨[("c", .value "<y>")]⟩, current := some "c" },
          .inAttributeValue .double, 18⟩ :: [] := by decide +kernel
  exact ⟨read, caret_accounts_for_event _ _ _ _ read⟩

end ContentAssist.Markup
