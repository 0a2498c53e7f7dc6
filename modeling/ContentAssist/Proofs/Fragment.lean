/-
# ContentAssist.Proofs.Fragment -- what has been typed before the caret

Every suggestion is meant to replace what has been typed so far of the name, the value or the
text at the caret, and a completion says how long that is.  The lexer collects those
characters in its mode (`Mode.fragment`); nothing else in the library looks at the end of the
text itself.

* `exists_stands`: the collected characters are the last ones of the text, and what stands
  before them is known: the bracket of a start tag, the quote of a value, the closing bracket
  before a text.  One character either goes on with them or begins anew (`read_fragment`).
* `suggest_of_isClean`: what is offered depends on the mode alone, apart from the replay
  (`Engine.offersIn`); a text that is not clean gets nothing (`suggest_of_not_isClean`).
* `suggestions_continue_fragment` puts the two together.
-/
import ContentAssist.Proofs.Closing
import ContentAssist.Proofs.PrefixClosed

namespace ContentAssist

set_option autoImplicit false

open Markup Schema Replay Completion

/-! ## What the mode has collected -/

namespace Markup

/-- What has been typed of the name, the value or the text at the caret, newest character
first. -/
def Mode.fragment : Mode → List Char
  | .text typed => typed
  | .startName typed => typed
  | .attributeName _ typed => typed
  | .value _ _ _ typed => typed
  | _ => []

/-- What has been typed of the name, the value or the text at the end of a text. -/
def fragmentOf (text : String) : String :=
  spell (modeAfter .fresh text.toList).fragment

/-- The character that stands before the fragment, where a mode knows it. -/
def Mode.Follows (before : Option Char) : Mode → Prop
  | .fresh => before = none
  | .content => before = some '>'
  | .text _ => before = none ∨ before = some '>'
  | .opened => before = some '<'
  | .startName _ => before = some '<'
  | .value _ _ quote _ => before = some quote.char
  | _ => True

/-- The character is one more of the fragment, and closes nothing. -/
structure Mode.Extends (mode : Mode) (c : Char) (next : Mode) : Prop where
  fragment : next.fragment = c :: mode.fragment
  follows : ∀ before, mode.Follows before → next.Follows before

/-- The fragment begins after the character. -/
structure Mode.Begins (c : Char) (next : Mode) : Prop where
  fragment : next.fragment = []
  follows : next.Follows (some c)

theorem char_of_ofChar? {c : Char} {quote : Quote} (found : Quote.ofChar? c = some quote) :
    quote.char = c := by
  unfold Quote.ofChar? at found
  split at found
  · cases found
    exact Eq.symm ‹c = '"'›
  · split at found
    · cases found
      exact Eq.symm ‹c = '\''›
    · cases found

theorem begins_readEndName (typed : List Char) (c : Char) :
    Mode.Begins c (readEndName typed c).mode := by
  unfold readEndName
  split
  · exact ⟨rfl, congrArg some ‹c = '>'›⟩
  · split <;> exact ⟨rfl, trivial⟩

theorem fragment_readStartName (mode : Mode) {typed : List Char} (held : mode.fragment = typed)
    (opened : ∀ before, mode.Follows before → before = some '<') (c : Char) :
    ((readStartName typed c).closed = none ∧ mode.Extends c (readStartName typed c).mode) ∨
      Mode.Begins c (readStartName typed c).mode := by
  unfold readStartName
  split
  · exact .inr ⟨rfl, congrArg some ‹c = '>'›⟩
  · split
    · exact .inr ⟨rfl, trivial⟩
    · exact .inl ⟨rfl, congrArg (c :: ·) held.symm, opened⟩

/-- **One character goes on with the fragment, or begins a new one.** -/
theorem read_fragment (mode : Mode) (c : Char) :
    ((mode.read c).closed = none ∧ mode.Extends c (mode.read c).mode) ∨
      Mode.Begins c (mode.read c).mode := by
  cases mode with
  | fresh =>
      simp only [Mode.read, readContent]
      split
      · exact .inr ⟨rfl, congrArg some ‹c = '<'›⟩
      · exact .inl ⟨rfl, rfl, fun _ => .inl⟩
  | content =>
      simp only [Mode.read, readContent]
      split
      · exact .inr ⟨rfl, congrArg some ‹c = '<'›⟩
      · exact .inl ⟨rfl, rfl, fun _ => .inr⟩
  | text typed =>
      simp only [Mode.read]
      split
      · exact .inr ⟨rfl, congrArg some ‹c = '<'›⟩
      · exact .inl ⟨rfl, rfl, fun _ => id⟩
  | opened =>
      simp only [Mode.read]
      split
      · exact .inr ⟨rfl, trivial⟩
      · split
        · exact .inr ⟨rfl, trivial⟩
        · exact fragment_readStartName .opened rfl (fun _ => id) c
  | instruction asked =>
      simp only [Mode.read]
      split
      · rename_i closes
        have bracket : c = '>' := by simpa using (Bool.and_eq_true_iff.mp closes).2
        exact .inr ⟨rfl, congrArg some bracket⟩
      · exact .inr ⟨rfl, trivial⟩
  | endName typed => exact .inr (begins_readEndName typed c)
  | endRest name =>
      simp only [Mode.read]
      split
      · exact .inr ⟨rfl, congrArg some ‹c = '>'›⟩
      · exact .inr ⟨rfl, trivial⟩
  | startName typed => exact fragment_readStartName (.startName typed) rfl (fun _ => id) c
  | between tag last =>
      simp only [Mode.read]
      split
      · exact .inr ⟨rfl, congrArg some ‹c = '>'›⟩
      · split
        · exact .inr ⟨rfl, trivial⟩
        · exact .inl ⟨rfl, rfl, fun _ _ => trivial⟩
  | attributeName tag typed =>
      simp only [Mode.read]
      split
      · exact .inr ⟨rfl, congrArg some ‹c = '>'›⟩
      · split
        · exact .inr ⟨rfl, trivial⟩
        · split
          · exact .inr ⟨rfl, trivial⟩
          · exact .inl ⟨rfl, rfl, fun _ _ => trivial⟩
  | equals tag name last =>
      simp only [Mode.read]
      split
      · exact .inr ⟨rfl, congrArg some ‹c = '>'›⟩
      · split
        · rename_i quote found
          exact .inr ⟨rfl, congrArg some (char_of_ofChar? found).symm⟩
        · exact .inr ⟨rfl, trivial⟩
  | value tag name quote typed =>
      simp only [Mode.read]
      split
      · exact .inr ⟨rfl, trivial⟩
      · exact .inl ⟨rfl, rfl, fun _ => id⟩

/-- After `front` nothing has been read but the fragment. -/
structure Mode.Stands (mode : Mode) (cs front : List Char) : Prop where
  whole : cs = front ++ mode.fragment.reverse
  closed : closedEvents .fresh front = closedEvents .fresh cs
  follows : mode.Follows front.getLast?

/-- **The fragment is the end of the text.** -/
theorem exists_stands (cs : List Char) : ∃ front, (modeAfter .fresh cs).Stands cs front := by
  induction cs using List.reverseRecOn with
  | nil => exact ⟨[], rfl, rfl, rfl⟩
  | append_singleton cs c ih =>
      obtain ⟨front, whole, closed, follows⟩ := ih
      rw [modeAfter_append, modeAfter_cons, modeAfter_nil]
      rcases read_fragment (modeAfter .fresh cs) c with ⟨quiet, goesOn⟩ | begins
      · refine ⟨front, ?_, ?_, goesOn.follows _ follows⟩
        · rw [goesOn.fragment, List.reverse_cons, ← List.append_assoc, ← whole]
        · rw [closed, closedEvents_append, closedEvents_cons, quiet]
          simp
      · refine ⟨cs ++ [c], ?_, rfl, ?_⟩
        · rw [begins.fragment, List.reverse_nil, List.append_nil]
        · rw [List.getLast?_concat]
          exact begins.follows

/-- The two modes in which a start tag's name is being typed. -/
theorem typedName?_cases {mode : Mode} {typed : List Char}
    (typing : mode.typedName? = some typed) :
    (mode = .opened ∧ typed = []) ∨ mode = .startName typed := by
  cases mode with
  | opened =>
      cases typing
      exact .inl ⟨rfl, rfl⟩
  | startName typed =>
      cases typing
      exact .inr rfl
  | _ => cases typing

/-- More of a name; right after the bracket it must not begin something else. -/
theorem reads_moreName {mode : Mode} {typed : List Char} (typing : mode.typedName? = some typed)
    {cs : List Char} (nonempty : cs ≠ []) (plain : ∀ c ∈ cs, Text.isSpace c = false ∧ c ≠ '>')
    (begins : mode = .opened → ∀ c ∈ cs.head?, c ≠ '?' ∧ c ≠ '/') :
    Reads mode cs [] (.startName (cs.reverse ++ typed)) := by
  have collects : ∀ cs : List Char, (∀ c ∈ cs, Text.isSpace c = false ∧ c ≠ '>') →
      ∀ typed, Reads (.startName typed) cs [] (.startName (cs.reverse ++ typed)) := by
    intro cs plain typed
    apply Reads.collect .startName
    exact fun c listed _ => read_startName (plain c listed).1 (plain c listed).2
  rcases typedName?_cases typing with ⟨rfl, rfl⟩ | rfl
  · obtain ⟨c, cs, rfl⟩ := List.exists_cons_of_ne_nil nonempty
    obtain ⟨space, bracket⟩ := plain c List.mem_cons_self
    have first := begins rfl c rfl
    rw [List.reverse_cons, List.append_assoc]
    apply Reads.cons (.startName [c])
    · simp [Mode.read, readStartName, first, space, bracket]
    · exact collects cs (fun d later => plain d (List.mem_cons_of_mem c later)) [c]
  · exact collects cs plain typed

theorem closeStartName_ne_text (typed : List Char) (content : String) :
    closeStartName typed ≠ .text content := by
  unfold closeStartName
  split <;> simp

/-- An event that closes with its last character is markup. -/
theorem read_ne_finish_text (mode : Mode) (c : Char) (content : String) :
    mode.read c ≠ .finish (.text content) := by
  cases mode with
  | _ =>
      simp only [Mode.read, readContent, readStartName, readEndName]
      repeat' split
      all_goals simp [Step.stay, Step.finish, closeStartName_ne_text, OpenTag.close]

/-- Right after closed markup the last event is that markup. -/
theorem getLast?_events_of_content {text : String}
    (after : modeAfter .fresh text.toList = .content) (content : String) :
    (events text).getLast? ≠ some (.text content) := by
  rw [events_eq, after]
  show (closedEvents .fresh text.toList ++ []).getLast? ≠ _
  rw [List.append_nil]
  induction spelled : text.toList using List.reverseRecOn with
  | nil => simp
  | append_singleton cs c _ =>
      rw [spelled, modeAfter_append, modeAfter_cons, modeAfter_nil] at after
      rcases isSome_pending?_or_finish (modeAfter .fresh cs) c with pends | ⟨event, closes⟩
      · rw [after] at pends
        cases pends
      · have markup := read_ne_finish_text (modeAfter .fresh cs) c content
        rw [closes] at markup
        rw [closedEvents_append, closedEvents_cons, closes]
        simpa [Step.finish] using markup

/-- The lexer is fresh only before the first character. -/
theorem eq_nil_of_fresh {cs : List Char} (fresh : modeAfter .fresh cs = .fresh) : cs = [] := by
  obtain ⟨front, whole, -, follows⟩ := exists_stands cs
  rw [fresh] at whole follows
  have nothing : front = [] := List.getLast?_eq_none_iff.mp follows
  rw [whole, nothing]
  rfl

end Markup

/-! ## What is offered in a mode -/

/-- What is offered where a clean text leaves the lexer in some mode. -/
def Engine.offersIn (engine : Engine) (replay : Replay) : Mode → Completion
  | .fresh => {}
  | .content =>
      match replay.last with
      | some (.startTag _) => textOffers engine.schema engine.hooks replay ""
      | _ => {}
  | .text typed => textOffers engine.schema engine.hooks replay (spell typed)
  | .opened => elementOffers engine.schema replay ""
  | .instruction _ => {}
  | .endName typed => endTagOffers engine.schema replay (spell typed)
  | .endRest name => endTagOffers engine.schema replay name
  | .startName typed => elementOffers engine.schema replay (spell typed)
  | .between tag last =>
      if Text.isSpace last then
        attributeNameOffers engine.schema engine.options replay
          { name := tag.name, attributes := tag.attributes }
      else {}
  | .attributeName tag typed =>
      attributeNameOffers engine.schema engine.options replay
        { name := tag.name, attributes := tag.attributes, current := some (spell typed) }
  | .equals tag name _ =>
      attributeValueOffers engine.schema engine.hooks replay
        { name := tag.name
          attributes := tag.attributes.insert name .pending
          current := some name } none
  | .value tag name quote typed =>
      attributeValueOffers engine.schema engine.hooks replay
        { name := tag.name
          attributes := tag.attributes.insert name (.value (spell typed))
          current := some name } (some quote)

/-- A text that is not clean stays so, whatever is typed on. -/
theorem not_isClean_append {schema : Schema} {text : String} (unclean : ¬ IsClean schema text)
    (more : String) : ¬ IsClean schema (text ++ more) := by
  intro clean
  rw [isClean_iff_read, String.toList_append, Reading.read_append] at clean
  exact unclean ((isClean_iff_read schema text).mpr (isClean_of_read clean))

/-- A text that is not clean gets no offers. -/
theorem suggest_of_not_isClean {engine : Engine} {text : String}
    (unclean : ¬ IsClean engine.schema text) : engine.suggest text = {} := by
  unfold Engine.suggest ofReplay
  split
  · rfl
  · rename_i complete
    have complete : (ofText engine.schema text).isComplete = true := by simpa using complete
    split
    · rename_i typed found
      have typing := (typedEndTag?_eq_some found).2
      rw [(last_ofText complete).2] at typing
      exact absurd ⟨complete, .inr typing⟩ unclean
    · split
      · rename_i valid
        exact absurd ⟨complete, .inl valid⟩ unclean
      · rfl

theorem isClean_of_mem_suggest {engine : Engine} {text : String} {suggestion : Suggestion}
    (offered : suggestion ∈ (engine.suggest text).suggestions) :
    IsClean engine.schema text := by
  by_contra unclean
  rw [suggest_of_not_isClean unclean] at offered
  cases offered

theorem ofReplay_eq_validOffers {schema : Schema} {options : Options} {hooks : Hooks}
    {replay : Replay} (complete : replay.isComplete = true) (valid : replay.isValid = true)
    (elsewhere : replay.caret ≠ .inEndTag) :
    ofReplay schema options hooks replay = validOffers schema options hooks replay := by
  have nothing : typedEndTag? replay = none := by
    cases found : typedEndTag? replay with
    | none => rfl
    | some typed => exact absurd (typedEndTag?_eq_some found).2 elsewhere
  simp [ofReplay, complete, nothing, valid]

theorem ofReplay_eq_endTagOffers {schema : Schema} {options : Options} {hooks : Hooks}
    {replay : Replay} {typed : String} (complete : replay.isComplete = true)
    (last : replay.last = some (.endTag typed)) (caret : replay.caret = .inEndTag) :
    ofReplay schema options hooks replay = endTagOffers schema replay typed := by
  simp [ofReplay, complete, typedEndTag?, last, caret]

/-- **The mode decides which offers a clean text gets.** -/
theorem suggest_of_isClean {engine : Engine} {text : String}
    (clean : IsClean engine.schema text) :
    engine.suggest text =
      engine.offersIn (ofText engine.schema text) (modeAfter .fresh text.toList) := by
  obtain ⟨complete, valid⟩ := clean
  obtain ⟨last, caret⟩ := last_ofText complete
  rw [caretOf] at valid caret
  unfold Engine.suggest
  by_cases typing : (modeAfter .fresh text.toList).caret = .inEndTag
  · cases mode : modeAfter .fresh text.toList with
    | endName typed =>
        have pending := @getLast?_events text _ (by rw [mode]; rfl)
        exact ofReplay_eq_endTagOffers complete (last.trans pending) (caret.trans typing)
    | endRest name =>
        have pending := @getLast?_events text _ (by rw [mode]; rfl)
        exact ofReplay_eq_endTagOffers complete (last.trans pending) (caret.trans typing)
    | _ => simp [mode, Mode.caret] at typing
  · rw [ofReplay_eq_validOffers complete (valid.resolve_right typing) (caret ▸ typing)]
    cases mode : modeAfter .fresh text.toList with
    | fresh =>
        have nothing : (events text).getLast? = none := by
          rw [events_eq, mode, eq_nil_of_fresh mode]
          rfl
        rw [nothing] at last
        simp [validOffers, last, Engine.offersIn]
    | content =>
        have markup := getLast?_events_of_content mode
        rw [← last] at markup
        rw [mode] at caret
        unfold validOffers Engine.offersIn
        rw [caret]
        rcases found : (ofText engine.schema text).last with _ | event
        · rfl
        · cases event with
          | text content => exact absurd found (markup content)
          | _ => rfl
    | between tag before =>
        have pending := @getLast?_events text _ (by rw [mode]; rfl)
        rw [pending] at last
        rw [mode] at caret
        cases space : Text.isSpace before <;>
          simp [validOffers, last, caret, Mode.caret, Engine.offersIn, space]
    | endName typed => simp [mode, Mode.caret] at typing
    | endRest name => simp [mode, Mode.caret] at typing
    | _ =>
        have pending := @getLast?_events text _ (by rw [mode]; rfl)
        rw [pending] at last
        rw [mode] at caret
        simp [validOffers, last, caret, Mode.caret, Engine.offersIn]

/-! ## Offers go on from the fragment -/

namespace Completion

/-- The insertion goes on from a fragment that stands right after some character.  End tags
are left out: what they replace need not be the end of the text. -/
def Insertion.Continues (before : Option Char) (fragment : String) : Insertion → Prop
  | .element name _ _ => Text.startsWith name fragment = true ∧ before = some '<'
  | .endTag _ _ => True
  | .attributeName name => Text.startsWith name fragment = true
  | .attributeValue word withQuotes quote =>
      Text.startsWith word fragment = true ∧
        if withQuotes then fragment = "" else before = some quote.char
  | .value word => Text.startsWith word (Text.trim fragment) = true ∧ before = some '>'

variable {schema : Schema} {options : Options} {hooks : Hooks} {replay : Replay}
  {suggestion : Suggestion}

theorem mem_startTags {decls : List ElementDecl} {typed : String}
    (listed : suggestion ∈ startTags schema decls typed) :
    suggestion.insertion.Continues (some '<') typed := by
  obtain ⟨decl, declared, rfl⟩ := List.mem_map.mp listed
  have begins : Text.startsWith decl.name typed = true := (List.mem_filter.mp declared).2
  unfold Suggestion.element
  cases schema.complex? decl.type with
  | none => exact ⟨begins, rfl⟩
  | some type => exact ⟨begins, rfl⟩

theorem mem_elementOffers {typed : String}
    (listed : suggestion ∈ (elementOffers schema replay typed).suggestions) :
    (elementOffers schema replay typed).length = typed.length ∧
      suggestion.insertion.Continues (some '<') typed := by
  by_cases root : replay.lastIsRoot = true
  · simp only [elementOffers, root, if_true] at listed ⊢
    exact ⟨trivial, mem_startTags listed⟩
  · rw [Bool.not_eq_true] at root
    cases inside : replay.top? with
    | none => simp [elementOffers, root, inside] at listed
    | some top =>
        simp only [elementOffers, root, inside, Bool.false_eq_true, if_false,
          List.mem_append] at listed ⊢
        refine ⟨trivial, ?_⟩
        rcases listed with opening | closing
        · exact mem_startTags opening
        · obtain ⟨-, name, -, closes⟩ := mem_closingTag closing
          rw [closes]
          trivial

theorem mem_attributeNameOffers {tag : StartTag}
    (listed : suggestion ∈ (attributeNameOffers schema options replay tag).suggestions)
    (before : Option Char) :
    (attributeNameOffers schema options replay tag).length = (tag.current.getD "").length ∧
      suggestion.insertion.Continues before (tag.current.getD "") := by
  obtain ⟨name, inserts⟩ := insertion_of_mem_attributeNameOffers listed
  unfold attributeNameOffers at listed ⊢
  cases inside : replay.top? with
  | none => simp [inside] at listed
  | some top =>
      simp only [inside, List.mem_filter, Bool.and_eq_true, Suggestion.text, inserts] at listed ⊢
      exact ⟨trivial, listed.2.1⟩

theorem mem_attributeValueOffers {tag : StartTag} {quote : Option Quote}
    (listed : suggestion ∈ (attributeValueOffers schema hooks replay tag quote).suggestions)
    {typed : String} (held : (if quote.isSome then tag.currentValue?.getD "" else "") = typed)
    {before : Option Char} (quoted : ∀ mark ∈ quote, before = some mark.char) :
    (attributeValueOffers schema hooks replay tag quote).length = typed.length ∧
      suggestion.insertion.Continues before typed := by
  subst held
  unfold attributeValueOffers at listed ⊢
  cases inside : replay.top? with
  | none => simp [inside] at listed
  | some top =>
      simp only [inside] at listed ⊢
      obtain ⟨candidate, matched, rfl⟩ := List.mem_map.mp listed
      refine ⟨trivial, (List.mem_filter.mp matched).2, ?_⟩
      cases quote with
      | none => rfl
      | some mark => exact quoted mark rfl

theorem mem_textOffers {typed : String}
    (listed : suggestion ∈ (textOffers schema hooks replay typed).suggestions) :
    replay.stack ≠ [] ∧ (textOffers schema hooks replay typed).length = typed.length ∧
      suggestion.insertion.Continues (some '>') typed := by
  unfold textOffers at listed ⊢
  cases inside : replay.top? with
  | none => simp [inside] at listed
  | some top =>
      simp only [inside] at listed ⊢
      obtain ⟨candidate, matched, rfl⟩ := List.mem_map.mp listed
      refine ⟨?_, trivial, (List.mem_filter.mp matched).2, rfl⟩
      intro empty
      simp [top?, empty] at inside

theorem mem_endTagOffers {typed : String}
    (listed : suggestion ∈ (endTagOffers schema replay typed).suggestions) :
    (endTagOffers schema replay typed).length = typed.length ∧
      ∃ name, suggestion.insertion = .endTag name false := by
  unfold endTagOffers at listed ⊢
  split at listed
  · split at listed
    · rename_i decl found begins
      rw [List.mem_singleton.mp listed]
      exact ⟨by simp [begins], decl.name, rfl⟩
    · cases listed
  · cases listed

end Completion

/-- Text never opens or closes anything. -/
theorem Replay.stack_step_text (schema : Schema) (replay : Replay) (content : String)
    (caret : Caret) : (replay.step schema (.text content) caret).stack = replay.stack := by
  unfold step
  split
  · rfl
  · dsimp only
    split
    · rfl
    · split
      · rfl
      · unfold follow
        split <;> rfl

/-- The current attribute has the value that was recorded last. -/
theorem currentValue?_insert (tag : OpenTag) (name value : String) :
    StartTag.currentValue?
      { name := tag.name
        attributes := tag.attributes.insert name (.value value)
        current := some name } = some value := by
  simp [StartTag.currentValue?, Attributes.text?, AttributeValue.text?]

theorem spell_append (cs typed : List Char) :
    spell (cs.reverse ++ typed) = spell typed ++ String.ofList cs := by
  apply String.toList_injective
  simp [spell]

theorem length_spell (typed : List Char) : (spell typed).length = typed.length := by
  simp [spell, ← String.length_toList]

/-- Outside of end tags, what is offered in a mode goes on from its fragment. -/
theorem continues_of_mem_offersIn {engine : Engine} {replay : Replay} {mode : Mode}
    (elsewhere : mode.caret ≠ .inEndTag) {suggestion : Suggestion}
    (offered : suggestion ∈ (engine.offersIn replay mode).suggestions) {before : Option Char}
    (follows : mode.Follows before)
    (begun : ∀ typed, mode = .text typed → before = none → replay.stack = []) :
    (engine.offersIn replay mode).length = mode.fragment.length ∧
      suggestion.insertion.Continues before (spell mode.fragment) := by
  cases mode with
  | fresh => cases offered
  | content =>
      rcases last : replay.last with _ | event
      · simp [Engine.offersIn, last] at offered
      · cases event with
        | startTag tag =>
            simp only [Engine.offersIn, last] at offered ⊢
            obtain ⟨-, length, continues⟩ := mem_textOffers offered
            exact ⟨length, follows ▸ continues⟩
        | _ => simp [Engine.offersIn, last] at offered
  | text typed =>
      obtain ⟨inside, length, continues⟩ := mem_textOffers offered
      refine ⟨length.trans (length_spell typed), ?_⟩
      rcases follows with first | after
      · exact absurd (begun typed rfl first) inside
      · exact after ▸ continues
  | opened =>
      obtain ⟨length, continues⟩ := mem_elementOffers offered
      exact ⟨length, follows ▸ continues⟩
  | instruction asked => cases offered
  | endName typed => exact absurd rfl elsewhere
  | endRest name => exact absurd rfl elsewhere
  | startName typed =>
      obtain ⟨length, continues⟩ := mem_elementOffers offered
      exact ⟨length.trans (length_spell typed), follows ▸ continues⟩
  | between tag last =>
      cases space : Text.isSpace last with
      | false => simp [Engine.offersIn, space] at offered
      | true =>
          simp only [Engine.offersIn, space, if_true] at offered ⊢
          exact mem_attributeNameOffers offered before
  | attributeName tag typed =>
      obtain ⟨length, continues⟩ := mem_attributeNameOffers offered before
      exact ⟨length.trans (length_spell typed), continues⟩
  | equals tag name last =>
      exact mem_attributeValueOffers offered rfl (fun mark none => by cases none)
  | value tag name quote typed =>
      have quoted : ∀ mark ∈ some quote, before = some mark.char := by
        rintro mark ⟨⟩
        exact follows
      obtain ⟨length, continues⟩ :=
        mem_attributeValueOffers offered (by rw [currentValue?_insert]) quoted
      exact ⟨length.trans (length_spell typed), continues⟩

/-- Outside of end tags, the length of a completion is that of the fragment, and what is
offered goes on from it. -/
theorem continues_fragmentOf {engine : Engine} {text : String}
    (elsewhere : caretOf text ≠ .inEndTag) {suggestion : Suggestion}
    (offered : suggestion ∈ (engine.suggest text).suggestions) :
    (engine.suggest text).length = (fragmentOf text).length ∧
      ∃ front, text = front ++ fragmentOf text ∧
        suggestion.insertion.Continues front.toList.getLast? (fragmentOf text) := by
  have clean := isClean_of_mem_suggest offered
  obtain ⟨front, whole, closed, follows⟩ := exists_stands text.toList
  rw [suggest_of_isClean clean] at offered ⊢
  -- a text without markup before it opens nothing
  have begun : ∀ typed, modeAfter .fresh text.toList = .text typed → front.getLast? = none →
      (ofText engine.schema text).stack = [] := by
    intro typed inText first
    have nothing : front = [] := List.getLast?_eq_none_iff.mp first
    rw [nothing, closedEvents_nil] at closed
    rw [ofText_eq_settle, Reading.read, ← closed]
    simp only [inText, Reading.settle, Mode.pending?, runClosed_nil]
    exact stack_step_text engine.schema {} _ _
  obtain ⟨length, continues⟩ := continues_of_mem_offersIn elsewhere offered follows begun
  refine ⟨length.trans (length_spell _).symm, String.ofList front, ?_, ?_⟩
  · apply String.toList_injective
    rw [String.toList_append, fragmentOf, spell, String.toList_ofList, String.toList_ofList]
    exact whole
  · rw [String.toList_ofList]
    exact continues

/-- The last characters of a text, as many as it has at least. -/
theorem exists_last_characters {text : String} {count : Nat} (enough : count ≤ text.length) :
    ∃ front fragment : String, text = front ++ fragment ∧ fragment.length = count := by
  refine ⟨String.ofList (text.toList.take (text.length - count)),
    String.ofList (text.toList.drop (text.length - count)), ?_, ?_⟩
  · apply String.toList_injective
    simp
  · rw [← String.length_toList] at enough ⊢
    simp only [String.toList_ofList, List.length_drop, String.length_toList] at enough ⊢
    omega

/-- **Every suggestion goes on from what stands before the caret.**  The length of a completion
is that of a fragment at the end of the text.  The name of an element begins with it, and it
stands right after an opening bracket; the name of an attribute begins with it; the value of an
attribute begins with it, and it stands right after the quote of the suggestion, or it is empty
where the quotes are still to be put; the text of an element begins with it once it has been
trimmed, and it stands right after a closing bracket. -/
theorem suggestions_continue_fragment (engine : Engine) (text : String) (suggestion : Suggestion)
    (offered : suggestion ∈ (engine.suggest text).suggestions) :
    ∃ front fragment : String, text = front ++ fragment ∧
      fragment.length = (engine.suggest text).length ∧
      suggestion.insertion.Continues front.toList.getLast? fragment := by
  by_cases typing : caretOf text = .inEndTag
  · -- the name of an end tag may stand anywhere before the caret
    obtain ⟨before, typed, rest, typing⟩ := exists_typesEndTag typing
    have followed := (isClean_of_mem_suggest offered).1
    rw [typing.suggest_eq followed] at offered ⊢
    obtain ⟨length, name, closes⟩ := mem_endTagOffers offered
    have enough : typed.length ≤ text.length := by
      rw [typing.written]
      simp only [String.length_append]
      omega
    obtain ⟨front, fragment, split, count⟩ := exists_last_characters enough
    refine ⟨front, fragment, split, count.trans length.symm, ?_⟩
    rw [closes]
    trivial
  · obtain ⟨length, front, split, continues⟩ := continues_fragmentOf typing offered
    exact ⟨front, fragmentOf text, split, length.symm, continues⟩

/-- A parcel holds one word.  Freight has an attribute besides, the name of which begins like
the one that names a type. -/
def parcels : Schema where
  types :=
    [.complex { name := some "Parcel", content := .simple 2 },
      .complex { name := some "Freight", base := some 0, content := .simple 2, attributes := [0] },
      .simple { enumeration := [{ value := "groß" }, { value := "grün" }, { value := "klein" }] }]
  elements := [{ name := "parcel", type := 0 }]
  attributes := [{ name := "xsi:types", type := 2 }]
  globals := [0]

/-- An attribute that is given again, and a word among blanks. -/
theorem parcels_continue_fragment :
    (⟨.attributeValue "grün" false .single, {}⟩ : Suggestion) ∈
      ((Engine.mk parcels {} {}).suggest
        "<parcel xsi:type='Freight' xsi:types=\"klein\" xsi:types='gr").suggestions ∧
    (∃ front fragment : String,
      "<parcel xsi:type='Freight' xsi:types=\"klein\" xsi:types='gr" = front ++ fragment ∧
      fragment.length = ((Engine.mk parcels {} {}).suggest
        "<parcel xsi:type='Freight' xsi:types=\"klein\" xsi:types='gr").length ∧
      Text.startsWith "grün" fragment = true ∧ front.toList.getLast? = some '\'') ∧
    (⟨.value "groß", {}⟩ : Suggestion) ∈
      ((Engine.mk parcels {} {}).suggest "<parcel>\u00a0gro ").suggestions ∧
    ∃ front fragment : String, "<parcel>\u00a0gro " = front ++ fragment ∧
      fragment.length = ((Engine.mk parcels {} {}).suggest "<parcel>\u00a0gro ").length ∧
      Text.startsWith "groß" (Text.trim fragment) = true ∧ front.toList.getLast? = some '>' := by
  have quoted : (⟨.attributeValue "grün" false .single, {}⟩ : Suggestion) ∈
      ((Engine.mk parcels {} {}).suggest
        "<parcel xsi:type='Freight' xsi:types=\"klein\" xsi:types='gr").suggestions := by
    decide +kernel
  have written : (⟨.value "groß", {}⟩ : Suggestion) ∈
      ((Engine.mk parcels {} {}).suggest "<parcel>\u00a0gro ").suggestions := by
    decide +kernel
  exact ⟨quoted, suggestions_continue_fragment _ _ _ quoted, written,
    suggestions_continue_fragment _ _ _ written⟩

end ContentAssist
