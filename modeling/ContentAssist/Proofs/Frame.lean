/-
# ContentAssist.Proofs.Frame -- a child counts only by its name

Whatever stands in an element that has been closed again, its attributes, its text and its
descendants, the element around it has seen one child with a name.

* `framed_run`: while a run stays deeper than some open elements, it leaves them alone.
  The step is `framed_of_effect`; nothing that an event can do reaches below the innermost
  open element.
* `readName_of_mem_closedEvents`: a name that has been read can be written again, so an
  empty element of that name may stand for the child.
* `child_counts_by_name`: what follows goes on alike after the child and after the empty
  element.  The documents differ, so the replays are compared by their outlines.
-/
import ContentAssist.Proofs.Interlude
import ContentAssist.Proofs.Outline

namespace ContentAssist

set_option autoImplicit false

open Markup Schema Replay Completion

/-! ## Names that have been read -/

namespace Markup

/-- A name that a start tag may have: it ends before white space and brackets, and does not
begin like an instruction or an end tag. -/
structure ReadName (name : String) : Prop where
  plain : Plain name
  begins : ∀ c ∈ name.toList.head?, c ≠ '?' ∧ c ≠ '/'

/-- The name of the tag that a mode is in has been read. -/
def Mode.NameRead : Mode → Prop
  | .startName typed => typed ≠ [] ∧ ReadName (spell typed)
  | .between tag _ => ReadName tag.name
  | .attributeName tag _ => ReadName tag.name
  | .equals tag _ _ => ReadName tag.name
  | .value tag _ _ _ => ReadName tag.name
  | _ => True

theorem readName_empty : ReadName (spell []) where
  plain := by simp [Plain, spell]
  begins := by simp [spell]

theorem ReadName.of_cons {c : Char} {typed : List Char} (named : ReadName (spell (c :: typed))) :
    ReadName (spell typed) := by
  have written : (spell (c :: typed)).toList = (spell typed).toList ++ [c] := by simp [spell]
  obtain ⟨plain, begins⟩ := named
  rw [Plain, written] at plain
  rw [written] at begins
  constructor
  · exact fun d listed => plain d (List.mem_append_left _ listed)
  · intro d first
    apply begins d
    rw [List.head?_append_of_ne_nil _ (by rintro empty; simp [empty] at first)]
    exact first

theorem ReadName.cons {c : Char} {typed : List Char} (named : ReadName (spell typed))
    (first : typed = [] → c ≠ '?' ∧ c ≠ '/') (space : Text.isSpace c = false)
    (bracket : c ≠ '>') : ReadName (spell (c :: typed)) := by
  refine ⟨plain_spell_cons named.plain space bracket, ?_⟩
  have written : (spell (c :: typed)).toList = (spell typed).toList ++ [c] := by simp [spell]
  rw [written]
  intro d head
  by_cases empty : typed = []
  · obtain rfl : c = d := by simpa [empty, spell] using head
    exact first empty
  · rw [List.head?_append_of_ne_nil _ (by simpa [spell] using empty)] at head
    exact named.begins d head

theorem nameRead_readStartName {typed : List Char} {c : Char} (named : ReadName (spell typed))
    (first : typed = [] → c ≠ '?' ∧ c ≠ '/') :
    (readStartName typed c).mode.NameRead ∧
      ∀ tag, (readStartName typed c).closed = some (.startTag tag) → ReadName tag.name := by
  unfold readStartName
  split
  · refine ⟨trivial, fun tag closed => ?_⟩
    have closes : closeStartName typed = .startTag tag := Option.some.inj closed
    unfold closeStartName at closes
    split at closes
    · cases closes
      exact named.of_cons
    · cases closes
      exact named
  · rename_i bracket
    split
    · exact ⟨named, fun tag closed => by cases closed⟩
    · rename_i space
      exact ⟨⟨List.cons_ne_nil c typed, named.cons first (by simpa using space) bracket⟩,
        fun tag closed => by cases closed⟩

theorem nameRead_readEndName (typed : List Char) (c : Char) :
    (readEndName typed c).mode.NameRead ∧
      ∀ tag, (readEndName typed c).closed = some (.startTag tag) → ReadName tag.name := by
  unfold readEndName
  split
  · exact ⟨trivial, fun tag closed => by cases closed⟩
  · split <;> exact ⟨trivial, fun tag closed => by cases closed⟩

/-- One character keeps what is known of the name, and so does a start tag that it closes. -/
theorem nameRead_read {mode : Mode} (named : mode.NameRead) (c : Char) :
    (mode.read c).mode.NameRead ∧
      ∀ tag, (mode.read c).closed = some (.startTag tag) → ReadName tag.name := by
  have quiet : ∀ {next : Mode}, next.NameRead → (Step.stay next).mode.NameRead ∧
      ∀ tag, (Step.stay next).closed = some (.startTag tag) → ReadName tag.name :=
    fun known => ⟨known, fun tag closed => by cases closed⟩
  have closes : ∀ {tag : OpenTag} {last : Char}, ReadName tag.name →
      (Step.finish (tag.close last)).mode.NameRead ∧
        ∀ other, (Step.finish (tag.close last)).closed = some (.startTag other) →
          ReadName other.name := by
    intro tag last known
    refine ⟨trivial, fun other closed => ?_⟩
    cases closed
    exact known
  cases mode with
  | fresh =>
      simp only [Mode.read, readContent]
      split <;> exact quiet trivial
  | content =>
      simp only [Mode.read, readContent]
      split <;> exact quiet trivial
  | text typed =>
      simp only [Mode.read]
      split
      · exact ⟨trivial, fun tag closed => by cases closed⟩
      · exact quiet trivial
  | opened =>
      simp only [Mode.read]
      split
      · exact quiet trivial
      · rename_i question
        split
        · exact quiet trivial
        · rename_i slash
          exact nameRead_readStartName readName_empty fun _ => ⟨question, slash⟩
  | instruction asked =>
      simp only [Mode.read]
      split
      · exact ⟨trivial, fun tag closed => by cases closed⟩
      · exact quiet trivial
  | endName typed => exact nameRead_readEndName typed c
  | endRest name =>
      simp only [Mode.read]
      split
      · exact ⟨trivial, fun tag closed => by cases closed⟩
      · exact quiet trivial
  | startName typed => exact nameRead_readStartName named.2 fun empty => absurd empty named.1
  | between tag last =>
      simp only [Mode.read]
      split
      · exact closes named
      · split <;> exact quiet named
  | attributeName tag typed =>
      simp only [Mode.read]
      split
      · exact closes named
      · split
        · exact quiet named
        · split <;> exact quiet named
  | equals tag name last =>
      simp only [Mode.read]
      split
      · exact closes named
      · split <;> exact quiet named
  | value tag name quote typed =>
      simp only [Mode.read]
      split <;> exact quiet named

/-- **The name of a start tag that has closed can be written again.** -/
theorem readName_of_mem_closedEvents {mode : Mode} (named : mode.NameRead) {cs : List Char}
    {tag : StartTag} (closed : .startTag tag ∈ closedEvents mode cs) : ReadName tag.name := by
  induction cs generalizing mode with
  | nil => cases closed
  | cons c cs ih =>
      obtain ⟨known, closes⟩ := nameRead_read named c
      rw [closedEvents_cons, List.mem_append, Option.mem_toList] at closed
      rcases closed with first | later
      · exact closes tag first
      · exact ih known later

/-- An empty element of a name that has been read. -/
theorem reads_emptyElement {name : String} (named : ReadName name) (nonempty : name ≠ "") :
    Reads .opened (name.toList ++ ['/', '>']) [.startTag { name, selfClosing := true }]
      .content := by
  have spelled : name.toList ≠ [] := by simpa using nonempty
  have begins : ∀ c ∈ (name.toList ++ ['/']).head?, c ≠ '?' ∧ c ≠ '/' := by
    rw [List.head?_append_of_ne_nil _ spelled]
    exact named.begins
  have plain : ∀ c ∈ name.toList ++ ['/'], Text.isSpace c = false ∧ c ≠ '>' := by
    intro c listed
    rcases List.mem_append.mp listed with inName | slash
    · exact named.plain c inName
    · rw [List.mem_singleton.mp slash]
      decide
  have reads : Reads .opened (name.toList ++ ['/']) [] (.startName ('/' :: name.toList.reverse)) := by
    have opened : Mode.opened.typedName? = some [] := rfl
    simpa using reads_moreName opened (by simp) plain fun _ => begins
  have closes : (Mode.startName ('/' :: name.toList.reverse)).read '>' =
      .finish (.startTag { name, selfClosing := true }) := by
    simp [Mode.read, readStartName, closeStartName, spell_reverse]
  simpa using reads.append (.last closes)

end Markup

/-! ## What lies below -/

namespace Replay

variable {schema : Schema} {base : List OpenElement}

/-- **An event leaves alone what lies below the innermost open element.** -/
theorem framed_of_effect {before after : Replay} (effect : Effect schema before after)
    (started : before.started = true) (deeper : base.length < before.stack.length)
    (framed : base <:+ before.stack) : base <:+ after.stack := by
  obtain ⟨inner, split⟩ := framed
  cases effect with
  | kept stack _ =>
      rw [stack, ← split]
      exact List.suffix_append inner base
  | closed top stack _ =>
      cases inner with
      | nil => simp [← split] at deeper
      | cons entry inner =>
          rw [← split, List.cons_append] at stack
          rw [← (List.cons.inj stack).2]
          exact List.suffix_append inner base
  | root _ _ _ early => simp [started] at early
  | child tag top below progress element decl inside _ _ _ stack =>
      cases inner with
      | nil => simp [← split] at deeper
      | cons entry inner =>
          rw [← split, List.cons_append] at inside
          have rest : base <:+ below := by
            rw [← (List.cons.inj inside).2]
            exact List.suffix_append inner base
          have above : base <:+ { top with progress } :: below :=
            rest.trans (List.suffix_cons _ below)
          rw [stack]
          split
          · exact above
          · exact above.trans (List.suffix_cons _ _)

theorem agrees_of_runClosed {replay : Replay} {events : List Event}
    (agrees : (runClosed schema replay events).Agrees) : replay.Agrees := by
  induction events generalizing replay with
  | nil => exact agrees
  | cons event events ih => exact (ih agrees).of_step

/-- **A run leaves alone what it stays above.** -/
theorem framed_run {events : List Event} {replay : Replay}
    (agrees : (runClosed schema replay events).Agrees) (started : replay.started = true)
    (framed : base <:+ replay.stack)
    (deeper : ∀ n < events.length,
      base.length < (runClosed schema replay (events.take n)).stack.length) :
    base <:+ (runClosed schema replay events).stack := by
  induction events generalizing replay with
  | nil => exact framed
  | cons event events ih =>
      have rest : (runClosed schema (replay.step schema event .inText) events).Agrees := agrees
      have valid := (agrees_of_runClosed rest).fault
      have first : base.length < replay.stack.length := deeper 0 (by simp)
      apply ih agrees (started_step started)
      · exact framed_of_effect (effect_of_step valid) started first framed
      · intro n earlier
        exact deeper (n + 1) (by simpa using earlier)

/-- The element around a child sees an empty element of the same name. -/
theorem stack_after_child {replay : Replay} {tag : StartTag} {rest : List Event}
    (agrees : (runClosed schema replay (.startTag tag :: rest)).Agrees)
    (started : replay.started = true)
    (depth : (runClosed schema replay (.startTag tag :: rest)).stack.length = replay.stack.length)
    (deeper : ∀ n < rest.length, replay.stack.length <
      (runClosed schema replay (.startTag tag :: rest.take n)).stack.length) :
    (replay.step schema (.startTag { name := tag.name, selfClosing := true }) .inText).Agrees ∧
      (replay.step schema (.startTag { name := tag.name, selfClosing := true }) .inText).stack =
        (runClosed schema replay (.startTag tag :: rest)).stack := by
  have opened : (replay.step schema (.startTag tag) .inText).Agrees := agrees_of_runClosed agrees
  obtain ⟨before, typing | admits⟩ := (agrees_step_startTag schema replay tag .inText).mp opened
  · cases typing
  refine ⟨(agrees_step_startTag schema replay _ .inText).mpr ⟨before, .inr admits⟩, ?_⟩
  simp only [Admits, started, if_true] at admits
  obtain ⟨top, below, progress, element, stack, taken⟩ := admits
  obtain ⟨decl, declared, -⟩ :=
    exists_decl_of_elementName? (elementName?_of_matchContent taken)
  have elsewhere : Caret.inText ≠ .inStartName := by simp
  -- whatever the tag says, it leaves the innermost open element with one child more
  have base : { top with progress } :: below <:+
      (replay.step schema (.startTag tag) .inText).stack := by
    rw [step_startTag_inside before started stack taken elsewhere, openElement_eq declared]
    dsimp only
    split
    · exact List.suffix_rfl
    · exact List.suffix_cons _ _
  have length : ({ top with progress } :: below).length = replay.stack.length := by
    rw [stack]
    rfl
  have goesOn : (runClosed schema (replay.step schema (.startTag tag) .inText) rest).Agrees :=
    agrees
  have framed := framed_run goesOn (started_step started) base (by
    rw [length]
    exact deeper)
  have same : ({ name := tag.name, selfClosing := true } : StartTag).name = tag.name := rfl
  rw [← same] at taken
  rw [step_startTag_inside before started stack taken elsewhere, openElement_eq declared]
  exact framed.eq_of_length (length.trans depth.symm)

end Replay

/-! ## Texts -/

namespace Markup

/-- Outside of markup nothing is unfinished but text. -/
theorem Mode.Outside.pending {mode : Mode} (outside : mode.Outside) :
    mode.pending? = none ∨ ∃ typed, mode = .text typed := by
  cases mode with
  | fresh => exact .inl rfl
  | content => exact .inl rfl
  | text typed => exact .inr ⟨typed, rfl⟩
  | _ => exact outside.elim

/-- Outside of markup, every start tag has closed. -/
theorem startTag_mem_closedEvents {text : String}
    (outside : (modeAfter .fresh text.toList).Outside) {tag : StartTag}
    (listed : .startTag tag ∈ events text) : .startTag tag ∈ closedEvents .fresh text.toList := by
  rw [events_eq, List.mem_append] at listed
  refine listed.resolve_right ?_
  rcases outside.pending with nothing | ⟨typed, mode⟩
  · simp [nothing]
  · simp [mode, Mode.pending?]

/-- Outside of markup, no token is still being typed. -/
theorem caret_of_mem_tokens {text : String} (outside : (modeAfter .fresh text.toList).Outside)
    {token : Token} (read : token ∈ tokens text) : token.caret = .inText := by
  rw [tokens, tokensFrom_eq_closedFrom_append, List.mem_append] at read
  rcases read with earlier | pending
  · exact caret_of_mem_closedFrom earlier
  · rcases outside.pending with nothing | ⟨typed, mode⟩
    · simp [pendingToken, nothing] at pending
    · rw [mode] at pending
      rw [List.mem_singleton.mp pending]
      rfl

end Markup

theorem run_eq_runClosed {schema : Schema} {tokens : List Token}
    (closed : ∀ token ∈ tokens, token.caret = .inText) (replay : Replay) :
    run schema replay tokens = runClosed schema replay (tokens.map Token.event) := by
  induction tokens generalizing replay with
  | nil => rfl
  | cons token tokens ih =>
      rw [List.forall_mem_cons] at closed
      have first : replay.step schema token.event token.caret =
          replay.step schema token.event .inText := by rw [closed.1]
      exact (congrArg (run schema · tokens) first).trans (ih closed.2 _)

/-- Following the first tokens of a text that ends outside of markup. -/
theorem run_take_tokens (schema : Schema) {text : String}
    (outside : (modeAfter .fresh text.toList).Outside) (n : Nat) :
    run schema {} ((tokens text).take n) = runClosed schema {} ((events text).take n) := by
  rw [run_eq_runClosed (fun token listed =>
    caret_of_mem_tokens outside (List.mem_of_mem_take listed)), List.map_take]
  rfl

/-! ## A child and what follows -/

/-- Inside an element, a text is one child: it begins with a start tag of this name, stays
deeper up to its last token, and ends where it began. -/
structure IsChild (schema : Schema) (before child name : String) : Prop where
  outside : caretOf before = .inText
  agrees : (ofText schema before).Agrees
  inside : 1 ≤ (ofText schema before).depth
  begins : ∃ tag rest, tag.name = name ∧
    events (before ++ child) = events before ++ .startTag tag :: rest
  named : name ≠ ""
  closed : caretOf (before ++ child) = .inText
  goesOn : (ofText schema (before ++ child)).Agrees
  depth : (ofText schema (before ++ child)).depth = (ofText schema before).depth
  deeper : ∀ n < (tokens (before ++ child)).length, (tokens before).length < n →
    (ofText schema before).depth < (run schema {} ((tokens (before ++ child)).take n)).depth

/-- The empty element of a name. -/
def emptyElement (name : String) : String :=
  "<" ++ name ++ "/>"

theorem Markup.outside_of_inText {text : String} (inText : caretOf text = .inText) :
    (modeAfter .fresh text.toList).Outside :=
  (Mode.outside_iff_caret _).mpr (.inr inText)

/-- Before anything has begun nothing is open. -/
theorem started_of_depth {schema : Schema} {text : String} (inText : caretOf text = .inText)
    (agrees : (ofText schema text).Agrees) (inside : 1 ≤ (ofText schema text).depth) :
    (ofText schema text).started = true := by
  rw [ofText_of_outside schema (outside_of_inText inText)] at agrees inside ⊢
  cases started : (runClosed schema {} (events text)).started with
  | true => rfl
  | false =>
      have empty := ((mirrors_runClosed agrees).early started).1
      simp [depth, empty] at inside

namespace IsChild

variable {schema : Schema} {before child name : String}

/-- The child and the empty element leave the same elements open. -/
theorem exists_empty (isChild : IsChild schema before child name) :
    ReadName name ∧
      ((ofText schema before).step schema (.startTag { name, selfClosing := true }) .inText).Agrees ∧
      ((ofText schema before).step schema (.startTag { name, selfClosing := true }) .inText).stack =
        (ofText schema (before ++ child)).stack := by
  obtain ⟨tag, rest, rfl, begins⟩ := isChild.begins
  have outside := outside_of_inText isChild.outside
  have closed := outside_of_inText isChild.closed
  have followed : ofText schema (before ++ child) =
      runClosed schema (ofText schema before) (.startTag tag :: rest) := by
    rw [ofText_of_outside schema closed, begins, runClosed_append, ofText_of_outside schema outside]
  have started := started_of_depth isChild.outside isChild.agrees isChild.inside
  refine ⟨?_, ?_⟩
  · have fresh : Mode.fresh.NameRead := trivial
    have listed : .startTag tag ∈ events (before ++ child) := by simp [begins]
    exact readName_of_mem_closedEvents fresh (startTag_mem_closedEvents closed listed)
  · have agrees := isChild.goesOn
    have depth := isChild.depth
    rw [followed] at agrees depth ⊢
    refine stack_after_child agrees started depth fun n earlier => ?_
    -- the tokens of the child are counted from the beginning of the text
    have tokensBefore : (tokens before).length = (events before).length :=
      (List.length_map _).symm
    have tokensAfter : (tokens (before ++ child)).length =
        (events before).length + (rest.length + 1) := by
      rw [← List.length_map Token.event, ← events, begins, List.length_append, List.length_cons]
    have deeper := isChild.deeper ((events before).length + (n + 1)) (by omega) (by omega)
    rw [run_take_tokens schema closed, begins, List.take_length_add_append, List.take_succ_cons,
      runClosed_append, ← ofText_of_outside schema outside] at deeper
    exact deeper

/-- After the empty element the replay is that of the child, but for the document and what came
last. -/
theorem outline_eq (isChild : IsChild schema before child name) :
    ((ofText schema (before ++ child)).outline).forgetLast =
      (((ofText schema before).step schema (.startTag { name, selfClosing := true })
        .inText).outline).forgetLast := by
  obtain ⟨-, agrees, stack⟩ := isChild.exists_empty
  have begun := started_of_depth isChild.outside isChild.agrees isChild.inside
  have inside : 1 ≤ (ofText schema (before ++ child)).depth := by
    rw [isChild.depth]
    exact isChild.inside
  have started := started_of_depth isChild.closed isChild.goesOn inside
  simp only [outline, forgetLast, stack, agrees.stopped, agrees.fault, isChild.goesOn.stopped,
    isChild.goesOn.fault, started, started_step begun]

/-- The empty element may be written in place of the child. -/
theorem ofText_emptyElement (isChild : IsChild schema before child name) :
    (modeAfter .fresh (before ++ emptyElement name).toList).Outside ∧
      ofText schema (before ++ emptyElement name) =
        (ofText schema before).step schema (.startTag { name, selfClosing := true }) .inText := by
  have opens : (emptyElement name).toList = '<' :: (name.toList ++ ['/', '>']) := by
    simp [emptyElement]
  apply ofText_markup schema (outside_of_inText isChild.outside) opens
  exact reads_emptyElement isChild.exists_empty.1 isChild.named

end IsChild

/-- **A child counts only by its name.**  Inside an element, let a text be one child.  Whatever
markup follows, the replay goes on as if an empty element of the same name stood in place of
the child: it stops for the same cause or finds the same fault, the typing stands at the same
place, and the same elements are open with the same progress, but for their nodes in the
document.  Without hooks the suggestions are the same. -/
theorem child_counts_by_name (schema : Schema) (before child name after : String)
    (isChild : IsChild schema before child name) (opens : after.toList.head? = some '<') :
    (ofText schema (before ++ child ++ after)).outline =
        (ofText schema (before ++ emptyElement name ++ after)).outline ∧
      ∀ options, (Engine.mk schema options {}).suggest (before ++ child ++ after) =
        (Engine.mk schema options {}).suggest (before ++ emptyElement name ++ after) := by
  obtain ⟨rest, opens⟩ := List.head?_eq_some_iff.mp opens
  obtain ⟨outside, emptied⟩ := isChild.ofText_emptyElement
  have alike : (ofText schema (before ++ child ++ after)).outline =
      (ofText schema (before ++ emptyElement name ++ after)).outline := by
    rw [ofText_bracket schema (outside_of_inText isChild.closed) opens,
      ofText_bracket schema outside opens, emptied]
    refine settle_read_congr (R := fun one other => one.outline = other.outline)
      (fun _ _ event caret same => outline_step_congr same event caret) (fun event caret => ?_)
      rfl rest
    have agrees : ((ofText schema before).step schema
        (.startTag { name, selfClosing := true }) .inText).outline.Agrees :=
      isChild.exists_empty.2.1
    rw [outline_step, step_eq_of_forgetLast schema agrees isChild.outline_eq, ← outline_step]
  refine ⟨alike, fun options => ?_⟩
  show ofReplay schema options {} _ = ofReplay schema options {} _
  rw [← ofReplay_outline, alike, ofReplay_outline]

/-- A note that is a stub, with a line in it. -/
theorem letters_child_counts_by_name :
    IsChild letters "<letter><greeting/>" "<note xsi:type='Stub'>t<line>x</line></note>" "note" ∧
      (ofText letters
        ("<letter><greeting/>" ++ "<note xsi:type='Stub'>t<line>x</line></note>" ++ "<")).outline =
        (ofText letters ("<letter><greeting/>" ++ emptyElement "note" ++ "<")).outline ∧
      (Engine.mk letters {} {}).suggest
        ("<letter><greeting/>" ++ "<note xsi:type='Stub'>t<line>x</line></note>" ++ "<") =
        (Engine.mk letters {} {}).suggest ("<letter><greeting/>" ++ emptyElement "note" ++ "<") ∧
      ((Engine.mk letters {} {}).suggest
        ("<letter><greeting/>" ++ emptyElement "note" ++ "<")).suggestions.map Suggestion.text =
        ["line", "note", "greeting", "letter"] := by
  have isChild : IsChild letters "<letter><greeting/>"
      "<note xsi:type='Stub'>t<line>x</line></note>" "note" :=
    { outside := by decide +kernel
      agrees := by decide +kernel
      inside := by decide +kernel
      begins :=
        ⟨{ name := "note", attributes := ⟨[("xsi:type", .value "Stub")]⟩ },
          [.text "t", .startTag { name := "line" }, .text "x", .endTag "line", .endTag "note"],
          rfl, by decide +kernel⟩
      named := by decide
      closed := by decide +kernel
      goesOn := by decide +kernel
      depth := by decide +kernel
      deeper := by decide +kernel }
  obtain ⟨outlines, suggestions⟩ := child_counts_by_name letters _ _ _ "<" isChild (by decide)
  exact ⟨isChild, outlines, suggestions {}, by decide +kernel⟩

end ContentAssist
