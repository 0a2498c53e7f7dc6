/-
# ContentAssist.Proofs.Prohibited -- names that may not come

A range may allow nothing: a particle or a whole sequence with the maximum 0 prohibits its
names.  This module says when such a name is kept out, which is to be refused as a tag and
never offered while it is typed.

Neither walk over a sequence looks at the maximum of a particle before it counts a match, so
what decides is whether the walk gets to a particle with the name, in the round underway or
in the next (`Reached`).  Offering asks for nothing else (`exists_sequenceOffer_iff_reached`);
matching also asks for the maximum of the sequence (`exists_match_iff_reached`).

* `prohibited_name_kept_out_iff`: a sequence that may not occur refuses every name, and a name
  is kept out exactly where it is not reached.
* `archives_let_prohibited_in`: so a particle and a sequence with the maximum 0 let a name in.
-/
import ContentAssist.Proofs.Frame
import ContentAssist.Proofs.Narrowing

namespace ContentAssist

set_option autoImplicit false

open Markup Schema Replay Completion

/-! ## Names that are reached -/

namespace Replay

variable {schema : Schema} {group : Sequence} {progress : Progress} {name : String}

/-- Nothing required stands before a particle with the name, in the round underway or, if it
may begin here, in the next one. -/
def Reached (schema : Schema) (group : Sequence) (progress : Progress) (name : String) : Prop :=
  ∃ index particle, group.particles[index]? = some particle ∧
    particle.term.Accepts schema name ∧
    (Reaches group progress index ∨
      (mayRepeat group progress = true ∧ Reaches group progress.nextRound index))

/-- **A name is offered where it is reached**, whatever the ranges allow. -/
theorem exists_sequenceOffer_iff_reached :
    (∃ element ∈ sequenceOffers group progress, schema.elementName? element = some name) ↔
      Reached schema group progress name := by
  simp only [mem_sequenceOffers_iff, mem_currentOffers_iff]
  constructor
  · rintro ⟨element, ⟨index, particle, reaches, place, listed⟩ |
      ⟨again, index, particle, reaches, place, listed⟩, named⟩
    · exact ⟨index, particle, place, ⟨element, listed, named⟩, .inl reaches⟩
    · exact ⟨index, particle, place, ⟨element, listed, named⟩, .inr ⟨again, reaches⟩⟩
  · rintro ⟨index, particle, place, ⟨element, listed, named⟩, reaches | ⟨again, reaches⟩⟩
    · exact ⟨element, .inl ⟨index, particle, reaches, place, listed⟩, named⟩
    · exact ⟨element, .inr ⟨again, index, particle, reaches, place, listed⟩, named⟩

/-- **A name is taken where it is reached and the sequence is not used up**; the maximum of
its particle is not asked for. -/
theorem exists_match_iff_reached :
    (∃ after element, matchSequence schema group name progress = (after, .ok element)) ↔
      group.occurs.exhausted progress.repeats = false ∧ Reached schema group progress name := by
  rw [← exists_sequenceOffer_iff_reached]
  cases left : group.occurs.exhausted progress.repeats with
  | false =>
      rw [exists_sequenceOffer_iff schema group progress name left]
      simp
  | true => simp [matchSequence_ok_iff, left]

/-- Inside an element a start tag may be wrong, but it does not end the replay. -/
theorem isComplete_step_startTag (schema : Schema) {replay : Replay} (agrees : replay.Agrees)
    (started : replay.started = true) {top : OpenElement} {below : List OpenElement}
    (stack : replay.stack = top :: below) (tag : StartTag) {caret : Caret}
    (typed : caret ≠ .inStartName) :
    (replay.step schema (.startTag tag) caret).isComplete = true := by
  have going := agrees.stopped
  rcases taken : matchContent schema (schema.content? top.type) tag.name top.progress with
    ⟨after, reason | element⟩
  · rw [step_eq_follow agrees schema rfl]
    simp [follow, followStart, started, stack, taken, typed, blame, isComplete, going]
  · rw [step_startTag_inside agrees started stack taken typed]
    cases found : schema.element? element <;>
      simp [openElement, found, blame, isComplete, going]

end Replay

/-! ## Tags and offers after a text -/

section Text

variable {schema : Schema} {text name : String} {top : OpenElement} {group : Sequence}

theorem exists_open (inText : caretOf text = .inText) (agrees : (ofText schema text).Agrees)
    (inside : (ofText schema text).top? = some top) :
    (ofText schema text).started = true ∧ ∃ below, (ofText schema text).stack = top :: below := by
  obtain ⟨below, stack⟩ := List.head?_eq_some_iff.mp inside
  refine ⟨started_of_depth inText agrees ?_, below, stack⟩
  simp [depth, stack]

/-- A start tag is right exactly where its name is reached in a sequence with a round left. -/
theorem isValid_startTag_iff (inText : caretOf text = .inText)
    (agrees : (ofText schema text).Agrees) (inside : (ofText schema text).top? = some top)
    (content : schema.content? top.type = some (.sequence group)) (named : TagName name) :
    (ofText schema (text ++ "<" ++ name ++ ">")).isValid = true ↔
      group.occurs.exhausted top.progress.repeats = false ∧
        Reached schema group top.progress name := by
  obtain ⟨started, below, stack⟩ := exists_open inText agrees inside
  have outside := outside_of_inText inText
  have step : ofText schema (text ++ "<" ++ name ++ ">") =
      (ofText schema text).step schema (.startTag { name }) .inText := by
    rw [String.append_assoc, String.append_assoc]
    exact (ofText_markup schema outside (by simp) (reads_startTag named)).2
  have complete := isComplete_step_startTag schema agrees started stack { name }
    (show Caret.inText ≠ .inStartName by simp)
  have valid : ((ofText schema text).step schema (.startTag { name }) .inText).isValid = true ↔
      ((ofText schema text).step schema (.startTag { name }) .inText).Agrees := by
    simp [Agrees, complete]
  rw [step, valid, agrees_step_startTag, ← exists_match_iff_reached]
  simp [agrees, Admits, started, stack, content, matchContent]

/-- While a name is typed it is offered exactly where it is reached. -/
theorem offersElement_typing_iff {engine : Engine} (inText : caretOf text = .inText)
    (agrees : (ofText engine.schema text).Agrees)
    (inside : (ofText engine.schema text).top? = some top)
    (content : engine.schema.content? top.type = some (.sequence group)) (named : TagName name)
    {typed : String} (begins : Text.startsWith name typed = true) :
    (engine.suggest (text ++ "<" ++ typed)).OffersElement name ↔
      Reached engine.schema group top.progress name := by
  obtain ⟨started, below, stack⟩ := exists_open inText agrees inside
  have outside := outside_of_inText inText
  obtain ⟨rest, whole⟩ := (startsWith_iff name typed).mp begins
  obtain ⟨mode, reads, typing⟩ : ∃ mode, Reads .opened typed.toList [] mode ∧
      mode.typedName? = some typed.toList.reverse := by
    by_cases nothing : typed.toList = []
    · rw [nothing]
      exact ⟨.opened, .nil _, rfl⟩
    · have plain : ∀ c ∈ typed.toList, Text.isSpace c = false ∧ c ≠ '>' := by
        intro c listed
        exact named.plain c (by rw [← whole]; exact List.mem_append_left _ listed)
      have first : ∀ c ∈ typed.toList.head?, c ≠ '?' ∧ c ≠ '/' := by
        intro c head
        apply named.begins c
        rw [← whole, List.head?_append, Option.mem_def.mp head]
        rfl
      have atStart : Mode.opened.typedName? = some [] := rfl
      refine ⟨_, reads_moreName atStart nothing plain fun _ => first, ?_⟩
      rw [List.append_nil]
      rfl
  have followed : ofText engine.schema (text ++ "<" ++ typed) =
      (ofText engine.schema text).typing typed := by
    rw [ofText_tag (text ++ "<" ++ typed) outside reads (by simp),
      beforeTag_eq_ofText engine.schema outside, runClosed_nil,
      settle_typedName engine.schema typing agrees, spell_reverse]
  rw [suggest_typing agrees followed,
    offersElement_inside_iff engine.schema typed name (by simp [Replay.typing, started])]
  have same : ((ofText engine.schema text).typing typed).top? = some top := inside
  rw [← exists_sequenceOffer_iff_reached]
  simp [begins, same, content, offers]

end Text

/-- A name is refused as a tag after a text, and not offered while it is typed. -/
def KeptOut (engine : Engine) (text name : String) : Prop :=
  (ofText engine.schema (text ++ "<" ++ name ++ ">")).isValid = false ∧
    ∀ typed, Text.startsWith name typed = true →
      ¬ (engine.suggest (text ++ "<" ++ typed)).OffersElement name

/-- **A name is kept out exactly where it is not reached.**  Whether it is prohibited does not
matter for that; but a sequence that may not occur at all refuses every tag. -/
theorem prohibited_name_kept_out_iff (engine : Engine) (text : String)
    (inText : caretOf text = .inText) (agrees : (ofText engine.schema text).Agrees)
    (top : OpenElement) (inside : (ofText engine.schema text).top? = some top) (group : Sequence)
    (content : engine.schema.content? top.type = some (.sequence group)) (name : String)
    (named : TagName name) :
    (group.occurs.max = some 0 →
      (ofText engine.schema (text ++ "<" ++ name ++ ">")).isValid = false) ∧
    (KeptOut engine text name ↔ ¬ Reached engine.schema group top.progress name) := by
  have taken := isValid_startTag_iff inText agrees inside content named
  constructor
  · intro none
    rw [← Bool.not_eq_true, taken]
    rintro ⟨left, -⟩
    exact Nat.not_lt_zero _ ((Occurs.not_exhausted_iff _ _).mp left 0 none)
  · constructor
    · rintro ⟨-, silent⟩ reached
      have begins : Text.startsWith name "" = true := (startsWith_iff name "").mpr List.nil_prefix
      apply silent "" begins
      exact (offersElement_typing_iff inText agrees inside content named begins).mpr reached
    · intro unreached
      refine ⟨?_, ?_⟩
      · rw [← Bool.not_eq_true, taken]
        exact fun both => unreached both.2
      · intro typed begins offered
        apply unreached
        exact (offersElement_typing_iff inText agrees inside content named begins).mp offered

/-- An archive has a head and no drafts; a vault has nothing in it at all. -/
def archives : Schema where
  types :=
    [.complex
        { content := .sequence
            { particles := [⟨.element 1, .once⟩, ⟨.element 2, ⟨0, some 0⟩⟩] } },
      .complex
        { content := .sequence
            { particles := [⟨.element 1, .once⟩], occurs := ⟨0, some 0⟩ } },
      .simple {}]
  elements :=
    [{ name := "archive", type := 0 }, { name := "head", type := 2 },
      { name := "draft", type := 2 }, { name := "vault", type := 1 }]
  globals := [0, 3]

/-- A draft is kept out before the head has come. -/
theorem archives_keep_draft_out :
    (ofText archives "<archive>").Agrees ∧ TagName "draft" ∧
      KeptOut (Engine.mk archives {} {}) "<archive>" "draft" := by
  have agrees : (ofText archives "<archive>").Agrees := by decide +kernel
  have named : TagName "draft" := by decide
  have top : (ofText archives "<archive>").top? =
      some { element := 0, type := 0, nillable := false, progress := { counts := [0, 0] }
             node := 0 } := by
    decide +kernel
  have kept := prohibited_name_kept_out_iff (Engine.mk archives {} {}) "<archive>"
    (by decide +kernel) agrees _ top _ rfl "draft" named
  refine ⟨agrees, named, kept.2.mpr ?_⟩
  rintro ⟨index, particle, place, accepts, ⟨-, met⟩ | ⟨again, -⟩⟩
  · match index with
    | 0 =>
        cases place
        exact absurd accepts (by decide)
    | index + 1 => exact absurd (met 0 _ (Nat.le_refl 0) (Nat.succ_pos index) rfl) (by decide)
  · exact absurd again (by decide)

/-- After the head a draft is offered and taken, and what a vault may not have is offered. -/
theorem archives_let_prohibited_in :
    (∀ content ∈ archives.contents, content.RangesProper) ∧
    (∃ top group, caretOf "<archive><head/>" = .inText ∧
      (ofText archives "<archive><head/>").Agrees ∧
      (ofText archives "<archive><head/>").top? = some top ∧
      archives.content? top.type = some (.sequence group) ∧
      (∀ particle ∈ group.particles,
        particle.term.Accepts archives "draft" → particle.occurs.max = some 0) ∧
      (ofText archives ("<archive><head/>" ++ "<" ++ "draft" ++ ">")).isValid = true ∧
      ((Engine.mk archives {} {}).suggest ("<archive><head/>" ++ "<" ++ "d")).OffersElement
        "draft") ∧
    ∃ top group, caretOf "<vault>" = .inText ∧ (ofText archives "<vault>").Agrees ∧
      (ofText archives "<vault>").top? = some top ∧
      archives.content? top.type = some (.sequence group) ∧ group.occurs.max = some 0 ∧
      ((Engine.mk archives {} {}).suggest ("<vault>" ++ "<" ++ "")).OffersElement "head" := by
  have archive : (ofText archives "<archive><head/>").top? =
      some { element := 0, type := 0, nillable := false
             progress := { counts := [1, 0], nextChild := 1 }, node := 0 } := by
    decide +kernel
  have vault : (ofText archives "<vault>").top? =
      some { element := 3, type := 1, nillable := false, progress := { counts := [0] }
             node := 0 } := by
    decide +kernel
  refine ⟨by decide, ?_, ?_⟩
  · exact ⟨_, _, by decide +kernel, by decide +kernel, archive, rfl, by decide,
      by decide +kernel, by decide +kernel⟩
  · exact ⟨_, _, by decide +kernel, by decide +kernel, vault, rfl, rfl, by decide +kernel⟩

end ContentAssist
