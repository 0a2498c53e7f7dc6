/-
# ContentAssist.Proofs.Offered -- what is offered is what is accepted

Two walks go over a content model.  Matching looks for a name, restarts a round that
may end and gives up an empty one; offering lists elements up to the first particle
below its minimum and, where a round may follow, those that could open it.  They are
written independently, and this module proves that they agree: the names offered are
the names that matching would take (`exists_offer_iff`).

The walks agree on the progress that a replay can reach.  Offering never asks whether
the current round is one too many, since matching does not enter such a round; that
is an invariant of every replay without a fault (`roundsLeft_run`), and it needs a
schema without sequences that may not occur at all.

At the level of texts: where a start tag's name is being typed, a start tag is offered
exactly when writing it out would be accepted, and an end tag that is offered can be
written (`offered_iff_accepted`).
-/
import ContentAssist.Engine
import ContentAssist.Proofs.ContentModel
import ContentAssist.Proofs.Reading

namespace ContentAssist

set_option autoImplicit false

open Markup Schema Replay Completion

/-! ## Two walks over one content model -/

namespace Replay

theorem mem_takeThrough_iff {α : Type} (wanted : α → Bool) (entries : List α) (entry : α) :
    entry ∈ takeThrough wanted entries ↔
      ∃ index : Nat, entries[index]? = some entry ∧
        ∀ (before : Nat) (other : α), before < index → entries[before]? = some other →
          wanted other = false := by
  induction entries with
  | nil => simp [takeThrough]
  | cons first rest ih =>
      simp only [takeThrough]
      constructor
      · intro listed
        split at listed
        · rw [List.mem_singleton] at listed
          exact ⟨0, by simp [listed], fun _ _ before => absurd before (by omega)⟩
        · rename_i unwanted
          rcases List.mem_cons.mp listed with rfl | later
          · exact ⟨0, rfl, fun _ _ before => absurd before (by omega)⟩
          · obtain ⟨index, place, passed⟩ := ih.mp later
            refine ⟨index + 1, place, ?_⟩
            rintro (_ | before) other earlier at_before
            · obtain rfl : first = other := by simpa using at_before
              simpa using unwanted
            · exact passed before other (by omega) at_before
      · rintro ⟨index | index, place, passed⟩
        · obtain rfl : first = entry := by simpa using place
          split <;> simp
        · have unwanted := passed 0 first (by omega) rfl
          rw [unwanted]
          refine List.mem_cons_of_mem first (ih.mpr ⟨index, place, ?_⟩)
          exact fun before other earlier at_before =>
            passed (before + 1) other (by omega) at_before

/-- Nothing required stands between the resume point and a position. -/
def Reaches (group : Sequence) (progress : Progress) (index : Nat) : Prop :=
  progress.nextChild ≤ index ∧
    ∀ before other, progress.nextChild ≤ before → before < index →
      group.particles[before]? = some other →
      other.occurs.satisfied (progress.count before) = true

theorem getElem?_remaining (group : Sequence) (progress : Progress) (steps : Nat) :
    (remaining group progress)[steps]? =
      group.particles[progress.nextChild + steps]?.map
        fun particle => (particle, progress.nextChild + steps) := by
  simp [remaining, List.getElem?_drop, List.getElem?_zipIdx]

/-- The offers of the current round are the elements of the particles it reaches. -/
theorem mem_currentOffers_iff (group : Sequence) (progress : Progress) (element : ElementId) :
    element ∈ currentOffers group progress ↔
      ∃ index particle, Reaches group progress index ∧
        group.particles[index]? = some particle ∧ element ∈ particle.term.elements := by
  simp only [currentOffers, List.mem_flatMap, mem_takeThrough_iff, getElem?_remaining,
    Option.map_eq_some_iff]
  constructor
  · rintro ⟨entry, ⟨steps, ⟨particle, place, rfl⟩, passed⟩, offered⟩
    refine ⟨_, particle, ⟨by omega, ?_⟩, place, offered⟩
    intro before other resumed earlier at_before
    obtain ⟨distance, rfl⟩ := Nat.exists_eq_add_of_le resumed
    have met := passed distance (other, progress.nextChild + distance) (by omega)
      ⟨other, at_before, rfl⟩
    simpa [isUnmet] using met
  · rintro ⟨index, particle, ⟨resumed, passed⟩, place, offered⟩
    obtain ⟨steps, rfl⟩ := Nat.exists_eq_add_of_le resumed
    refine ⟨_, ⟨steps, ⟨particle, place, rfl⟩, ?_⟩, offered⟩
    rintro before entry earlier ⟨other, at_before, rfl⟩
    have met := passed _ other (by omega) (by omega) at_before
    simpa [isUnmet] using met

/-- The first particle with a name that the round reaches takes it. -/
theorem exists_takes_of_reaches {schema : Schema} {group : Sequence} {progress : Progress}
    {name : String} {index : Nat} {particle : Particle} (reaches : Reaches group progress index)
    (place : group.particles[index]? = some particle)
    (accepts : particle.term.Accepts schema name) :
    ∃ index particle element, Takes schema group progress name index particle element := by
  induction index using Nat.strongRecOn generalizing particle with
  | ind index ih =>
      obtain ⟨resumed, met⟩ := reaches
      by_cases earlier : ∃ before other, progress.nextChild ≤ before ∧ before < index ∧
          group.particles[before]? = some other ∧ other.term.Accepts schema name
      · obtain ⟨before, other, after, less, at_before, has⟩ := earlier
        exact ih before less ⟨after, fun i q h₁ h₂ h₃ => met i q h₁ (by omega) h₃⟩ at_before has
      · obtain ⟨element, found⟩ :=
          Option.isSome_iff_exists.mp ((findNamed?_isSome_iff schema _ name).mpr accepts)
        refine ⟨index, particle, element, resumed, place, found, ?_⟩
        intro before other after less at_before
        refine ⟨?_, met before other after less at_before⟩
        rw [← Option.not_isSome_iff_eq_none, findNamed?_isSome_iff]
        exact fun has => earlier ⟨before, other, after, less, at_before, has⟩

theorem Takes.reaches {schema : Schema} {group : Sequence} {progress : Progress}
    {name : String} {index : Nat} {particle : Particle} {element : ElementId}
    (takes : Takes schema group progress name index particle element) :
    Reaches group progress index :=
  ⟨takes.resumed, fun before other after less at_before =>
    (takes.passed before other after less at_before).2⟩

/-- A name is offered for the current round exactly when a particle takes it there. -/
theorem exists_currentOffer_iff (schema : Schema) (group : Sequence) (progress : Progress)
    (name : String) :
    (∃ element ∈ currentOffers group progress, schema.elementName? element = some name) ↔
      ∃ index particle element, Takes schema group progress name index particle element := by
  constructor
  · rintro ⟨element, offered, named⟩
    obtain ⟨index, particle, reaches, place, listed⟩ :=
      (mem_currentOffers_iff group progress element).mp offered
    exact exists_takes_of_reaches reaches place ⟨element, listed, named⟩
  · rintro ⟨index, particle, element, takes⟩
    refine ⟨element, (mem_currentOffers_iff group progress element).mpr
      ⟨index, particle, takes.reaches, takes.place, List.mem_of_find?_eq_some takes.found⟩, ?_⟩
    exact elementName?_of_findNamed? takes.found

theorem mem_foldl_addOffers (particles : List Particle) (offered : List ElementId)
    (element : ElementId) :
    element ∈ particles.foldl addOffers offered ↔
      element ∈ offered ∨ ∃ particle ∈ particles, element ∈ particle.term.elements := by
  induction particles generalizing offered with
  | nil => simp
  | cons particle rest ih =>
      have added : element ∈ addOffers offered particle ↔
          element ∈ offered ∨ element ∈ particle.term.elements := by
        by_cases known : element ∈ offered <;> simp [addOffers, known]
      simp [ih, added, or_assoc]

/-- What could open the next round is what the next round would offer at its start. -/
theorem mem_nextRound_iff (group : Sequence) (progress : Progress) (element : ElementId) :
    (∃ particle ∈ takeThrough (fun particle => decide (0 < particle.occurs.min)) group.particles,
        element ∈ particle.term.elements) ↔
      element ∈ currentOffers group progress.nextRound := by
  rw [mem_currentOffers_iff]
  simp only [mem_takeThrough_iff, Reaches, Progress.nextChild_nextRound,
    Progress.count_nextRound]
  constructor
  · rintro ⟨particle, ⟨index, place, passed⟩, listed⟩
    refine ⟨index, particle, ⟨Nat.zero_le _, fun before other _ less at_before => ?_⟩, place,
      listed⟩
    have least := passed before other less at_before
    rw [Occurs.satisfied_iff]
    simpa using least
  · rintro ⟨index, particle, ⟨-, passed⟩, place, listed⟩
    refine ⟨particle, ⟨index, place, fun before other less at_before => ?_⟩, listed⟩
    have met := passed before other (Nat.zero_le _) less at_before
    rw [Occurs.satisfied_iff] at met
    simpa using met

theorem mem_sequenceOffers_iff (group : Sequence) (progress : Progress) (element : ElementId) :
    element ∈ sequenceOffers group progress ↔
      element ∈ currentOffers group progress ∨
        (mayRepeat group progress = true ∧
          element ∈ currentOffers group progress.nextRound) := by
  unfold sequenceOffers
  cases again : mayRepeat group progress with
  | false => simp
  | true =>
      simp only [if_true, true_and]
      rw [mem_foldl_addOffers, mem_nextRound_iff]

theorem mayEndRound_iff (group : Sequence) (progress : Progress) :
    mayEndRound group progress = true ↔
      ∀ place other, progress.nextChild ≤ place → group.particles[place]? = some other →
        other.occurs.satisfied (progress.count place) = true := by
  simp only [mayEndRound, List.all_eq_true]
  constructor
  · intro all place other resumed at_place
    obtain ⟨steps, rfl⟩ := Nat.exists_eq_add_of_le resumed
    have listed : (other, progress.nextChild + steps) ∈ remaining group progress :=
      List.mem_of_getElem? (by rw [getElem?_remaining, at_place]; rfl)
    simpa [isUnmet] using all _ listed
  · intro all entry listed
    obtain ⟨steps, place⟩ := List.getElem?_of_mem listed
    rw [getElem?_remaining, Option.map_eq_some_iff] at place
    obtain ⟨particle, at_place, rfl⟩ := place
    simpa [isUnmet] using all _ particle (by omega) at_place

/-- **The two walks agree on a sequence**, as long as the current round is not one too
many. -/
theorem exists_sequenceOffer_iff (schema : Schema) (group : Sequence) (progress : Progress)
    (name : String) (left : group.occurs.exhausted progress.repeats = false) :
    (∃ element ∈ sequenceOffers group progress, schema.elementName? element = some name) ↔
      ∃ after element, matchSequence schema group name progress = (after, .ok element) := by
  have now := exists_currentOffer_iff schema group progress name
  have next := exists_currentOffer_iff schema group progress.nextRound name
  simp only [mem_sequenceOffers_iff, matchSequence_ok_iff, left, true_and]
  constructor
  · rintro ⟨element, current | ⟨again, later⟩, named⟩
    · obtain ⟨index, particle, element, takes⟩ := now.mp ⟨element, current, named⟩
      exact ⟨_, element, .inl ⟨index, particle, takes, rfl⟩⟩
    · by_cases current : ∃ index particle element,
          Takes schema group progress name index particle element
      · obtain ⟨index, particle, element, takes⟩ := current
        exact ⟨_, element, .inl ⟨index, particle, takes, rfl⟩⟩
      · -- nothing takes the name before the round ends, so matching wraps as offering did
        obtain ⟨index, particle, element, takes⟩ := next.mp ⟨element, later, named⟩
        simp only [mayRepeat, Bool.and_eq_true, Bool.not_eq_true'] at again
        obtain ⟨⟨ends, -⟩, repeatable⟩ := again
        have met := (mayEndRound_iff group progress).mp ends
        have ended : RoundOver schema group progress name := by
          intro place other resumed at_place
          refine ⟨?_, met place other resumed at_place⟩
          rw [← Option.not_isSome_iff_eq_none, findNamed?_isSome_iff]
          exact fun has => current (exists_takes_of_reaches
            ⟨resumed, fun i q h₁ _ h₃ => met i q h₁ h₃⟩ at_place has)
        refine ⟨_, element,
          .inr ⟨ended, fun atStart => ?_, repeatable, index, particle, takes, rfl⟩⟩
        have missed := (ended index particle (by omega) takes.place).1
        rw [takes.found] at missed
        cases missed
  · rintro ⟨after, element, ⟨index, particle, takes, -⟩ |
      ⟨ended, underway, repeatable, index, particle, takes, -⟩⟩
    · obtain ⟨id, offered, named⟩ := now.mpr ⟨index, particle, element, takes⟩
      exact ⟨id, .inl offered, named⟩
    · obtain ⟨id, offered, named⟩ := next.mpr ⟨index, particle, element, takes⟩
      have ends : mayEndRound group progress = true :=
        (mayEndRound_iff group progress).mpr fun place other resumed at_place =>
          (ended place other resumed at_place).2
      have started : progress.isUnderway = true := by
        simp [Progress.isUnderway, Nat.pos_of_ne_zero underway]
      exact ⟨id, .inr ⟨by simp [mayRepeat, ends, started, repeatable], offered⟩, named⟩

/-- Another child may come without beginning a round that is one too many. -/
def RoundsLeft (schema : Schema) (entry : OpenElement) : Prop :=
  ∀ group, schema.content? entry.type = some (.sequence group) →
    group.occurs.exhausted entry.progress.repeats = false

/-- **The two walks agree on any content.** -/
theorem exists_offer_iff (schema : Schema) (entry : OpenElement) (name : String)
    (left : RoundsLeft schema entry) :
    (∃ element ∈ offers (schema.content? entry.type) entry.progress,
        schema.elementName? element = some name) ↔
      ∃ after element,
        matchContent schema (schema.content? entry.type) name entry.progress =
          (after, .ok element) := by
  unfold offers matchContent
  split
  · rename_i group content
    exact exists_sequenceOffer_iff schema group entry.progress name (left group content)
  · rename_i group content
    simp only [matchChoice_ok_iff]
    cases exhausted : group.occurs.exhausted entry.progress.repeats with
    | true => simp
    | false =>
        simp only [Bool.false_eq_true, if_false, ← findNamed?_isSome_iff, true_and,
          Option.isSome_iff_exists]
        constructor
        · rintro ⟨element, found⟩
          exact ⟨_, element, found, rfl⟩
        · rintro ⟨-, element, found, -⟩
          exact ⟨element, found⟩
  · simp

/-! ## No replay is a round too far -/

theorem roundsLeft_entryOf {schema : Schema}
    (repeatable : ∀ content ∈ schema.contents, content.Repeatable) (replay : Replay)
    (element : ElementId) (decl : ElementDecl) (tag : StartTag) :
    RoundsLeft schema (entryOf schema replay element decl tag) := by
  intro group content
  have nonzero : group.occurs.max ≠ some 0 := repeatable _ (mem_contents_of_content? content)
  simp only [entryOf, Progress.repeats_start]
  exact (Occurs.not_exhausted_zero_iff _).mpr nonzero

/-- Matching itself looks at the rounds: a child is only taken in one that may be there. -/
theorem roundsLeft_of_matchContent {schema : Schema} {top : OpenElement} {name : String}
    {progress : Progress} {element : ElementId}
    (taken : matchContent schema (schema.content? top.type) name top.progress =
      (progress, .ok element)) :
    RoundsLeft schema { top with progress } := by
  intro group content
  rw [show schema.content? top.type = some (.sequence group) from content] at taken
  obtain ⟨left, ⟨index, particle, -, rfl⟩ | ⟨-, -, again, index, particle, -, rfl⟩⟩ :=
    (matchSequence_ok_iff schema group name top.progress progress element).mp taken
  · simpa using left
  · simpa using again

theorem roundsLeft_of_effect {schema : Schema}
    (repeatable : ∀ content ∈ schema.contents, content.Repeatable) {before after : Replay}
    (effect : Effect schema before after)
    (left : ∀ entry ∈ before.stack, RoundsLeft schema entry) :
    ∀ entry ∈ after.stack, RoundsLeft schema entry := by
  cases effect with
  | kept stack _ => rwa [stack]
  | closed top stack _ =>
      rw [stack, List.forall_mem_cons] at left
      exact left.2
  | root tag element decl _ _ _ _ stack =>
      rw [stack]
      split
      · exact left
      · exact List.forall_mem_cons.mpr ⟨roundsLeft_entryOf repeatable before element decl tag, left⟩
  | child tag top below progress element decl inside taken _ _ stack =>
      rw [inside, List.forall_mem_cons] at left
      have rest : ∀ entry ∈ { top with progress } :: below, RoundsLeft schema entry :=
        List.forall_mem_cons.mpr ⟨roundsLeft_of_matchContent taken, left.2⟩
      rw [stack]
      split
      · exact rest
      · exact List.forall_mem_cons.mpr ⟨roundsLeft_entryOf repeatable before element decl tag, rest⟩

theorem roundsLeft_run {schema : Schema}
    (repeatable : ∀ content ∈ schema.contents, content.Repeatable) (tokens : List Token)
    (valid : (run schema {} tokens).fault = none) :
    ∀ entry ∈ (run schema {} tokens).stack, RoundsLeft schema entry := by
  refine run_induction (P := fun _ replay => ∀ entry ∈ replay.stack, RoundsLeft schema entry)
    (by simp) ?_ tokens valid
  intro _ token replay left sound
  exact roundsLeft_of_effect repeatable (effect_of_step sound) left

end Replay

/-! ## Offers by name -/

namespace Completion

/-- The start tag of an element with this name. -/
def Insertion.IsElement (name : String) : Insertion → Prop
  | .element other _ _ => other = name
  | _ => False

instance (name : String) : (insertion : Insertion) → Decidable (insertion.IsElement name)
  | .element other _ _ => inferInstanceAs (Decidable (other = name))
  | .endTag _ _ | .attributeName _ | .attributeValue _ _ _ | .value _ => .isFalse id

/-- A start tag with this name is offered. -/
def OffersElement (completion : Completion) (name : String) : Prop :=
  ∃ suggestion ∈ completion.suggestions, suggestion.insertion.IsElement name

/-- An end tag with this name is offered, with or without its slash. -/
def OffersEnd (completion : Completion) (name : String) (withSlash : Bool) : Prop :=
  ∃ suggestion ∈ completion.suggestions, suggestion.insertion = .endTag name withSlash

instance (completion : Completion) (name : String) : Decidable (completion.OffersElement name) :=
  inferInstanceAs (Decidable (∃ suggestion ∈ completion.suggestions, _))

instance (completion : Completion) (name : String) (withSlash : Bool) :
    Decidable (completion.OffersEnd name withSlash) :=
  inferInstanceAs (Decidable (∃ suggestion ∈ completion.suggestions, _))

theorem isElement_element_iff (schema : Schema) (decl : ElementDecl) (name : String) :
    (Suggestion.element schema decl).insertion.IsElement name ↔ decl.name = name := by
  unfold Suggestion.element
  cases schema.complex? decl.type with
  | none => exact Iff.rfl
  | some type => exact Iff.rfl

theorem exists_startTag_iff (schema : Schema) (decls : List ElementDecl) (typed name : String) :
    (∃ suggestion ∈ startTags schema decls typed, suggestion.insertion.IsElement name) ↔
      Text.startsWith name typed = true ∧ ∃ decl ∈ decls, decl.name = name := by
  simp only [startTags, List.mem_map, List.mem_filter]
  constructor
  · rintro ⟨-, ⟨decl, ⟨listed, begins⟩, rfl⟩, opens⟩
    obtain rfl := (isElement_element_iff schema decl name).mp opens
    exact ⟨begins, decl, listed, rfl⟩
  · rintro ⟨begins, decl, listed, rfl⟩
    exact ⟨_, ⟨decl, ⟨listed, begins⟩, rfl⟩, (isElement_element_iff schema decl _).mpr rfl⟩

theorem mem_closingTag {schema : Schema} {top : OpenElement} {typed : String}
    {suggestion : Suggestion} (listed : suggestion ∈ closingTag schema top typed) :
    typed = "" ∧ ∃ name, schema.elementName? top.element = some name ∧
      suggestion.insertion = .endTag name true := by
  unfold closingTag at listed
  split at listed
  · rename_i may
    simp only [Bool.and_eq_true, String.isEmpty_iff] at may
    simp only [Option.mem_toList, Option.map_eq_some_iff] at listed
    obtain ⟨decl, declared, rfl⟩ := listed
    exact ⟨may.1, decl.name, by simp [elementName?, declared], rfl⟩
  · cases listed

/-- The start tags offered where a name is being typed inside the document. -/
theorem offersElement_inside_iff (schema : Schema) {replay : Replay} (typed name : String)
    (later : replay.lastIsRoot = false) :
    (elementOffers schema replay typed).OffersElement name ↔
      Text.startsWith name typed = true ∧ ∃ top, replay.top? = some top ∧
        ∃ element ∈ offers (schema.content? top.type) top.progress,
          schema.elementName? element = some name := by
  simp only [OffersElement, elementOffers, later, Bool.false_eq_true, if_false]
  cases inside : replay.top? with
  | none => simp
  | some top =>
      have tags := exists_startTag_iff schema
        ((offers (schema.content? top.type) top.progress).filterMap schema.element?) typed name
      simp only [List.mem_filterMap] at tags
      simp only [List.mem_append, Option.some.injEq, exists_eq_left']
      constructor
      · rintro ⟨suggestion, listed | closing, inserts⟩
        · obtain ⟨begins, decl, ⟨element, offered, declared⟩, rfl⟩ :=
            tags.mp ⟨suggestion, listed, inserts⟩
          exact ⟨begins, element, offered, by simp [elementName?, declared]⟩
        · obtain ⟨-, _, -, closes⟩ := mem_closingTag closing
          rw [closes] at inserts
          exact inserts.elim
      · rintro ⟨begins, element, offered, named⟩
        obtain ⟨decl, declared, named⟩ := exists_decl_of_elementName? named
        obtain ⟨suggestion, listed, inserts⟩ :=
          tags.mpr ⟨begins, decl, ⟨element, offered, declared⟩, named⟩
        exact ⟨suggestion, .inl listed, inserts⟩

/-- The start tags offered for the root. -/
theorem offersElement_root_iff (schema : Schema) {replay : Replay} (typed name : String)
    (first : replay.lastIsRoot = true) :
    (elementOffers schema replay typed).OffersElement name ↔
      Text.startsWith name typed = true ∧ ∃ element, schema.findGlobal? name = some element := by
  simp only [OffersElement, elementOffers, first, if_true]
  rw [exists_startTag_iff]
  refine and_congr_right fun _ => ?_
  rw [← Option.isSome_iff_exists, findGlobal?, Option.isSome_map, List.find?_isSome]
  simp only [List.mem_map, beq_iff_eq]
  constructor
  · rintro ⟨-, ⟨entry, listed, rfl⟩, named⟩
    exact ⟨entry, listed, named⟩
  · rintro ⟨entry, listed, named⟩
    exact ⟨entry.2, ⟨entry, listed, rfl⟩, named⟩

/-- Among the offers for the name of a start tag, an end tag is the closing tag of the
innermost open element. -/
theorem mem_closingTag_of_offersEnd {schema : Schema} {replay : Replay} {typed name : String}
    {withSlash : Bool} (offered : (elementOffers schema replay typed).OffersEnd name withSlash) :
    replay.lastIsRoot = false ∧ ∃ top suggestion, replay.top? = some top ∧
      suggestion ∈ closingTag schema top typed ∧
      suggestion.insertion = .endTag name withSlash := by
  obtain ⟨suggestion, listed, inserts⟩ := offered
  have notStart : ∀ decls, suggestion ∉ startTags schema decls typed := by
    intro decls listed
    obtain ⟨decl, -, rfl⟩ := List.mem_map.mp listed
    have opens := (isElement_element_iff schema decl decl.name).mpr rfl
    rw [inserts] at opens
    exact opens
  unfold elementOffers at listed
  split at listed
  · exact absurd listed (notStart _)
  · rename_i later
    split at listed
    · cases listed
    · rename_i top inside
      rcases List.mem_append.mp listed with listed | listed
      · exact absurd listed (notStart _)
      · exact ⟨by simpa using later, top, suggestion, inside, listed, inserts⟩

/-- An end tag is only offered where nothing has been typed, and it is that of the
innermost open element. -/
theorem open_of_offersEnd {schema : Schema} {replay : Replay} {typed name : String}
    {withSlash : Bool} (offered : (elementOffers schema replay typed).OffersEnd name withSlash) :
    typed = "" ∧ replay.lastIsRoot = false ∧ ∃ top, replay.top? = some top ∧
      schema.elementName? top.element = some name := by
  obtain ⟨later, top, suggestion, inside, listed, inserts⟩ := mem_closingTag_of_offersEnd offered
  obtain ⟨nothing, other, named, closes⟩ := mem_closingTag listed
  obtain ⟨rfl, -⟩ := Insertion.endTag.inj (closes.symm.trans inserts)
  exact ⟨nothing, later, top, inside, named⟩

end Completion

/-! ## Offered and accepted -/

/-- The replay of a text up to an opening bracket that follows it. -/
def beforeTag (schema : Schema) (before : String) : Replay :=
  (({} : Reading).read schema (before.toList ++ ['<'])).closed

/-- A text that goes on with a bracket and some markup. -/
theorem ofText_tag {schema : Schema} {before : String} (text : String)
    (outside : (modeAfter .fresh before.toList).Outside) {cs : List Char} {events : List Event}
    {next : Mode} (reads : Reads .opened cs events next)
    (written : text.toList = before.toList ++ ['<'] ++ cs) :
    ofText schema text =
      Reading.settle schema
        { mode := next, closed := runClosed schema (beforeTag schema before) events } := by
  have bracket : (({} : Reading).read schema (before.toList ++ ['<'])).mode = .opened := by
    simp only [Reading.read, modeAfter_append]
    exact (reads_bracket outside).leaves
  rw [ofText_eq_settle, written, Reading.read_append]
  rw [← bracket] at reads
  rw [Reading.read_of_reads reads]
  rfl

/-- A replay after a start tag whose name is still being typed. -/
def Replay.typing (replay : Replay) (typed : String) : Replay :=
  { replay with
    caret := .inStartName, lastIsRoot := !replay.started, started := true
    last := some (.startTag { name := typed }) }

/-- Where a name is being typed and the text agrees, the offers are those for a name. -/
theorem suggest_typing {engine : Engine} {replay : Replay} (agrees : replay.Agrees)
    {text typed : String} (followed : ofText engine.schema text = replay.typing typed) :
    engine.suggest text = elementOffers engine.schema (replay.typing typed) typed := by
  rw [Engine.suggest, followed]
  simp [ofReplay, isComplete, isValid, Replay.typing, agrees.stopped, agrees.fault,
    typedEndTag?, validOffers]

/-- The start tags offered are those that the replay admits. -/
theorem offersElement_iff_admits {schema : Schema} {replay : Replay}
    (left : ∀ entry ∈ replay.stack, RoundsLeft schema entry) {typed name : String}
    (begins : Text.startsWith name typed = true) :
    (elementOffers schema (replay.typing typed) typed).OffersElement name ↔
      replay.Admits schema name := by
  unfold Admits
  cases started : replay.started with
  | false =>
      rw [offersElement_root_iff schema typed name (by simp [Replay.typing, started])]
      simp [begins]
  | true =>
      rw [offersElement_inside_iff schema typed name (by simp [Replay.typing, started])]
      simp only [begins, true_and, if_true]
      constructor
      · rintro ⟨top, inside, offered⟩
        obtain ⟨below, stack⟩ := List.head?_eq_some_iff.mp inside
        change replay.stack = top :: below at stack
        have known := left top (by rw [stack]; exact List.mem_cons_self)
        obtain ⟨after, element, taken⟩ := (exists_offer_iff schema top name known).mp offered
        exact ⟨top, below, after, element, stack, taken⟩
      · rintro ⟨top, below, after, element, stack, taken⟩
        have known := left top (by rw [stack]; exact List.mem_cons_self)
        refine ⟨top, ?_, (exists_offer_iff schema top name known).mpr ⟨after, element, taken⟩⟩
        simp [top?, Replay.typing, stack]

/-- **A start tag is offered exactly when it would be accepted.**  Let the text agree with
the schema and end in a start tag's name that is being typed.  A name that goes on from
there is offered if and only if the text with the tag written out agrees; and an end tag
that is offered with its slash can be written, which closes exactly one element. -/
theorem offered_iff_accepted (engine : Engine)
    (repeatable : ∀ content ∈ engine.schema.contents, content.Repeatable)
    (before typed : String) (typing : TypesName (before ++ "<" ++ typed) typed)
    (agrees : (ofText engine.schema (before ++ "<" ++ typed)).Agrees) :
    (∀ name, TagName name → Text.startsWith name typed = true →
      ((engine.suggest (before ++ "<" ++ typed)).OffersElement name ↔
        (ofText engine.schema (before ++ "<" ++ name ++ ">")).Agrees)) ∧
    ∀ name, Plain name → (engine.suggest (before ++ "<" ++ typed)).OffersEnd name true →
      (ofText engine.schema (before ++ "<" ++ typed ++ "/" ++ name ++ ">")).Agrees ∧
      (ofText engine.schema (before ++ "<" ++ typed ++ "/" ++ name ++ ">")).depth + 1 =
        (ofText engine.schema (before ++ "<" ++ typed)).depth := by
  obtain ⟨outside, mode, reads, pending, inName⟩ := typing.reads
  have step : ofText engine.schema (before ++ "<" ++ typed) =
      (beforeTag engine.schema before).step engine.schema (.startTag { name := typed })
        .inStartName := by
    rw [ofText_tag (before ++ "<" ++ typed) outside reads (by simp)]
    simp [Reading.settle, pending, inName]
  have earlier : (beforeTag engine.schema before).Agrees := by
    rw [step] at agrees
    exact agrees.of_step
  have followed : ofText engine.schema (before ++ "<" ++ typed) =
      (beforeTag engine.schema before).typing typed := by
    rw [step, step_startTag_typing earlier]
    rfl
  have left : ∀ entry ∈ (beforeTag engine.schema before).stack,
      RoundsLeft engine.schema entry := by
    have all := roundsLeft_run repeatable (tokens (before ++ "<" ++ typed)) agrees.fault
    rw [← ofText, followed] at all
    exact all
  rw [suggest_typing earlier followed]
  constructor
  · intro name named begins
    rw [offersElement_iff_admits left begins,
      ofText_tag (before ++ "<" ++ name ++ ">") outside (reads_startTag named) (by simp)]
    simp only [Reading.settle, Mode.pending?, runClosed_cons, runClosed_nil]
    rw [agrees_step_startTag]
    simp [earlier]
  · intro name plain offered
    obtain ⟨rfl, later, top, inside, named⟩ := open_of_offersEnd offered
    obtain ⟨below, stack⟩ := List.head?_eq_some_iff.mp inside
    change (beforeTag engine.schema before).stack = top :: below at stack
    have started : (beforeTag engine.schema before).started = true := by
      simpa [Replay.typing] using later
    have closes := reads_endTag plain (List.forall_mem_nil fun c => Text.isSpace c = true)
    rw [followed, ofText_tag (before ++ "<" ++ "" ++ "/" ++ name ++ ">") outside closes (by simp)]
    simp only [Reading.settle, Mode.pending?, runClosed_cons, runClosed_nil]
    rw [step_endTag earlier started stack named]
    refine ⟨(agrees_iff _).mpr ⟨earlier.stopped, earlier.fault⟩, ?_⟩
    simp [depth, Replay.typing, stack]

/-- After a greeting a letter may go on with a note, or end. -/
theorem letters_offered_iff_accepted :
    TypesName ("<letter><greeting/>" ++ "<" ++ "") "" ∧
    (ofText letters ("<letter><greeting/>" ++ "<" ++ "")).Agrees ∧
    ((Engine.mk letters {} {}).suggest ("<letter><greeting/>" ++ "<" ++ "")).OffersElement
      "note" ∧
    ((Engine.mk letters {} {}).suggest ("<letter><greeting/>" ++ "<" ++ "")).OffersEnd
      "letter" true ∧
    (ofText letters ("<letter><greeting/>" ++ "<" ++ "" ++ "/" ++ "letter" ++ ">")).Agrees := by
  have typing : TypesName ("<letter><greeting/>" ++ "<" ++ "") "" := by decide +kernel
  have agrees : (ofText letters ("<letter><greeting/>" ++ "<" ++ "")).Agrees := by decide +kernel
  have offered := offered_iff_accepted (Engine.mk letters {} {}) (by decide)
    "<letter><greeting/>" "" typing agrees
  have closing : ((Engine.mk letters {} {}).suggest
      ("<letter><greeting/>" ++ "<" ++ "")).OffersEnd "letter" true := by decide +kernel
  refine ⟨typing, agrees, ?_, closing, (offered.2 "letter" (by decide) closing).1⟩
  exact (offered.1 "note" (by decide) (by decide)).mpr (by decide +kernel)

end ContentAssist
