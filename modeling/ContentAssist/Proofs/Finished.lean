/-
# ContentAssist.Proofs.Finished -- an end tag is offered on finished content

Whether an element may be closed is decided from its counters, and only what is left of the
round underway is looked at.  This module says what that means for the children that came:
they are full rounds of the sequence (`Sequence.IsFilled`), or a word of the choice
(`closing_offered_on_finished_content`).

Rounds are never too many, and one round has come if any must.  A second is not asked for:
a sequence that must come twice may be closed after its first round
(`duets_closing_offered_early`), unless an empty round is a full one.

A range that allows nothing is not kept either.  Matching asks whether a particle is used up
only after it has taken a name, so to matching a maximum of none is a maximum of one
(`matchSequence_lenient`).  Rounds are full in that sense; they are full in the strict sense
where no such particle accepts a name that came (`Sequence.Permits`).
-/
import ContentAssist.Proofs.Fragment
import ContentAssist.Proofs.History
import ContentAssist.Proofs.Rounds

namespace ContentAssist

set_option autoImplicit false

open Markup Schema Replay Completion

/-! ## Finished content -/

namespace Schema

/-- The names are full rounds of a sequence, no more than it may have.  There is one if there
must be any; there are as many as there must be if every particle may be left out. -/
def Sequence.IsFilled (schema : Schema) (group : Sequence) (names : List String) : Prop :=
  ∃ rounds, names = roundNames rounds ∧
    (∀ blocks ∈ rounds, IsFullRound schema group.particles blocks) ∧
    (∀ max ∈ group.occurs.max, rounds.length ≤ max) ∧
    min group.occurs.min 1 ≤ rounds.length ∧
    ((∀ particle ∈ group.particles, particle.occurs.min = 0) →
      group.occurs.min ≤ rounds.length)

/-- None of the names belongs to a particle that may not occur at all. -/
def Sequence.Permits (schema : Schema) (group : Sequence) (names : List String) : Prop :=
  ∀ particle ∈ group.particles, particle.occurs.max = some 0 →
    ∀ name ∈ names, ¬ particle.term.Accepts schema name

/-- Where every particle may be left out, an empty round is full. -/
theorem isFullRound_empty (schema : Schema) {particles : List Particle}
    (optional : ∀ particle ∈ particles, particle.occurs.min = 0) :
    IsFullRound schema particles (particles.map fun _ => []) := by
  rw [isFullRound_iff_zip]
  refine ⟨by simp, ?_⟩
  rintro ⟨particle, block⟩ listed
  obtain ⟨other, -, rfl⟩ := List.mem_map.mp (List.of_mem_zip listed).2
  refine ⟨by simp, ?_, fun max _ => Nat.zero_le max⟩
  exact Nat.le_of_eq (optional particle (List.of_mem_zip listed).1)

theorem roundNames_replicate_empty (particles : List Particle) (count : Nat) :
    roundNames (List.replicate count (particles.map fun _ => [])) = [] := by
  induction count with
  | zero => rfl
  | succ count ih =>
      rw [List.replicate_succ, roundNames_cons, ih]
      simp

/-- A round with a required particle is not empty. -/
theorem IsFullRound.flatten_ne_nil {schema : Schema} {particles : List Particle}
    {blocks : List (List String)} (round : IsFullRound schema particles blocks)
    {particle : Particle} (listed : particle ∈ particles) (required : 0 < particle.occurs.min) :
    blocks.flatten ≠ [] := by
  obtain ⟨index, place⟩ := List.getElem?_of_mem listed
  have inside : index < blocks.length := by
    rw [round.length]
    exact (List.getElem?_eq_some_iff.mp place).1
  have found := List.getElem?_eq_getElem inside
  have counted := (round.counted index particle _ place found).1
  intro nothing
  rw [List.flatten_eq_nil_iff.mp nothing _ (List.mem_of_getElem? found)] at counted
  exact Nat.not_lt.mpr counted required

/-- Particles that may not occur have a round without names. -/
theorem IsFullRound.flatten_eq_nil {schema : Schema} {particles : List Particle}
    {blocks : List (List String)} (round : IsFullRound schema particles blocks)
    (forbidden : ∀ particle ∈ particles, particle.occurs.max = some 0) : blocks.flatten = [] := by
  rw [List.flatten_eq_nil_iff]
  intro block listed
  obtain ⟨index, found⟩ := List.getElem?_of_mem listed
  have inside : index < particles.length := by
    rw [← round.length]
    exact (List.getElem?_eq_some_iff.mp found).1
  have place := List.getElem?_eq_getElem inside
  have short := (round.counted index _ block place found).2 0
    (forbidden _ (List.mem_of_getElem? place))
  exact List.eq_nil_of_length_eq_zero (Nat.le_zero.mp short)

/-! ## Ranges that allow nothing -/

/-- The range with room for one occurrence at least. -/
def Occurs.lenient (occurs : Occurs) : Occurs :=
  { occurs with max := occurs.max.map (Nat.max 1) }

def Particle.lenient (particle : Particle) : Particle :=
  { particle with occurs := particle.occurs.lenient }

def Sequence.lenient (group : Sequence) : Sequence :=
  { group with particles := group.particles.map Particle.lenient }

theorem Occurs.exhausted_lenient (occurs : Occurs) {count : Nat} (begun : 0 < count) :
    occurs.lenient.exhausted count = occurs.exhausted count := by
  cases bound : occurs.max with
  | none => simp [exhausted, lenient, bound]
  | some max =>
      simp only [exhausted, lenient, bound, Option.map_some, Option.any_some, decide_eq_decide]
      exact Nat.max_le.trans (and_iff_right begun)

theorem Occurs.Proper.lenient {occurs : Occurs} (proper : occurs.Proper) :
    occurs.lenient.Proper := by
  intro max bound
  obtain ⟨strict, listed, rfl⟩ := Option.map_eq_some_iff.mp bound
  obtain ⟨ordered, counted⟩ := proper strict listed
  exact ⟨Nat.le_trans ordered (Nat.le_max_right 1 strict), Nat.max_le.mpr ⟨by decide, counted⟩⟩

theorem Sequence.rangesProper_lenient {group : Sequence}
    (proper : (Content.sequence group).RangesProper) :
    (Content.sequence group.lenient).RangesProper := by
  refine ⟨proper.1, ?_⟩
  intro particle listed
  obtain ⟨strict, member, rfl⟩ := List.mem_map.mp listed
  exact (proper.2 strict member).lenient

/-- Nothing is forbidden to a particle that has room. -/
theorem Sequence.permits_lenient (schema : Schema) (group : Sequence) (names : List String) :
    group.lenient.Permits schema names := by
  intro particle listed forbidden
  obtain ⟨strict, -, rfl⟩ := List.mem_map.mp listed
  obtain ⟨max, -, zero⟩ := Option.map_eq_some_iff.mp forbidden
  exact absurd zero (Nat.ne_of_gt (Nat.le_max_left 1 max))

end Schema

namespace Replay

variable {schema : Schema} {names : List String} {progress : Progress}

theorem take_lenient (progress : Progress) (index : Nat) (occurs : Occurs) :
    progress.take index occurs.lenient = progress.take index occurs := by
  have counted : 0 < bump (progress.count index) := by
    rw [bump_eq_min]
    exact Nat.lt_min.mpr ⟨Nat.succ_pos _, by decide⟩
  rw [Progress.take, Progress.take, occurs.exhausted_lenient counted]

def Search.lenient : Search → Search
  | .taken index occurs element skipped => .taken index occurs.lenient element skipped
  | .incomplete => .incomplete
  | .roundOver => .roundOver

/-- A search looks at names and minima. -/
theorem search_lenient (schema : Schema) (progress : Progress) (name : String) (skipped : Bool)
    (index : Nat) (particles : List Particle) :
    search schema progress name skipped index (particles.map Particle.lenient) =
      (search schema progress name skipped index particles).lenient := by
  induction particles generalizing skipped index with
  | nil => cases skipped <;> rfl
  | cons particle rest ih =>
      simp only [List.map_cons, search, Particle.lenient]
      cases schema.findNamed? particle.term.elements name with
      | none => exact ih _ _
      | some element => rfl

theorem attempt_lenient (schema : Schema) (group : Sequence) (name : String)
    (progress : Progress) :
    attempt schema group.lenient name progress = attempt schema group name progress := by
  simp only [attempt, Sequence.lenient, ← List.map_drop, search_lenient]
  cases search schema progress name false progress.nextChild
      (group.particles.drop progress.nextChild) with
  | taken index occurs element skipped => simp only [Search.lenient, take_lenient]
  | incomplete => rfl
  | roundOver => rfl

/-- **To matching a maximum of none is a maximum of one.** -/
theorem matchSequence_lenient (schema : Schema) (group : Sequence) (name : String)
    (progress : Progress) :
    matchSequence schema group.lenient name progress =
      matchSequence schema group name progress := by
  simp only [matchSequence, attempt_lenient]

theorem Follows.lenient {group : Sequence} {before after : Progress}
    (follows : Follows schema (some (.sequence group)) before names after) :
    Follows schema (some (.sequence group.lenient)) before names after := by
  induction names generalizing before with
  | nil => exact follows
  | cons name rest ih =>
      obtain ⟨middle, element, taken, later⟩ := follows
      exact ⟨middle, element, (matchSequence_lenient schema group name before).trans taken,
        ih later⟩

theorem start_lenient (group : Sequence) :
    Progress.start (some (.sequence group.lenient)) = Progress.start (some (.sequence group)) := by
  simp only [Progress.start, Sequence.lenient, List.map_map]
  rfl

/-- Ending a round is a matter of minima. -/
theorem mayEndRound_lenient {group : Sequence} (ends : mayEndRound group progress = true) :
    mayEndRound group.lenient progress = true := by
  rw [mayEndRound_iff] at ends ⊢
  intro place particle resumed found
  rw [Sequence.lenient, List.getElem?_map] at found
  obtain ⟨strict, there, rfl⟩ := Option.map_eq_some_iff.mp found
  exact ends place strict resumed there

/-! ## What may be closed is finished -/

/-- Another round fits while the counter says so, since it can reach the maximum. -/
theorem Division.length_lt {group : Sequence} {rounds : List (List (List String))}
    {current : List (List String)} (proper : group.occurs.Proper)
    (division : Division schema group progress names rounds current) :
    ∀ max ∈ group.occurs.max, rounds.length < max := by
  intro max bound
  have below := (Occurs.not_exhausted_iff _ _).mp division.left max bound
  have reachable := (proper max bound).2
  rw [division.repeats] at below
  omega

/-- Names whose round underway may end fill the sequence. -/
theorem Division.isFilled {group : Sequence} {rounds : List (List (List String))}
    {current : List (List String)} (proper : group.occurs.Proper)
    (division : Division schema group progress names rounds current)
    (ends : mayEndRound group progress = true) : group.IsFilled schema names := by
  have whole := division.names_eq_roundNames
  have full := division.full_concat ((mayEndRound_iff group progress).mp ends)
  have fits := division.length_lt proper
  have length : (rounds ++ [current]).length = rounds.length + 1 := by simp
  by_cases optional : ∀ particle ∈ group.particles, particle.occurs.min = 0
  · -- empty rounds make up the number
    let missing := group.occurs.min - (rounds.length + 1)
    refine ⟨rounds ++ [current] ++ List.replicate missing (group.particles.map fun _ => []),
      ?_, ?_, ?_, ?_, ?_⟩
    · rw [roundNames_append, roundNames_replicate_empty, List.append_nil]
      exact whole
    · intro blocks listed
      rcases List.mem_append.mp listed with earlier | empty
      · exact full blocks earlier
      · rw [(List.mem_replicate.mp empty).2]
        exact isFullRound_empty schema optional
    · intro max bound
      have := fits max bound
      have := (proper max bound).1
      rw [List.length_append, List.length_replicate, length]
      omega
    · rw [List.length_append, length]
      omega
    · intro _
      rw [List.length_append, List.length_replicate, length]
      omega
  · refine ⟨rounds ++ [current], whole, full, ?_, ?_, fun all => absurd all optional⟩
    · intro max bound
      rw [length]
      exact fits max bound
    · rw [length]
      omega

/-- **A sequence that may be closed is filled.** -/
theorem isFilled_of_follows {group : Sequence}
    (proper : (Content.sequence group).RangesProper)
    (follows : Follows schema (some (.sequence group)) (Progress.start (some (.sequence group)))
      names progress)
    (ends : mayEndRound group progress = true) (permits : group.Permits schema names) :
    group.IsFilled schema names := by
  obtain ⟨own, particles⟩ := proper
  cases nothing : group.occurs.exhausted 0 with
  | true =>
      -- a sequence that may not occur has taken nothing, and needs no round
      obtain ⟨max, bound, zero⟩ := (Occurs.exhausted_iff _ _).mp nothing
      have least := (own max bound).1
      have needless : group.occurs.min = 0 := by omega
      exact ⟨[], eq_nil_of_follows_exhausted follows nothing, by simp, by simp,
        by simp [needless], fun _ => Nat.le_of_eq needless⟩
  | false =>
      have orderly : Orderly schema group names :=
        { ordered := fun particle listed max bound => (particles particle listed max bound).1
          permitted := permits
          countable := .inr fun particle listed max bound =>
            (particles particle listed max bound).2 }
      obtain ⟨rounds, current, division⟩ := exists_division_of_follows follows nothing orderly
      exact division.isFilled own ends

/-- The same for the ranges that matching goes by, which permit whatever has been taken. -/
theorem isFilled_lenient_of_follows {group : Sequence}
    (proper : (Content.sequence group).RangesProper)
    (follows : Follows schema (some (.sequence group)) (Progress.start (some (.sequence group)))
      names progress)
    (ends : mayEndRound group progress = true) : group.lenient.IsFilled schema names := by
  have again := follows.lenient
  rw [← start_lenient] at again
  exact isFilled_of_follows (Sequence.rangesProper_lenient proper) again
    (mayEndRound_lenient ends) (Sequence.permits_lenient schema group names)

/-- A choice that may be closed has a word of its own. -/
theorem isWord_of_follows {group : Choice} (proper : group.occurs.Proper)
    (follows : Follows schema (some (.choice group)) (Progress.start (some (.choice group)))
      names progress)
    (enough : group.occurs.satisfied progress.repeats = true) : group.IsWord schema names := by
  obtain ⟨counted, named, bounded⟩ := choice_of_follows follows
  refine ⟨⟨?_, ?_⟩, named⟩
  · have least := (Occurs.satisfied_iff _ _).mp enough
    rw [counted] at least
    omega
  · intro max bound
    exact bounded max bound (.inr (proper max bound).2)

end Replay

/-! ## What is offered may be closed -/

theorem Completion.mayClose_of_offersEnd {schema : Schema} {replay : Replay} {typed name : String}
    {withSlash : Bool} (offered : (elementOffers schema replay typed).OffersEnd name withSlash)
    {top : OpenElement} (inside : replay.top? = some top) :
    mayClose (schema.content? top.type) top.progress = true := by
  obtain ⟨-, entry, suggestion, found, listed, -⟩ := mem_closingTag_of_offersEnd offered
  cases inside.symm.trans found
  unfold closingTag at listed
  split at listed
  · rename_i may
    exact (Bool.and_eq_true_iff.mp may).2
  · cases listed

/-- While the name of a start tag is being typed, the offers are those for that name. -/
theorem suggest_of_typesName {engine : Engine} {text typed : String}
    (typing : TypesName text typed) (agrees : (ofText engine.schema text).Agrees) :
    engine.suggest text = elementOffers engine.schema (ofText engine.schema text) typed := by
  obtain ⟨inName, lastEvent⟩ := typing
  obtain ⟨last, caret⟩ := last_ofText agrees.1
  rw [lastEvent] at last
  rw [inName] at caret
  rw [Engine.suggest, ofReplay_eq_validOffers agrees.1 agrees.2 (by simp [caret])]
  simp [validOffers, last, caret]

/-- **An end tag is offered on finished content only.**  Where the name of a start tag is to
be typed and an end tag is offered, the children of the innermost open element are full
rounds of its sequence, or a word of its choice.  Rounds give a particle that may not occur
one name at most, and none if it accepts none of the names. -/
theorem closing_offered_on_finished_content (engine : Engine)
    (proper : ∀ content ∈ engine.schema.contents, content.RangesProper) (text : String)
    (typing : TypesName text "") (agrees : (ofText engine.schema text).Agrees) (top : OpenElement)
    (inside : (ofText engine.schema text).top? = some top) (name : String) (withSlash : Bool)
    (offered : (engine.suggest text).OffersEnd name withSlash) :
    ∃ shadow, (ofText engine.schema text).document.element? top.node = some shadow ∧
      (∀ group, engine.schema.content? top.type = some (.sequence group) →
        group.lenient.IsFilled engine.schema (shadow.children.map Document.Element.name) ∧
        (group.Permits engine.schema (shadow.children.map Document.Element.name) →
          group.IsFilled engine.schema (shadow.children.map Document.Element.name))) ∧
      ∀ group, engine.schema.content? top.type = some (.choice group) →
        group.IsWord engine.schema (shadow.children.map Document.Element.name) := by
  have recorded := recorded_ofText agrees
  have listed := List.mem_of_mem_head? inside
  have follows := recorded.traced.followed top listed
  rw [suggest_of_typesName typing agrees] at offered
  have closes := mayClose_of_offersEnd offered inside
  obtain ⟨shadow, found, names⟩ := recorded.exists_node listed
  rw [← names] at follows
  refine ⟨shadow, found, ?_⟩
  generalize shadow.children.map Document.Element.name = children at follows ⊢
  constructor
  · intro group content
    have ranges := proper _ (mem_contents_of_content? content)
    rw [content] at follows closes
    exact ⟨isFilled_lenient_of_follows ranges follows closes,
      isFilled_of_follows ranges follows closes⟩
  · intro group content
    have ranges := proper _ (mem_contents_of_content? content)
    rw [content] at follows closes
    exact isWord_of_follows ranges follows closes

/-- A letter of two rounds, the second without a line. -/
theorem letters_closing_offered_on_finished_content :
    ∃ top shadow group,
      (ofText letters "<letter><greeting/><line/><line/><greeting/><").top? = some top ∧
      (ofText letters
        "<letter><greeting/><line/><line/><greeting/><").document.element? top.node = some shadow ∧
      letters.content? top.type = some (.sequence group) ∧
      group.lenient.IsFilled letters (shadow.children.map Document.Element.name) ∧
      group.IsFilled letters (shadow.children.map Document.Element.name) := by
  obtain ⟨top, inside, type⟩ : ∃ top,
      (ofText letters "<letter><greeting/><line/><line/><greeting/><").top? = some top ∧
        top.type = 0 :=
    ⟨_, Option.eq_some_of_isSome (by decide +kernel), by decide +kernel⟩
  obtain ⟨shadow, found, finished, -⟩ :=
    closing_offered_on_finished_content (Engine.mk letters {} {}) (by decide)
      "<letter><greeting/><line/><line/><greeting/><" (by decide +kernel) (by decide +kernel) top
      inside "letter" true (by decide +kernel)
  have content : letters.content? top.type = some (.sequence
      { particles := [⟨.element 1, .once⟩, ⟨.choice { alternatives := [2, 3] }, ⟨0, some 2⟩⟩]
        occurs := .atLeast 1 }) := by
    rw [type]
    rfl
  obtain ⟨loosely, strictly⟩ := finished _ content
  refine ⟨top, shadow, _, inside, found, content, loosely, strictly ?_⟩
  have allowed : ∀ particle ∈ [(⟨.element 1, .once⟩ : Particle),
      ⟨.choice { alternatives := [2, 3] }, ⟨0, some 2⟩⟩], particle.occurs.max ≠ some 0 := by
    decide
  intro particle listed none
  exact absurd none (allowed particle listed)

/-- The end tag is offered for an innermost open element whose children are no word of its
sequence. -/
def Engine.ClosesEarly (engine : Engine) (text name : String) : Prop :=
  TypesName text "" ∧ (ofText engine.schema text).Agrees ∧
    (engine.suggest text).OffersEnd name true ∧
    ∃ top shadow group, (ofText engine.schema text).top? = some top ∧
      (ofText engine.schema text).document.element? top.node = some shadow ∧
      engine.schema.content? top.type = some (.sequence group) ∧
      ¬ group.IsWord engine.schema (shadow.children.map Document.Element.name)

theorem Engine.closesEarly_of_children {engine : Engine} {text name : String} {top : OpenElement}
    {group : Sequence} (typing : TypesName text "") (agrees : (ofText engine.schema text).Agrees)
    (offered : (engine.suggest text).OffersEnd name true)
    (inside : (ofText engine.schema text).top? = some top)
    (content : engine.schema.content? top.type = some (.sequence group))
    (unfinished : ¬ group.IsWord engine.schema
      ((ofText engine.schema text).document.childNames top.node)) :
    engine.ClosesEarly text name := by
  obtain ⟨shadow, found, names⟩ :=
    (recorded_ofText agrees).exists_node (List.mem_of_mem_head? inside)
  rw [← names] at unfinished
  exact ⟨typing, agrees, offered, top, shadow, group, inside, found, content, unfinished⟩

/-- A duet is two rounds of one part, and a part has no encore. -/
def duets : Schema where
  types :=
    [.complex
        { content := .sequence
            { particles := [⟨.element 1, .once⟩], occurs := ⟨2, some 2⟩ } },
      .complex { content := .sequence { particles := [⟨.element 2, ⟨0, some 0⟩⟩] } },
      .simple {}]
  elements :=
    [{ name := "duet", type := 0 }, { name := "part", type := 1 },
      { name := "encore", type := 2 }]
  globals := [0]

/-- One part is no duet, but the end tag is offered after it; and a part is closed after an
encore. -/
theorem duets_closing_offered_early :
    (∀ content ∈ duets.contents, content.RangesProper) ∧
    (Engine.mk duets {} {}).ClosesEarly "<duet><part/><" "duet" ∧
    (Engine.mk duets {} {}).ClosesEarly "<duet><part><encore/><" "part" := by
  refine ⟨by decide, ?_, ?_⟩
  · have top : (ofText duets "<duet><part/><").top? =
        some { element := 0, type := 0, nillable := false
               progress := { counts := [1], nextChild := 1 }, node := 0 } := by
      decide +kernel
    have children : (ofText duets "<duet><part/><").document.childNames 0 = ["part"] := by
      decide +kernel
    refine Engine.closesEarly_of_children (by decide +kernel) (by decide +kernel)
      (by decide +kernel) top rfl ?_
    rw [children]
    rintro ⟨rounds, same, ⟨atLeast, -⟩, full⟩
    -- each of the two rounds would have a part of its own
    have few := length_le_roundNames fun blocks listed =>
      (full blocks listed).flatten_ne_nil List.mem_cons_self (by decide)
    rw [← same] at few
    exact absurd (Nat.le_trans atLeast few) (by decide)
  · have top : (ofText duets "<duet><part><encore/><").top? =
        some { element := 1, type := 1, nillable := false
               progress := { counts := [1], nextChild := 1 }, node := 1 } := by
      decide +kernel
    have children :
        (ofText duets "<duet><part><encore/><").document.childNames 1 = ["encore"] := by
      decide +kernel
    refine Engine.closesEarly_of_children (by decide +kernel) (by decide +kernel)
      (by decide +kernel) top rfl ?_
    rw [children]
    rintro ⟨rounds, same, -, full⟩
    -- no round would have a name
    have silent : roundNames rounds = [] := by
      rw [roundNames, List.flatten_flatten, List.flatten_eq_nil_iff]
      intro names listed
      obtain ⟨blocks, member, rfl⟩ := List.mem_map.mp listed
      exact (full blocks member).flatten_eq_nil (by decide)
    rw [silent] at same
    cases same

end ContentAssist
