/-
# ContentAssist.Proofs.Matching -- when content takes a name

Matching a name against a sequence is a search, perhaps a restart, and another
search.  This module says once when that succeeds and what it leaves, so that no
later proof opens the search.

* `Takes`: the particle at a position is the first from the resume point on that
  has the name, and nothing required is passed over.
* `RoundOver`: no particle from the resume point on has the name, and none of them
  is below its minimum.
* `matchSequence_ok_iff`: a sequence takes a name in the current round, or ends the
  round and takes it in the next.  A round in which nothing was matched never ends.
* `matchChoice_ok_iff`: a choice takes the name of an alternative while it is not
  used up.

The element that is taken has the name (`elementName?_of_matchContent`).
-/
import ContentAssist.Replay.Progress

namespace ContentAssist.Replay

set_option autoImplicit false

open Schema

/-! ## Names that are found -/

/-- The element found for a name has the name. -/
theorem elementName?_of_findNamed? {schema : Schema} {candidates : List ElementId}
    {name : String} {element : ElementId}
    (found : schema.findNamed? candidates name = some element) :
    schema.elementName? element = some name := by
  simpa using List.find?_some found

/-- A name is found exactly when some candidate has it. -/
theorem findNamed?_isSome_iff (schema : Schema) (candidates : List ElementId) (name : String) :
    (schema.findNamed? candidates name).isSome = true ↔
      ∃ element ∈ candidates, schema.elementName? element = some name := by
  simp [findNamed?, List.find?_isSome]

/-! ## Counters -/

theorem bump_le (count : Nat) : bump count ≤ count + 1 :=
  Nat.min_le_left _ _

@[simp] theorem bump_zero : bump 0 = 1 := rfl

namespace Progress

@[simp] theorem repeats_start (content : Option Content) : (start content).repeats = 0 := by
  unfold start
  split <;> rfl

@[simp] theorem count_nextRound (progress : Progress) (index : Nat) :
    progress.nextRound.count index = 0 := by
  simp only [count, nextRound, List.getD_eq_getElem?_getD, List.getElem?_map]
  cases progress.counts[index]? <;> rfl

@[simp] theorem nextChild_nextRound (progress : Progress) : progress.nextRound.nextChild = 0 := rfl

@[simp] theorem repeats_nextRound (progress : Progress) :
    progress.nextRound.repeats = bump progress.repeats := rfl

@[simp] theorem repeats_take (progress : Progress) (index : Nat) (occurs : Occurs) :
    (progress.take index occurs).repeats = progress.repeats := rfl

@[simp] theorem counts_take (progress : Progress) (index : Nat) (occurs : Occurs) :
    (progress.take index occurs).counts =
      progress.counts.set index (bump (progress.count index)) := rfl

theorem nextChild_take (progress : Progress) (index : Nat) (occurs : Occurs) :
    (progress.take index occurs).nextChild =
      if occurs.exhausted (bump (progress.count index)) then index + 1 else index := rfl

/-- Taking a name at a position counts there. -/
theorem count_take_self {progress : Progress} {index : Nat} (occurs : Occurs)
    (inside : index < progress.counts.length) :
    (progress.take index occurs).count index = bump (progress.count index) := by
  simp [count, inside]

/-- Taking a name at a position counts nowhere else. -/
theorem count_take_of_ne {progress : Progress} {index other : Nat} (occurs : Occurs)
    (ne : other ≠ index) :
    (progress.take index occurs).count other = progress.count other := by
  simp [count, Ne.symm ne]

end Progress

/-! ## Searching -/

/-- A search goes past the particle at a position: it does not have the name, and it
is not below its minimum. -/
def Passes (schema : Schema) (progress : Progress) (name : String) (index : Nat)
    (particle : Particle) : Prop :=
  schema.findNamed? particle.term.elements name = none ∧
    particle.occurs.satisfied (progress.count index) = true

/-- Once something required has been passed over, that is not forgotten. -/
theorem search_skipped {schema : Schema} {progress : Progress} {name : String}
    {particles : List Particle} {start index : Nat} {occurs : Occurs} {element : ElementId}
    {skipped : Bool}
    (found : search schema progress name true start particles =
      .taken index occurs element skipped) : skipped = true := by
  induction particles generalizing start with
  | nil => simp [search] at found
  | cons particle rest ih =>
      simp only [search, Bool.true_or] at found
      split at found
      · simp only [Search.taken.injEq] at found
        exact found.2.2.2.symm
      · exact ih found

/-- Once something required has been passed over, the round cannot end. -/
theorem search_skipped_ne_roundOver (schema : Schema) (progress : Progress) (name : String)
    (particles : List Particle) (start : Nat) :
    search schema progress name true start particles ≠ .roundOver := by
  induction particles generalizing start with
  | nil => simp [search]
  | cons particle rest ih =>
      simp only [search, Bool.true_or]
      split
      · simp
      · exact ih (start + 1)

/-- The three things a search can do at its first particle. -/
theorem search_cons_cases (schema : Schema) (progress : Progress) (name : String)
    (start : Nat) (particle : Particle) (rest : List Particle) :
    (∃ element, schema.findNamed? particle.term.elements name = some element ∧
        search schema progress name false start (particle :: rest) =
          .taken start particle.occurs element false) ∨
      (Passes schema progress name start particle ∧
        search schema progress name false start (particle :: rest) =
          search schema progress name false (start + 1) rest) ∨
      (schema.findNamed? particle.term.elements name = none ∧
        ¬ Passes schema progress name start particle ∧
        search schema progress name false start (particle :: rest) =
          search schema progress name true (start + 1) rest) := by
  simp only [search, Bool.false_or]
  cases found : schema.findNamed? particle.term.elements name with
  | some element => exact .inl ⟨element, rfl, rfl⟩
  | none =>
      cases met : particle.occurs.satisfied (progress.count start) with
      | true => exact .inr (.inl ⟨⟨found, met⟩, rfl⟩)
      | false =>
          refine .inr (.inr ⟨rfl, fun passes => ?_, rfl⟩)
          rw [passes.2] at met
          cases met

/-- A search succeeds at the first particle that has the name, if it goes past every
particle before. -/
theorem search_eq_taken_iff (schema : Schema) (progress : Progress) (name : String)
    (particles : List Particle) (start index : Nat) (occurs : Occurs) (element : ElementId) :
    search schema progress name false start particles = .taken index occurs element false ↔
      ∃ steps particle, index = start + steps ∧ particles[steps]? = some particle ∧
        occurs = particle.occurs ∧
        schema.findNamed? particle.term.elements name = some element ∧
        ∀ before other, before < steps → particles[before]? = some other →
          Passes schema progress name (start + before) other := by
  induction particles generalizing start with
  | nil => simp [search]
  | cons first rest ih =>
      rcases search_cons_cases schema progress name start first rest with
        ⟨id, found, same⟩ | ⟨passes, same⟩ | ⟨missed, blocked, same⟩
      · rw [same]
        simp only [Search.taken.injEq, and_true]
        constructor
        · rintro ⟨rfl, rfl, rfl⟩
          exact ⟨0, first, rfl, rfl, rfl, found, fun _ _ before => absurd before (by omega)⟩
        · rintro ⟨steps | steps, particle, rfl, place, rfl, hit, passed⟩
          · obtain rfl : first = particle := by simpa using place
            exact ⟨rfl, rfl, Option.some.inj (found.symm.trans hit)⟩
          · have missed := (passed 0 first (by omega) rfl).1
            rw [found] at missed
            cases missed
      · rw [same, ih (start + 1)]
        constructor
        · rintro ⟨steps, particle, rfl, place, rfl, hit, passed⟩
          refine ⟨steps + 1, particle, by omega, place, rfl, hit, ?_⟩
          rintro (_ | before) other earlier at_before
          · obtain rfl : first = other := by simpa using at_before
            exact passes
          · rw [Nat.add_comm before, ← Nat.add_assoc]
            exact passed before other (by omega) at_before
        · rintro ⟨steps | steps, particle, rfl, place, rfl, hit, passed⟩
          · obtain rfl : first = particle := by simpa using place
            exact absurd (passes.1.symm.trans hit) (by simp)
          · refine ⟨steps, particle, by omega, place, rfl, hit,
              fun before other earlier at_before => ?_⟩
            have := passed (before + 1) other (by omega) at_before
            rwa [Nat.add_comm before, ← Nat.add_assoc] at this
      · rw [same]
        constructor
        · intro taken
          exact absurd (search_skipped taken) (by simp)
        · rintro ⟨steps | steps, particle, rfl, place, -, hit, passed⟩
          · obtain rfl : first = particle := by simpa using place
            exact absurd (missed.symm.trans hit) (by simp)
          · exact absurd (passed 0 first (by omega) rfl) blocked

/-- A search comes to the end of the round when it goes past every particle. -/
theorem search_eq_roundOver_iff (schema : Schema) (progress : Progress) (name : String)
    (particles : List Particle) (start : Nat) :
    search schema progress name false start particles = .roundOver ↔
      ∀ (place : Nat) (other : Particle), particles[place]? = some other →
        Passes schema progress name (start + place) other := by
  induction particles generalizing start with
  | nil => simp [search]
  | cons first rest ih =>
      rcases search_cons_cases schema progress name start first rest with
        ⟨id, found, same⟩ | ⟨passes, same⟩ | ⟨missed, blocked, same⟩
      · rw [same]
        simp only [reduceCtorEq, false_iff]
        intro all
        exact absurd (found.symm.trans (all 0 first rfl).1) (by simp)
      · rw [same, ih (start + 1)]
        constructor
        · rintro all (_ | place) other at_place
          · obtain rfl : first = other := by simpa using at_place
            exact passes
          · rw [Nat.add_comm place, ← Nat.add_assoc]
            exact all place other at_place
        · intro all place other at_place
          have := all (place + 1) other at_place
          rwa [Nat.add_comm place, ← Nat.add_assoc] at this
      · rw [same]
        constructor
        · intro ended
          exact absurd ended (search_skipped_ne_roundOver schema progress name rest _)
        · intro all
          exact absurd (all 0 first rfl) blocked

/-! ## One attempt -/

/-- The particle at a position takes a name: it is the first from the resume point on
that has it, and nothing required is passed over. -/
structure Takes (schema : Schema) (group : Sequence) (progress : Progress) (name : String)
    (index : Nat) (particle : Particle) (element : ElementId) : Prop where
  resumed : progress.nextChild ≤ index
  place : group.particles[index]? = some particle
  found : schema.findNamed? particle.term.elements name = some element
  passed : ∀ before other, progress.nextChild ≤ before → before < index →
    group.particles[before]? = some other → Passes schema progress name before other

/-- No particle from the resume point on has the name, and the round may end. -/
def RoundOver (schema : Schema) (group : Sequence) (progress : Progress) (name : String) : Prop :=
  ∀ place other, progress.nextChild ≤ place → group.particles[place]? = some other →
    Passes schema progress name place other

theorem search_rest_eq_taken_iff (schema : Schema) (group : Sequence) (progress : Progress)
    (name : String) (index : Nat) (occurs : Occurs) (element : ElementId) :
    search schema progress name false progress.nextChild
        (group.particles.drop progress.nextChild) = .taken index occurs element false ↔
      ∃ particle, Takes schema group progress name index particle element ∧
        occurs = particle.occurs := by
  rw [search_eq_taken_iff]
  simp only [List.getElem?_drop]
  constructor
  · rintro ⟨steps, particle, rfl, place, rfl, found, passed⟩
    refine ⟨particle, ⟨by omega, place, found, fun before other resumed earlier at_before => ?_⟩,
      rfl⟩
    obtain ⟨distance, rfl⟩ := Nat.exists_eq_add_of_le resumed
    exact passed distance other (by omega) at_before
  · rintro ⟨particle, ⟨resumed, place, found, passed⟩, rfl⟩
    obtain ⟨steps, rfl⟩ := Nat.exists_eq_add_of_le resumed
    exact ⟨steps, particle, rfl, place, rfl, found, fun before other earlier at_before =>
      passed _ other (by omega) (by omega) at_before⟩

theorem search_rest_eq_roundOver_iff (schema : Schema) (group : Sequence)
    (progress : Progress) (name : String) :
    search schema progress name false progress.nextChild
        (group.particles.drop progress.nextChild) = .roundOver ↔
      RoundOver schema group progress name := by
  rw [search_eq_roundOver_iff]
  simp only [List.getElem?_drop]
  constructor
  · intro all place other resumed at_place
    obtain ⟨distance, rfl⟩ := Nat.exists_eq_add_of_le resumed
    exact all distance other at_place
  · intro ended place other at_place
    exact ended _ other (by omega) at_place

/-- An attempt succeeds when some particle takes the name. -/
theorem attempt_eq_accepted_iff (schema : Schema) (group : Sequence) (name : String)
    (progress after : Progress) (element : ElementId) :
    attempt schema group name progress = (after, .accepted element) ↔
      group.occurs.exhausted progress.repeats = false ∧
        ∃ index particle, Takes schema group progress name index particle element ∧
          after = progress.take index particle.occurs := by
  unfold attempt
  cases exhausted : group.occurs.exhausted progress.repeats with
  | true => simp
  | false =>
      simp only [Bool.false_eq_true, if_false, true_and]
      constructor
      · intro accepted
        split at accepted
        · rename_i index occurs id skipped hit
          cases skipped with
          | true => simp at accepted
          | false =>
              simp only [Bool.false_eq_true, if_false, Prod.mk.injEq,
                Attempt.accepted.injEq] at accepted
              obtain ⟨rfl, rfl⟩ := accepted
              obtain ⟨particle, takes, rfl⟩ := (search_rest_eq_taken_iff ..).mp hit
              exact ⟨index, particle, takes, rfl⟩
        · simp at accepted
        · simp at accepted
      · rintro ⟨index, particle, takes, rfl⟩
        rw [(search_rest_eq_taken_iff ..).mpr ⟨particle, takes, rfl⟩]
        simp

/-- An attempt ends the round when nothing takes the name and nothing is required. -/
theorem attempt_eq_wrapped_iff (schema : Schema) (group : Sequence) (name : String)
    (progress after : Progress) :
    attempt schema group name progress = (after, .wrapped) ↔
      group.occurs.exhausted progress.repeats = false ∧
        RoundOver schema group progress name ∧ after = progress.nextRound := by
  unfold attempt
  cases exhausted : group.occurs.exhausted progress.repeats with
  | true => simp
  | false =>
      simp only [Bool.false_eq_true, if_false, true_and]
      rw [← search_rest_eq_roundOver_iff]
      split
      · rename_i index occurs id skipped hit
        cases skipped <;> simp [hit]
      · rename_i hit
        simp [hit]
      · rename_i hit
        simp [hit, eq_comm]

/-! ## Sequences, choices and other content -/

/-- A sequence takes a name in the current round, or ends the round, in which something
was matched, and takes it in the next. -/
theorem matchSequence_ok_iff (schema : Schema) (group : Sequence) (name : String)
    (progress after : Progress) (element : ElementId) :
    matchSequence schema group name progress = (after, .ok element) ↔
      group.occurs.exhausted progress.repeats = false ∧
        ((∃ index particle, Takes schema group progress name index particle element ∧
            after = progress.take index particle.occurs) ∨
          (RoundOver schema group progress name ∧ progress.nextChild ≠ 0 ∧
            group.occurs.exhausted (bump progress.repeats) = false ∧
            ∃ index particle,
              Takes schema group progress.nextRound name index particle element ∧
              after = progress.nextRound.take index particle.occurs)) := by
  have now := attempt_eq_accepted_iff schema group name progress after element
  have wrap := attempt_eq_wrapped_iff schema group name progress
  have next := attempt_eq_accepted_iff schema group name progress.nextRound after element
  rw [Progress.repeats_nextRound] at next
  unfold matchSequence
  split
  · rename_i final id hit
    rw [hit] at now wrap
    constructor
    · intro ok
      have same : (final, Attempt.accepted id) = (after, .accepted element) := by simpa using ok
      obtain ⟨fresh, takes⟩ := now.mp same
      exact ⟨fresh, .inl takes⟩
    · rintro ⟨fresh, takes | ⟨ended, -⟩⟩
      · simpa using now.mpr ⟨fresh, takes⟩
      · have := (wrap progress.nextRound).mpr ⟨fresh, ended, rfl⟩
        simp at this
  · rename_i final reason hit
    rw [hit] at now wrap
    simp only [Prod.mk.injEq, reduceCtorEq, and_false, false_iff] at now wrap ⊢
    rintro ⟨fresh, takes | ⟨ended, -⟩⟩
    · exact now ⟨fresh, takes⟩
    · exact wrap progress.nextRound ⟨fresh, ended, rfl⟩
  · rename_i final hit
    rw [hit] at now wrap
    obtain ⟨fresh, ended, rfl⟩ := (wrap final).mp rfl
    simp only [Prod.mk.injEq, reduceCtorEq, and_false, false_iff] at now
    have notNow : ¬ ∃ index particle, Takes schema group progress name index particle element ∧
        after = progress.take index particle.occurs := fun takes => now ⟨fresh, takes⟩
    simp only [fresh, true_and, notNow, false_or, ended]
    split
    · rename_i start
      simp [start]
    · rename_i underway
      rw [← next]
      split
      · rename_i hit'
        simp [hit', underway]
      · rename_i hit'
        simp [hit']
      · rename_i hit'
        simp [hit']

/-- A choice takes the name of an alternative while it is not used up. -/
theorem matchChoice_ok_iff (schema : Schema) (group : Choice) (name : String)
    (progress after : Progress) (element : ElementId) :
    matchChoice schema group name progress = (after, .ok element) ↔
      group.occurs.exhausted progress.repeats = false ∧
        schema.findNamed? group.alternatives name = some element ∧
        after = { progress with repeats := bump progress.repeats } := by
  unfold matchChoice
  cases exhausted : group.occurs.exhausted progress.repeats with
  | true => simp
  | false =>
      cases found : schema.findNamed? group.alternatives name with
      | none => simp
      | some id => simp [and_comm, eq_comm]

/-- An element that content takes for a name has the name. -/
theorem elementName?_of_matchContent {schema : Schema} {content : Option Content}
    {name : String} {progress after : Progress} {element : ElementId}
    (taken : matchContent schema content name progress = (after, .ok element)) :
    schema.elementName? element = some name := by
  unfold matchContent at taken
  split at taken
  · obtain ⟨-, ⟨_, _, takes, -⟩ | ⟨-, -, -, _, _, takes, -⟩⟩ :=
      (matchSequence_ok_iff ..).mp taken
    · exact elementName?_of_findNamed? takes.found
    · exact elementName?_of_findNamed? takes.found
  · obtain ⟨-, found, -⟩ := (matchChoice_ok_iff ..).mp taken
    exact elementName?_of_findNamed? found
  · simp at taken

end ContentAssist.Replay
