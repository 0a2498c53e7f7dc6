/-
# ContentAssist.Proofs.Greedy -- matching without going back loses no word

Matching takes each name at the first chance and never revises it.  A word, on the other
hand, comes divided into rounds in some way.  The two need not keep step: where a round
leaves out all but one particle, matching stays in an earlier round and goes on counting.
This module proves that a word is followed to its end all the same
(`follows_of_isWord`), for content in which a name belongs to one particle only and
a sequence that repeats asks for no particle twice.

`Pace` compares the counters after a name with the place of that name in the division:
matching is in the same round or an earlier one, at the same particle; and if it has
counted more than the division has, then all other particles may be left out.  `Poised`
says that a block of names at some particle may come next.  One more name of a block
keeps pace (`Pace.stay`), the first name of a block gets there from any poised progress
(`Poised.enter`), and so blocks, rounds and words are followed one after the other.
-/
import ContentAssist.Proofs.ContentModel
import ContentAssist.Proofs.Matching
import Mathlib.Data.List.Nodup

namespace ContentAssist.Replay

set_option autoImplicit false

open Schema

/-! ## Following names -/

/-- Content takes the names one after the other. -/
def Follows (schema : Schema) (content : Option Content) :
    Progress → List String → Progress → Prop
  | before, [], after => before = after
  | before, name :: rest, after =>
      ∃ middle element, matchContent schema content name before = (middle, .ok element) ∧
        Follows schema content middle rest after

theorem Follows.append {schema : Schema} {content : Option Content}
    {before middle after : Progress} {names more : List String}
    (first : Follows schema content before names middle)
    (second : Follows schema content middle more after) :
    Follows schema content before (names ++ more) after := by
  induction names generalizing before with
  | nil =>
      cases first
      exact second
  | cons name rest ih =>
      obtain ⟨next, element, taken, later⟩ := first
      exact ⟨next, element, taken, ih later⟩

theorem follows_concat {schema : Schema} {content : Option Content} {before after : Progress}
    {names : List String} {name : String} :
    Follows schema content before (names ++ [name]) after ↔
      ∃ middle element, Follows schema content before names middle ∧
        matchContent schema content name middle = (after, .ok element) := by
  constructor
  · intro follows
    induction names generalizing before with
    | nil =>
        obtain ⟨middle, element, taken, same⟩ := follows
        cases same
        exact ⟨before, element, rfl, taken⟩
    | cons first rest ih =>
        obtain ⟨next, element, taken, later⟩ := follows
        obtain ⟨middle, last, earlier, ends⟩ := ih later
        exact ⟨middle, last, ⟨next, element, taken, earlier⟩, ends⟩
  · rintro ⟨middle, element, earlier, taken⟩
    exact earlier.append ⟨after, element, taken, rfl⟩

/-! ## Sequences that can be followed -/

/-- The particle at a position may be left out. -/
def Skippable (group : Sequence) (index : Nat) : Prop :=
  ∀ particle, group.particles[index]? = some particle → particle.occurs.min = 0

/-- No name is accepted by two particles, and a sequence that repeats asks for no particle
twice. -/
structure Followable (schema : Schema) (group : Sequence) : Prop where
  unique : ∀ (i j : Nat) (particle other : Particle) (name : String),
    group.particles[i]? = some particle → group.particles[j]? = some other →
    particle.term.Accepts schema name → other.term.Accepts schema name → i = j
  loose : group.occurs.max = some 1 ∨ ∀ particle ∈ group.particles, particle.occurs.min ≤ 1
  /-- Every minimum can be counted up to. -/
  reachable : ∀ particle ∈ group.particles, particle.occurs.min ≤ countLimit

section Names

variable {schema : Schema} {group : Sequence} {progress : Progress} {name : String}
  {place : Nat} {particle : Particle}

theorem Followable.findNamed?_eq_none (followable : Followable schema group)
    (at_place : group.particles[place]? = some particle)
    (accepts : particle.term.Accepts schema name) {index : Nat} {other : Particle}
    (at_index : group.particles[index]? = some other) (ne : index ≠ place) :
    schema.findNamed? other.term.elements name = none := by
  rw [← Option.not_isSome_iff_eq_none, findNamed?_isSome_iff]
  intro has
  exact ne (followable.unique index place other particle name at_index at_place has accepts)

/-- The one particle with a name takes it, unless something required is passed over. -/
theorem Followable.exists_takes (followable : Followable schema group)
    (at_place : group.particles[place]? = some particle)
    (accepts : particle.term.Accepts schema name) (resumed : progress.nextChild ≤ place)
    (met : ∀ (index : Nat) (other : Particle), group.particles[index]? = some other →
      progress.nextChild ≤ index → index < place → other.occurs.min ≤ progress.count index) :
    ∃ element, Takes schema group progress name place particle element := by
  obtain ⟨element, found⟩ :=
    Option.isSome_iff_exists.mp ((findNamed?_isSome_iff schema _ name).mpr accepts)
  refine ⟨element, resumed, at_place, found, ?_⟩
  intro before other after less at_before
  refine ⟨followable.findNamed?_eq_none at_place accepts at_before (by omega), ?_⟩
  exact (Occurs.satisfied_iff _ _).mpr (met before other at_before after less)

theorem Followable.roundOver (followable : Followable schema group)
    (at_place : group.particles[place]? = some particle)
    (accepts : particle.term.Accepts schema name) (past : place < progress.nextChild)
    (met : ∀ (index : Nat) (other : Particle), group.particles[index]? = some other →
      progress.nextChild ≤ index → other.occurs.min ≤ progress.count index) :
    RoundOver schema group progress name := by
  intro index other after at_index
  refine ⟨followable.findNamed?_eq_none at_place accepts at_index (by omega), ?_⟩
  exact (Occurs.satisfied_iff _ _).mpr (met index other at_index after)

end Names

/-! ## Keeping pace -/

/-- The counters after a name, compared with its place in a division into rounds: it was
the name number `taken` of the block at `place` in the round `round`. -/
structure Pace (group : Sequence) (progress : Progress) (round place : Nat)
    (particle : Particle) (taken : Nat) : Prop where
  sized : progress.counts.length = group.particles.length
  at_place : group.particles[place]? = some particle
  begun : 1 ≤ progress.count place
  ahead : ∀ index, place < index → progress.count index = 0
  resume : progress.nextChild =
    if particle.occurs.exhausted (progress.count place) then place + 1 else place
  slow : progress.repeats ≤ round
  /-- Counting more than the division does means being in an earlier round, and that only
  happens when all other particles may be left out. -/
  bounded : progress.count place ≤ taken ∨
    (progress.repeats < round ∧ ∀ index, index ≠ place → Skippable group index)
  enough : particle.occurs.min ≤ 1 ∨ min taken countLimit ≤ progress.count place

theorem bump_eq_min (count : Nat) : bump count = min (count + 1) countLimit := rfl

section Pace

variable {schema : Schema} {group : Sequence} {progress : Progress} {round place taken : Nat}
  {particle : Particle} {name : String}

theorem pace_take (sized : progress.counts.length = group.particles.length)
    (at_place : group.particles[place]? = some particle)
    (ahead : ∀ index, place < index → progress.count index = 0)
    (slow : progress.repeats ≤ round)
    (bounded : bump (progress.count place) ≤ taken ∨
      (progress.repeats < round ∧ ∀ index, index ≠ place → Skippable group index))
    (enough : particle.occurs.min ≤ 1 ∨ min taken countLimit ≤ bump (progress.count place)) :
    Pace group (progress.take place particle.occurs) round place particle taken := by
  have inside : place < progress.counts.length := by
    rw [sized]
    exact (List.getElem?_eq_some_iff.mp at_place).1
  have counted := Progress.count_take_self particle.occurs inside
  refine { sized := by simp [sized], at_place := at_place, begun := ?_, ahead := ?_
           resume := ?_, slow := slow, bounded := ?_, enough := ?_ }
  · have positive : 1 ≤ countLimit := by decide
    rw [counted, bump_eq_min]
    omega
  · intro index later
    rw [Progress.count_take_of_ne _ (by omega)]
    exact ahead index later
  · rw [counted]
    exact Progress.nextChild_take progress place particle.occurs
  · rw [counted]
    exact bounded
  · rw [counted]
    exact enough

/-- Nothing has come in the current round. -/
structure Fresh (group : Sequence) (progress : Progress) (round : Nat) : Prop where
  sized : progress.counts.length = group.particles.length
  zero : ∀ index, progress.count index = 0
  first : progress.nextChild = 0
  slow : progress.repeats ≤ round

/-- The first name of a round. -/
theorem Fresh.enter (fresh : Fresh group progress round) (followable : Followable schema group)
    (at_place : group.particles[place]? = some particle)
    (accepts : particle.term.Accepts schema name)
    (before : ∀ index, index < place → Skippable group index) (some_taken : 1 ≤ taken)
    (enough : particle.occurs.min ≤ 1 ∨ taken = 1) :
    ∃ element, Takes schema group progress name place particle element ∧
      Pace group (progress.take place particle.occurs) round place particle taken := by
  have resumed : progress.nextChild ≤ place := by
    rw [fresh.first]
    exact Nat.zero_le place
  obtain ⟨element, takes⟩ := followable.exists_takes at_place accepts resumed (by
    intro index other at_index _ less
    rw [before index less other at_index]
    exact Nat.zero_le _)
  refine ⟨element, takes, ?_⟩
  refine pace_take fresh.sized at_place (fun index _ => fresh.zero index) fresh.slow ?_ ?_
  · rw [fresh.zero, bump_zero]
    exact .inl some_taken
  · rw [fresh.zero, bump_zero]
    omega

theorem fresh_nextRound (sized : progress.counts.length = group.particles.length)
    (slow : progress.repeats < round) : Fresh group progress.nextRound round where
  sized := by simpa [Progress.nextRound] using sized
  zero := Progress.count_nextRound progress
  first := rfl
  slow := by
    have := bump_le progress.repeats
    rw [Progress.repeats_nextRound]
    omega

/-- A name that is taken in the current round. -/
theorem matchSequence_of_takes {element : ElementId}
    (takes : Takes schema group progress name place particle element)
    (left : ∀ max ∈ group.occurs.max, progress.repeats < max) :
    matchSequence schema group name progress =
      (progress.take place particle.occurs, .ok element) := by
  rw [matchSequence_ok_iff]
  exact ⟨(Occurs.not_exhausted_iff _ _).mpr left, .inl ⟨place, particle, takes, rfl⟩⟩

/-- A name that is behind the resume point begins the next round. -/
theorem Followable.wrap (followable : Followable schema group)
    (at_place : group.particles[place]? = some particle)
    (accepts : particle.term.Accepts schema name)
    (sized : progress.counts.length = group.particles.length)
    (past : place < progress.nextChild)
    (met : ∀ (index : Nat) (other : Particle), group.particles[index]? = some other →
      progress.nextChild ≤ index → other.occurs.min ≤ progress.count index)
    (before : ∀ index, index < place → Skippable group index)
    (slow : progress.repeats < round) (left : ∀ max ∈ group.occurs.max, round < max)
    (some_taken : 1 ≤ taken) (enough : particle.occurs.min ≤ 1 ∨ taken = 1) :
    ∃ after element, matchSequence schema group name progress = (after, .ok element) ∧
      Pace group after round place particle taken := by
  have ended := followable.roundOver at_place accepts past met
  obtain ⟨element, takes, pace⟩ :=
    (fresh_nextRound sized slow).enter followable at_place accepts before some_taken enough
  refine ⟨_, element, ?_, pace⟩
  rw [matchSequence_ok_iff]
  refine ⟨?_, .inr ⟨ended, by omega, ?_, place, particle, takes, rfl⟩⟩
  · rw [Occurs.not_exhausted_iff]
    intro max bound
    have := left max bound
    omega
  · rw [Occurs.not_exhausted_iff]
    intro max bound
    have := left max bound
    have := bump_le progress.repeats
    omega

/-- One more name of a block. -/
theorem Pace.stay (pace : Pace group progress round place particle taken)
    (followable : Followable schema group) (accepts : particle.term.Accepts schema name)
    (left : ∀ max ∈ group.occurs.max, round < max)
    (within : ∀ max ∈ particle.occurs.max, taken + 1 ≤ max) :
    ∃ after element, matchSequence schema group name progress = (after, .ok element) ∧
      Pace group after round place particle (taken + 1) := by
  have resume := pace.resume
  split at resume
  · -- the particle is used up already, so matching is behind and goes into its next round
    rename_i full
    obtain ⟨max, bound, reached⟩ := (Occurs.exhausted_iff _ _).mp full
    have more := within max bound
    have behind : progress.repeats < round ∧ ∀ index, index ≠ place → Skippable group index := by
      rcases pace.bounded with fewer | behind
      · omega
      · exact behind
    have single : particle.occurs.min ≤ 1 := by
      rcases followable.loose with once | loose
      · have := left 1 once
        omega
      · exact loose particle (List.mem_of_getElem? pace.at_place)
    refine followable.wrap pace.at_place accepts pace.sized (by omega) ?_ ?_ behind.1 left
      (by omega) (.inl single)
    · intro index other at_index later
      rw [behind.2 index (by omega) other at_index]
      exact Nat.zero_le _
    · intro index less
      exact behind.2 index (by omega)
  · obtain ⟨element, takes⟩ := followable.exists_takes pace.at_place accepts
      (Nat.le_of_eq resume) (by omega)
    refine ⟨_, element, matchSequence_of_takes takes ?_, ?_⟩
    · intro max bound
      have := left max bound
      have := pace.slow
      omega
    · refine pace_take pace.sized pace.at_place pace.ahead pace.slow ?_ ?_
      · have := bump_le (progress.count place)
        rcases pace.bounded with fewer | behind
        · left
          omega
        · exact .inr behind
      · rcases pace.enough with single | reached
        · exact .inl single
        · right
          rw [bump_eq_min]
          omega

/-- The block at `place` in the round `round` may come next. -/
inductive Poised (group : Sequence) (progress : Progress) (round place : Nat) : Prop where
  | start (fresh : Fresh group progress round)
      (before : ∀ index, index < place → Skippable group index)
  /-- The last name was in a block that is full, and nothing after it is required. -/
  | after (earlier last : Nat) (particle : Particle) (taken : Nat)
      (pace : Pace group progress earlier last particle taken)
      (full : particle.occurs.min ≤ taken) (later : earlier ≤ round)
      (between : ∀ index, last < index → index < place → Skippable group index)
      (again : place ≤ last → earlier < round ∧
        (∀ index, last < index → Skippable group index) ∧
        ∀ index, index < place → Skippable group index)

/-- A block that is full has its particle's counter at the minimum. -/
theorem Pace.met (pace : Pace group progress round place particle taken)
    (followable : Followable schema group) (full : particle.occurs.min ≤ taken) :
    particle.occurs.min ≤ progress.count place := by
  have reachable := followable.reachable particle (List.mem_of_getElem? pace.at_place)
  have begun := pace.begun
  rcases pace.enough with single | reached
  · omega
  · omega

/-- Past a block that is full nothing is missing where the rest may be left out. -/
theorem Pace.met_of_skippable (pace : Pace group progress round place particle taken)
    (followable : Followable schema group) (full : particle.occurs.min ≤ taken) {index : Nat}
    {other : Particle} (at_index : group.particles[index]? = some other)
    (resumed : progress.nextChild ≤ index) (skippable : place < index → Skippable group index) :
    other.occurs.min ≤ progress.count index := by
  by_cases here : index = place
  · subst here
    cases pace.at_place.symm.trans at_index
    exact pace.met followable full
  · have past : place < index := by
      have resume := pace.resume
      split at resume <;> omega
    rw [skippable past other at_index]
    exact Nat.zero_le _

/-- From a full block to a later one of the same round. -/
theorem Pace.onward {earlier last : Nat} {current : Particle}
    (pace : Pace group progress earlier last current taken) (followable : Followable schema group)
    (full : current.occurs.min ≤ taken) (later : earlier ≤ round) (ahead : last < place)
    (between : ∀ index, last < index → index < place → Skippable group index)
    (at_place : group.particles[place]? = some particle)
    (accepts : particle.term.Accepts schema name)
    (left : ∀ max ∈ group.occurs.max, progress.repeats < max) :
    ∃ after element, matchSequence schema group name progress = (after, .ok element) ∧
      Pace group after round place particle 1 := by
  have slow := pace.slow
  have reached : progress.nextChild ≤ place := by
    have resume := pace.resume
    split at resume <;> omega
  obtain ⟨element, takes⟩ := followable.exists_takes at_place accepts reached
    fun index other at_index resumed less =>
      pace.met_of_skippable followable full at_index resumed fun past => between index past less
  refine ⟨_, element, matchSequence_of_takes takes left, ?_⟩
  refine pace_take pace.sized at_place (fun index past => pace.ahead index (by omega))
    (by omega) ?_ ?_
  · rw [pace.ahead place ahead, bump_zero]
    exact .inl (Nat.le_refl 1)
  · rw [pace.ahead place ahead, bump_zero]
    omega

/-- From a full block to one at the same particle, in a later round: unless the particle is
used up, matching goes on counting in the round where it is. -/
theorem Pace.again {earlier : Nat} (pace : Pace group progress earlier place particle taken)
    (followable : Followable schema group) (later : earlier < round)
    (after : ∀ index, place < index → Skippable group index)
    (front : ∀ index, index < place → Skippable group index)
    (accepts : particle.term.Accepts schema name)
    (left : ∀ max ∈ group.occurs.max, round < max) :
    ∃ next element, matchSequence schema group name progress = (next, .ok element) ∧
      Pace group next round place particle 1 := by
  have slow := pace.slow
  have resume := pace.resume
  split at resume
  · refine followable.wrap pace.at_place accepts pace.sized (by omega) ?_ front (by omega) left
      (Nat.le_refl 1) (.inr rfl)
    intro index other at_index resumed
    rw [after index (by omega) other at_index]
    exact Nat.zero_le _
  · obtain ⟨element, takes⟩ := followable.exists_takes pace.at_place accepts
      (Nat.le_of_eq resume) (by omega)
    refine ⟨_, element, matchSequence_of_takes takes ?_, ?_⟩
    · intro max bound
      have := left max bound
      omega
    · refine pace_take pace.sized pace.at_place pace.ahead (by omega) (.inr ⟨by omega, ?_⟩) ?_
      · intro index other
        rcases Nat.lt_or_gt_of_ne other with less | greater
        · exact front index less
        · exact after index greater
      · rw [bump_eq_min]
        omega

/-- The first name of a block. -/
theorem Poised.enter (poised : Poised group progress round place)
    (followable : Followable schema group)
    (at_place : group.particles[place]? = some particle)
    (accepts : particle.term.Accepts schema name)
    (left : ∀ max ∈ group.occurs.max, round < max) :
    ∃ after element, matchSequence schema group name progress = (after, .ok element) ∧
      Pace group after round place particle 1 := by
  cases poised with
  | start fresh before =>
      obtain ⟨element, takes, pace⟩ :=
        fresh.enter followable at_place accepts before (Nat.le_refl 1) (.inr rfl)
      refine ⟨_, element, matchSequence_of_takes takes ?_, pace⟩
      intro max bound
      have := left max bound
      have := fresh.slow
      omega
  | after earlier last current taken pace full later between again =>
      have slow := pace.slow
      rcases Nat.lt_trichotomy last place with ahead | same | behind
      · refine pace.onward followable full later ahead between at_place accepts ?_
        intro max bound
        have := left max bound
        omega
      · subst same
        cases pace.at_place.symm.trans at_place
        obtain ⟨before, after, front⟩ := again (Nat.le_refl last)
        exact pace.again followable before after front accepts left
      · -- back to an earlier particle
        obtain ⟨before, after, front⟩ := again (Nat.le_of_lt behind)
        refine followable.wrap at_place accepts pace.sized ?_ ?_ front (by omega) left
          (Nat.le_refl 1) (.inr rfl)
        · have resume := pace.resume
          split at resume <;> omega
        · intro index other at_index resumed
          exact pace.met_of_skippable followable full at_index resumed (after index)

end Pace

/-! ## Blocks, rounds and words -/

section Words

variable {schema : Schema} {group : Sequence} {progress : Progress} {round place taken : Nat}
  {particle : Particle}

/-- The rest of a block. -/
theorem Pace.block (pace : Pace group progress round place particle taken)
    (followable : Followable schema group) (left : ∀ max ∈ group.occurs.max, round < max)
    {names : List String} (accepted : ∀ name ∈ names, particle.term.Accepts schema name)
    (within : ∀ max ∈ particle.occurs.max, taken + names.length ≤ max) :
    ∃ after, Follows schema (some (.sequence group)) progress names after ∧
      Pace group after round place particle (taken + names.length) := by
  induction names generalizing progress taken with
  | nil => exact ⟨progress, rfl, pace⟩
  | cons name rest ih =>
      simp only [List.length_cons] at within ⊢
      obtain ⟨middle, element, matched, next⟩ :=
        pace.stay followable (accepted name List.mem_cons_self) left (by
          intro max bound
          have := within max bound
          omega)
      obtain ⟨after, follows, last⟩ := ih next
        (fun other later => accepted other (List.mem_cons_of_mem name later)) (by
          intro max bound
          have := within max bound
          omega)
      refine ⟨after, ⟨middle, element, matched, follows⟩, ?_⟩
      rw [show taken + (rest.length + 1) = taken + 1 + rest.length by omega]
      exact last

/-- One more particle that may be left out. -/
theorem skippable_succ (before : ∀ index, index < place → Skippable group index)
    (here : Skippable group place) : ∀ index, index < place + 1 → Skippable group index := by
  intro index less
  rcases Nat.lt_succ_iff_lt_or_eq.mp less with earlier | rfl
  · exact before index earlier
  · exact here

/-- An empty block at a particle that may be left out. -/
theorem Poised.skip (poised : Poised group progress round place)
    (here : Skippable group place) : Poised group progress round (place + 1) := by
  cases poised with
  | start fresh before => exact .start fresh (skippable_succ before here)
  | after earlier last current taken pace full later between again =>
      refine .after earlier last current taken pace full later ?_ ?_
      · intro index past less
        rcases Nat.lt_succ_iff_lt_or_eq.mp less with sooner | rfl
        · exact between index past sooner
        · exact here
      · intro past
        obtain ⟨before, after, front⟩ := again (by omega)
        exact ⟨before, after, skippable_succ front here⟩

/-- A whole block. -/
theorem Poised.block (poised : Poised group progress round place)
    (followable : Followable schema group) (left : ∀ max ∈ group.occurs.max, round < max)
    (at_place : group.particles[place]? = some particle) {names : List String}
    (accepted : ∀ name ∈ names, particle.term.Accepts schema name)
    (counted : particle.occurs.Allows names.length) :
    ∃ after, Follows schema (some (.sequence group)) progress names after ∧
      Poised group after round (place + 1) := by
  cases names with
  | nil =>
      refine ⟨progress, rfl, poised.skip ?_⟩
      intro other at_index
      cases at_place.symm.trans at_index
      exact Nat.le_zero.mp counted.1
  | cons name rest =>
      obtain ⟨middle, element, matched, first⟩ :=
        poised.enter followable at_place (accepted name List.mem_cons_self) left
      obtain ⟨after, follows, pace⟩ := first.block followable left
        (fun other later => accepted other (List.mem_cons_of_mem name later)) (by
          intro max bound
          have := counted.2 max bound
          rw [List.length_cons] at this
          omega)
      refine ⟨after, ⟨middle, element, matched, follows⟩, ?_⟩
      have full := counted.1
      rw [List.length_cons] at full
      exact .after round place particle _ pace (by omega) (Nat.le_refl round)
        (fun index past less => by omega) (fun past => by omega)

/-- The blocks of a round from some particle on. -/
theorem Poised.blocks (poised : Poised group progress round place)
    (followable : Followable schema group) (left : ∀ max ∈ group.occurs.max, round < max)
    {blocks : List (List String)} (total : place + blocks.length = group.particles.length)
    (full : ∀ (index : Nat) (particle : Particle) (block : List String),
      group.particles[place + index]? = some particle → blocks[index]? = some block →
      (∀ name ∈ block, particle.term.Accepts schema name) ∧
        particle.occurs.Allows block.length) :
    ∃ after, Follows schema (some (.sequence group)) progress blocks.flatten after ∧
      Poised group after round group.particles.length := by
  induction blocks generalizing progress place with
  | nil =>
      refine ⟨progress, rfl, ?_⟩
      rw [← total]
      exact poised
  | cons block rest ih =>
      rw [List.length_cons] at total
      have inside : place < group.particles.length := by omega
      have at_place := List.getElem?_eq_getElem inside
      obtain ⟨accepted, counted⟩ := full 0 _ block at_place rfl
      obtain ⟨middle, follows, next⟩ :=
        poised.block followable left at_place accepted counted
      obtain ⟨after, later, last⟩ := ih next (by omega) (by
        intro index particle other at_index listed
        refine full (index + 1) particle other ?_ listed
        rw [show place + (index + 1) = place + 1 + index by omega]
        exact at_index)
      exact ⟨after, follows.append later, last⟩

/-- After the last particle of one round comes the first of the next. -/
theorem Poised.nextRound (poised : Poised group progress round group.particles.length) :
    Poised group progress (round + 1) 0 := by
  cases poised with
  | start fresh _ =>
      have slow := fresh.slow
      exact .start { fresh with slow := by omega } (fun index less => by omega)
  | after earlier last current taken pace full later between again =>
      refine .after earlier last current taken pace full (by omega) (fun index _ less => by omega)
        fun _ => ⟨by omega, ?_, fun index less => by omega⟩
      intro index past particle at_index
      have inside := (List.getElem?_eq_some_iff.mp at_index).1
      exact between index past inside particle at_index

theorem Poised.rounds (poised : Poised group progress round 0)
    (followable : Followable schema group) {rounds : List (List (List String))}
    (full : ∀ blocks ∈ rounds, IsFullRound schema group.particles blocks)
    (left : ∀ max ∈ group.occurs.max, round + rounds.length ≤ max) :
    ∃ after, Follows schema (some (.sequence group)) progress (roundNames rounds) after := by
  induction rounds generalizing progress round with
  | nil => exact ⟨progress, rfl⟩
  | cons blocks rest ih =>
      have first := full blocks List.mem_cons_self
      simp only [List.length_cons] at left
      obtain ⟨middle, follows, last⟩ := poised.blocks followable (by
        intro max bound
        have := left max bound
        omega) (by rw [first.length]; omega) (by
        intro index particle block at_index listed
        rw [Nat.zero_add] at at_index
        exact ⟨first.accepted index particle block at_index listed,
          first.counted index particle block at_index listed⟩)
      obtain ⟨after, later⟩ := ih last.nextRound
        (fun other listed => full other (List.mem_cons_of_mem blocks listed)) (by
          intro max bound
          have := left max bound
          omega)
      rw [roundNames_cons]
      exact ⟨after, follows.append later⟩

theorem Followable.follows (followable : Followable schema group) {names : List String}
    (word : group.IsWord schema names) :
    ∃ after, Follows schema (some (.sequence group))
      (Progress.start (some (.sequence group))) names after := by
  obtain ⟨rounds, rfl, allowed, full⟩ := word
  have fresh : Fresh group (Progress.start (some (.sequence group))) 0 := by
    refine ⟨by simp [Progress.start], ?_, rfl, Nat.le_refl 0⟩
    intro index
    simp only [Progress.count, Progress.start, List.getD_eq_getElem?_getD, List.getElem?_map]
    cases group.particles[index]? <;> rfl
  have poised : Poised group (Progress.start (some (.sequence group))) 0 0 :=
    .start fresh fun index less => absurd less (by omega)
  refine poised.rounds followable full ?_
  intro max bound
  rw [Nat.zero_add]
  exact allowed.2 max bound

end Words

/-- A choice takes alternatives until it is used up. -/
theorem follows_choice {schema : Schema} {group : Choice} {names : List String}
    (named : ∀ name ∈ names,
      ∃ element ∈ group.alternatives, schema.elementName? element = some name)
    (progress : Progress)
    (left : ∀ max ∈ group.occurs.max, progress.repeats + names.length ≤ max) :
    ∃ after, Follows schema (some (.choice group)) progress names after := by
  induction names generalizing progress with
  | nil => exact ⟨progress, rfl⟩
  | cons name rest ih =>
      rw [List.length_cons] at left
      obtain ⟨element, found⟩ := Option.isSome_iff_exists.mp
        ((findNamed?_isSome_iff schema group.alternatives name).mpr
          (named name List.mem_cons_self))
      have spare : group.occurs.exhausted progress.repeats = false := by
        rw [Occurs.not_exhausted_iff]
        intro max bound
        have := left max bound
        omega
      obtain ⟨after, later⟩ := ih
        (fun other listed => named other (List.mem_cons_of_mem name listed))
        { progress with repeats := bump progress.repeats } (by
          intro max bound
          have := left max bound
          have := bump_le progress.repeats
          simp only
          omega)
      refine ⟨after, _, element, ?_, later⟩
      exact (matchChoice_ok_iff schema group name progress _ element).mpr ⟨spare, found, rfl⟩

/-! ## Content that can be followed -/

/-- No two elements that the content refers to have one name. -/
def Distinct (schema : Schema) (content : Content) : Prop :=
  ∀ candidates ∈ content.candidates?, (candidates.filterMap schema.elementName?).Nodup

/-- A sequence that repeats asks for no particle twice. -/
def Loose : Content → Prop
  | .sequence group =>
      group.occurs.max = some 1 ∨ ∀ particle ∈ group.particles, particle.occurs.min ≤ 1
  | _ => True

/-- Minimums are numbers that a counter can hold: one beyond would never be met. -/
def Reachable : Content → Prop
  | .sequence group => ∀ particle ∈ group.particles, particle.occurs.min ≤ countLimit
  | _ => True

instance (schema : Schema) (content : Content) : Decidable (Distinct schema content) :=
  inferInstanceAs (Decidable (∀ candidates ∈ content.candidates?, _))

instance : (content : Content) → Decidable (Loose content)
  | .sequence _ => inferInstanceAs (Decidable (_ ∨ _))
  | .empty | .simple _ | .choice _ | .all _ => .isTrue trivial

instance : (content : Content) → Decidable (Reachable content)
  | .sequence group => inferInstanceAs (Decidable (∀ particle ∈ group.particles, _))
  | .empty | .simple _ | .choice _ | .all _ => .isTrue trivial

theorem followable_of_distinct {schema : Schema} {group : Sequence}
    (distinct : Distinct schema (.sequence group)) (loose : Loose (.sequence group))
    (reachable : Reachable (.sequence group)) : Followable schema group := by
  refine ⟨?_, loose, reachable⟩
  have apart := distinct _ rfl
  rw [List.filterMap_flatMap, List.nodup_flatMap] at apart
  have unique : ∀ (i j : Nat) (particle other : Particle) (name : String), i < j →
      group.particles[i]? = some particle → group.particles[j]? = some other →
      particle.term.Accepts schema name → other.term.Accepts schema name → False := by
    intro i j particle other name less at_i at_j ⟨first, listed, named⟩ ⟨second, relisted, renamed⟩
    obtain ⟨insideI, rfl⟩ := List.getElem?_eq_some_iff.mp at_i
    obtain ⟨insideJ, rfl⟩ := List.getElem?_eq_some_iff.mp at_j
    have disjoint := List.pairwise_iff_getElem.mp apart.2 i j insideI insideJ less
    exact disjoint (List.mem_filterMap.mpr ⟨first, listed, named⟩)
      (List.mem_filterMap.mpr ⟨second, relisted, renamed⟩)
  intro i j particle other name at_i at_j accepts reaccepts
  rcases Nat.lt_trichotomy i j with less | same | greater
  · exact (unique i j particle other name less at_i at_j accepts reaccepts).elim
  · exact same
  · exact (unique j i other particle name greater at_j at_i reaccepts accepts).elim

/-- **Every word is followed to its end.** -/
theorem follows_of_isWord {schema : Schema} {content : Option Content} {names : List String}
    (distinct : ∀ known ∈ content, Distinct schema known)
    (loose : ∀ known ∈ content, Loose known) (reachable : ∀ known ∈ content, Reachable known)
    (word : IsWord schema content names) :
    ∃ after, Follows schema content (Progress.start content) names after := by
  unfold IsWord at word
  split at word
  · rename_i group
    exact (followable_of_distinct (distinct _ rfl) (loose _ rfl) (reachable _ rfl)).follows word
  · rename_i group
    refine follows_choice word.2 _ ?_
    intro max bound
    rw [Progress.repeats_start, Nat.zero_add]
    exact word.1.2 max bound
  · rw [word]
    exact ⟨_, rfl⟩

end ContentAssist.Replay
