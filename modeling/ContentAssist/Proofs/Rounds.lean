/-
# ContentAssist.Proofs.Rounds -- names that were taken fall into rounds

Matching takes names one after the other and remembers a few numbers.  This module says what
those names look like afterwards: some full rounds of the content model and one that is
underway, in which every particle has a block of the names it took.

A counter stops at a limit, a block does not, so a counter says the length of its block only
up to that limit.  `Orderly` is what makes this enough: the ranges of the particles are in
order, no name belongs to a particle that may not occur at all, and no maximum lies beyond
what is counted.

* `PartialRound`: a round as far as it has come.  `PartialRound.take` adds a name to it, and
  where nothing required is left it is full (`PartialRound.isFullRound`).
* `Division`: all names, in full rounds and the one underway; `Division.take` and
  `Division.nextRound` are the two things matching does.
* `exists_division_of_follows`: whatever names a sequence takes have a division.
* `choice_of_follows`: the same for a choice, which only counts.
-/
import ContentAssist.Proofs.ContentModel
import ContentAssist.Proofs.Greedy
import Mathlib.Data.List.Induction

namespace ContentAssist.Replay

set_option autoImplicit false

open Schema

/-! ## Blocks -/

/-- A counter that stops goes on counting as far as it can. -/
theorem bump_min (length : Nat) :
    bump (min length countLimit) = min (length + 1) countLimit := by
  rw [bump_eq_min]
  generalize countLimit = limit
  omega

/-- The block at which a name is added is the last that holds any. -/
theorem flatten_modify (blocks : List (List String)) {index : Nat} (name : String)
    (inside : index < blocks.length)
    (empty : ∀ later block, index < later → blocks[later]? = some block → block = []) :
    (blocks.modify index (· ++ [name])).flatten = blocks.flatten ++ [name] := by
  induction blocks generalizing index with
  | nil => simp at inside
  | cons block rest ih =>
      cases index with
      | zero =>
          have nothing : rest.flatten = [] := by
            rw [List.flatten_eq_nil_iff]
            intro other listed
            obtain ⟨place, found⟩ := List.getElem?_of_mem listed
            exact empty (place + 1) other (by omega) found
          simp [nothing]
      | succ index =>
          have later := ih (by simpa using inside) fun place other after found =>
            empty (place + 1) other (by omega) found
          simp [later]

/-- A block after a name was added somewhere. -/
theorem exists_of_getElem?_modify {blocks : List (List String)} {index place : Nat}
    {name : String} {block : List String}
    (found : (blocks.modify index (· ++ [name]))[place]? = some block) :
    ∃ old, blocks[place]? = some old ∧
      ((place = index ∧ block = old ++ [name]) ∨ (place ≠ index ∧ block = old)) := by
  rw [List.getElem?_modify] at found
  obtain ⟨old, at_place, rfl⟩ := Option.map_eq_some_iff.mp found
  refine ⟨old, at_place, ?_⟩
  by_cases here : place = index
  · exact .inl ⟨here, if_pos here.symm⟩
  · exact .inr ⟨here, if_neg (Ne.symm here)⟩

theorem length_le_roundNames {rounds : List (List (List String))}
    (busy : ∀ blocks ∈ rounds, blocks.flatten ≠ []) :
    rounds.length ≤ (roundNames rounds).length := by
  induction rounds with
  | nil => simp
  | cons blocks rest ih =>
      have first := List.length_pos_iff.mpr (busy blocks List.mem_cons_self)
      have later := ih fun other listed => busy other (List.mem_cons_of_mem blocks listed)
      rw [roundNames_cons, List.length_cons, List.length_append]
      omega

/-! ## One round -/

/-- A round as far as it has come: what is before the resume point has what it needs, what
is after it has nothing, and the resume point itself has room if it may have any. -/
structure PartialRound (schema : Schema) (group : Sequence) (progress : Progress)
    (blocks : List (List String)) : Prop extends IsRound schema group.particles blocks where
  counts : progress.counts = blocks.map fun block => min block.length countLimit
  within : ∀ (index : Nat) (particle : Particle) (block : List String),
    group.particles[index]? = some particle → blocks[index]? = some block →
    ∀ max ∈ particle.occurs.max, block.length ≤ max
  passed : ∀ (index : Nat) (particle : Particle) (block : List String),
    group.particles[index]? = some particle → blocks[index]? = some block →
    index < progress.nextChild → particle.occurs.min ≤ block.length
  ahead : ∀ (index : Nat) (block : List String), progress.nextChild < index →
    blocks[index]? = some block → block = []
  room : ∀ particle, group.particles[progress.nextChild]? = some particle →
    particle.occurs.max ≠ some 0 →
    particle.occurs.exhausted (progress.count progress.nextChild) = false

section Round

variable {schema : Schema} {group : Sequence} {progress : Progress}
  {blocks : List (List String)}

theorem PartialRound.count_eq (round : PartialRound schema group progress blocks) {index : Nat}
    {block : List String} (place : blocks[index]? = some block) :
    progress.count index = min block.length countLimit := by
  simp [Progress.count, round.counts, place]

theorem PartialRound.exists_block (round : PartialRound schema group progress blocks)
    {index : Nat} {particle : Particle} (place : group.particles[index]? = some particle) :
    ∃ block, blocks[index]? = some block := by
  have inside : index < blocks.length := by
    rw [round.length]
    exact (List.getElem?_eq_some_iff.mp place).1
  exact ⟨_, List.getElem?_eq_getElem inside⟩

/-- Past the resume point nothing has been counted. -/
theorem PartialRound.count_ahead (round : PartialRound schema group progress blocks) {index : Nat}
    {particle : Particle} (place : group.particles[index]? = some particle)
    (after : progress.nextChild < index) : progress.count index = 0 := by
  obtain ⟨block, found⟩ := round.exists_block place
  rw [round.count_eq found, round.ahead index block after found]
  rfl

/-- A round in which nothing has come. -/
theorem partialRound_empty (counts : progress.counts = group.particles.map fun _ => 0)
    (first : progress.nextChild = 0) :
    PartialRound schema group progress (group.particles.map fun _ => []) := by
  have zero (index : Nat) : progress.count index = 0 := by
    rw [Progress.count, counts, List.getD_eq_getElem?_getD, List.getElem?_map]
    cases group.particles[index]? <;> rfl
  have empty {index : Nat} {block : List String}
      (listed : (group.particles.map fun _ => ([] : List String))[index]? = some block) :
      block = [] := by
    rw [List.getElem?_map, Option.map_eq_some_iff] at listed
    obtain ⟨-, -, rfl⟩ := listed
    rfl
  refine { length := by simp, accepted := ?_, counts := by simp [counts], within := ?_
           passed := ?_, ahead := fun _ _ _ => empty, room := ?_ }
  · intro index particle block place listed name bad
    rw [empty listed] at bad
    cases bad
  · intro index particle block place listed max bound
    rw [empty listed]
    exact Nat.zero_le max
  · intro index particle block place listed before
    omega
  · intro particle place permitted
    rw [zero]
    exact (Occurs.not_exhausted_zero_iff _).mpr permitted

variable {name : String} {index : Nat} {particle : Particle} {element : ElementId}

theorem Takes.accepts (takes : Takes schema group progress name index particle element) :
    particle.term.Accepts schema name :=
  (findNamed?_isSome_iff schema _ name).mp (by simp [takes.found])

/-- A particle that takes a name, and may have any, has room for it. -/
theorem PartialRound.not_exhausted (round : PartialRound schema group progress blocks)
    (takes : Takes schema group progress name index particle element)
    (permitted : particle.occurs.max ≠ some 0) :
    particle.occurs.exhausted (progress.count index) = false := by
  by_cases resumes : index = progress.nextChild
  · subst resumes
    exact round.room particle takes.place permitted
  · have resumed := takes.resumed
    rw [round.count_ahead takes.place (by omega)]
    exact (Occurs.not_exhausted_zero_iff _).mpr permitted

/-- A name that is added to the block of a particle that accepts it keeps a round. -/
theorem isRound_modify {particles : List Particle} (round : IsRound schema particles blocks)
    (place : particles[index]? = some particle) (accepts : particle.term.Accepts schema name) :
    IsRound schema particles (blocks.modify index (· ++ [name])) := by
  refine ⟨by simp [round.length], ?_⟩
  intro spot other block at_other listed given member
  obtain ⟨old, found, ⟨rfl, rfl⟩ | ⟨-, rfl⟩⟩ := exists_of_getElem?_modify listed
  · cases place.symm.trans at_other
    rcases List.mem_append.mp member with earlier | new
    · exact round.accepted spot particle old at_other found given earlier
    · rw [List.mem_singleton.mp new]
      exact accepts
  · exact round.accepted spot other block at_other found given member

theorem PartialRound.counts_take (round : PartialRound schema group progress blocks)
    {block : List String} (found : blocks[index]? = some block) (occurs : Occurs) :
    (progress.take index occurs).counts =
      (blocks.modify index (· ++ [name])).map fun block => min block.length countLimit := by
  have inside : index < blocks.length := (List.getElem?_eq_some_iff.mp found).1
  apply List.ext_getElem?
  intro place
  rw [Progress.counts_take, List.getElem?_set, List.getElem?_map, List.getElem?_modify,
    round.counts, List.getElem?_map]
  by_cases here : index = place
  · subst here
    rw [found]
    simp [inside, round.count_eq found, bump_min]
  · simp [here]

/-- Below its limit a counter says the length of its block, so the particle that takes a name
is below its maximum. -/
theorem PartialRound.length_lt (round : PartialRound schema group progress blocks)
    (takes : Takes schema group progress name index particle element)
    (permitted : particle.occurs.max ≠ some 0)
    (counting : ∀ max ∈ particle.occurs.max, progress.count index < countLimit)
    {block : List String} (found : blocks[index]? = some block) :
    ∀ max ∈ particle.occurs.max, block.length < max := by
  intro max bound
  have unexhausted := round.not_exhausted takes permitted
  have below := (Occurs.not_exhausted_iff _ _).mp unexhausted max bound
  have counts := counting max bound
  rw [round.count_eq found] at below counts
  omega

/-- What comes before the particle that takes a name has what it needs. -/
theorem PartialRound.passed_before (round : PartialRound schema group progress blocks)
    (takes : Takes schema group progress name index particle element) {place : Nat}
    {other : Particle} {block : List String} (at_place : group.particles[place]? = some other)
    (found : blocks[place]? = some block) (before : place < index) :
    other.occurs.min ≤ block.length := by
  by_cases earlier : place < progress.nextChild
  · exact round.passed place other block at_place found earlier
  · have met := (takes.passed place other (by omega) before at_place).2
    have enough := (Occurs.satisfied_iff _ _).mp met
    rw [round.count_eq found] at enough
    omega

/-- Taking a name adds it to the block of its particle. -/
theorem PartialRound.take (round : PartialRound schema group progress blocks)
    (takes : Takes schema group progress name index particle element)
    (ordered : ∀ max ∈ particle.occurs.max, particle.occurs.min ≤ max)
    (permitted : particle.occurs.max ≠ some 0)
    (counting : ∀ max ∈ particle.occurs.max, progress.count index < countLimit) :
    PartialRound schema group (progress.take index particle.occurs)
      (blocks.modify index (· ++ [name])) := by
  have resumed := takes.resumed
  obtain ⟨taken, at_index⟩ := round.exists_block takes.place
  have next := Progress.nextChild_take progress index particle.occurs
  refine { isRound_modify round.toIsRound takes.place takes.accepts with
           counts := round.counts_take at_index particle.occurs, within := ?_, passed := ?_
           ahead := ?_, room := ?_ }
  · intro place other block at_place listed max bound
    obtain ⟨old, found, ⟨rfl, rfl⟩ | ⟨-, rfl⟩⟩ := exists_of_getElem?_modify listed
    · cases takes.place.symm.trans at_place
      rw [List.length_append, List.length_singleton]
      exact round.length_lt takes permitted counting found max bound
    · exact round.within place other block at_place found max bound
  · intro place other block at_place listed before
    rw [next] at before
    obtain ⟨old, found, ⟨rfl, rfl⟩ | ⟨ne, rfl⟩⟩ := exists_of_getElem?_modify listed
    · -- matching moves past a particle when its maximum is reached
      cases takes.place.symm.trans at_place
      split at before
      · rename_i full
        obtain ⟨max, bound, reached⟩ := (Occurs.exhausted_iff _ _).mp full
        have := ordered max bound
        have := bump_le (progress.count place)
        rw [round.count_eq found] at this reached
        rw [List.length_append, List.length_singleton]
        omega
      · omega
    · refine round.passed_before takes at_place found ?_
      split at before <;> omega
  · intro place block after listed
    rw [next] at after
    obtain ⟨old, found, ⟨here, -⟩ | ⟨-, rfl⟩⟩ := exists_of_getElem?_modify listed
    · split at after <;> omega
    · refine round.ahead place block ?_ found
      split at after <;> omega
  · intro other at_next allowed
    rw [next] at at_next ⊢
    split at at_next
    · rename_i full
      rw [if_pos full, Progress.count_take_of_ne _ (by omega),
        round.count_ahead at_next (by omega)]
      exact (Occurs.not_exhausted_zero_iff _).mpr allowed
    · rename_i spare
      have inside : index < progress.counts.length := by
        rw [round.counts, List.length_map]
        exact (List.getElem?_eq_some_iff.mp at_index).1
      cases takes.place.symm.trans at_next
      rw [if_neg spare, Progress.count_take_self _ inside]
      exact (Bool.not_eq_true _).mp spare

theorem PartialRound.flatten_take (round : PartialRound schema group progress blocks)
    (takes : Takes schema group progress name index particle element) :
    (blocks.modify index (· ++ [name])).flatten = blocks.flatten ++ [name] := by
  have resumed := takes.resumed
  apply flatten_modify
  · rw [round.length]
    exact (List.getElem?_eq_some_iff.mp takes.place).1
  · intro later block after found
    exact round.ahead later block (by omega) found

/-- A round in which nothing required is left is full. -/
theorem PartialRound.isFullRound (round : PartialRound schema group progress blocks)
    (met : ∀ index particle, progress.nextChild ≤ index →
      group.particles[index]? = some particle →
      particle.occurs.satisfied (progress.count index) = true) :
    IsFullRound schema group.particles blocks := by
  refine { round.toIsRound with counted := ?_ }
  intro index particle block place found
  refine ⟨?_, round.within index particle block place found⟩
  by_cases before : index < progress.nextChild
  · exact round.passed index particle block place found before
  · have enough := (Occurs.satisfied_iff _ _).mp (met index particle (by omega) place)
    rw [round.count_eq found] at enough
    omega

end Round

/-! ## All rounds -/

/-- The names are some full rounds and the one underway, and the counters say so. -/
structure Division (schema : Schema) (group : Sequence) (progress : Progress)
    (names : List String) (rounds : List (List (List String))) (current : List (List String)) :
    Prop where
  names_eq : names = roundNames rounds ++ current.flatten
  full : ∀ blocks ∈ rounds, IsFullRound schema group.particles blocks
  repeats : progress.repeats = min rounds.length countLimit
  left : group.occurs.exhausted progress.repeats = false
  underway : PartialRound schema group progress current
  /-- Neither a full round nor one that is past its first particle is empty. -/
  busy : (∀ blocks ∈ rounds, blocks.flatten ≠ []) ∧
    (progress.nextChild ≠ 0 → current.flatten ≠ [])

/-- Names whose rounds the counters can tell: the ranges of the particles are in order, none
of the names belongs to a particle that may not occur, and no maximum lies beyond what is
counted. -/
structure Orderly (schema : Schema) (group : Sequence) (names : List String) : Prop where
  ordered : ∀ particle ∈ group.particles, ∀ max ∈ particle.occurs.max, particle.occurs.min ≤ max
  permitted : ∀ particle ∈ group.particles, particle.occurs.max = some 0 →
    ∀ name ∈ names, ¬ particle.term.Accepts schema name
  countable : names.length ≤ countLimit ∨
    ∀ particle ∈ group.particles, ∀ max ∈ particle.occurs.max, max ≤ countLimit

section All

variable {schema : Schema} {group : Sequence} {progress : Progress} {names : List String}
  {rounds : List (List (List String))} {current : List (List String)} {name : String}

theorem Orderly.of_concat (orderly : Orderly schema group (names ++ [name])) :
    Orderly schema group names where
  ordered := orderly.ordered
  permitted := fun particle listed none other member =>
    orderly.permitted particle listed none other (List.mem_append_left _ member)
  countable := orderly.countable.imp_left fun few => by
    rw [List.length_append] at few
    omega

theorem division_start (left : group.occurs.exhausted 0 = false) :
    Division schema group (Progress.start (some (.sequence group))) [] []
      (group.particles.map fun _ => []) where
  names_eq := by simp
  full := by simp
  repeats := rfl
  left := left
  underway := partialRound_empty rfl rfl
  busy := ⟨by simp, fun moved => absurd rfl moved⟩

/-- No block is longer than all names together. -/
theorem Division.count_le (division : Division schema group progress names rounds current)
    {index : Nat} {particle : Particle} (place : group.particles[index]? = some particle) :
    progress.count index ≤ names.length := by
  obtain ⟨block, found⟩ := division.underway.exists_block place
  have part := (List.sublist_flatten_of_mem (List.mem_of_getElem? found)).length_le
  rw [division.underway.count_eq found, division.names_eq, List.length_append]
  omega

/-- One more name in the round underway. -/
theorem Division.take (division : Division schema group progress names rounds current)
    (orderly : Orderly schema group (names ++ [name])) {index : Nat} {particle : Particle}
    {element : ElementId} (takes : Takes schema group progress name index particle element) :
    Division schema group (progress.take index particle.occurs) (names ++ [name]) rounds
      (current.modify index (· ++ [name])) := by
  have listed := List.mem_of_getElem? takes.place
  have permitted : particle.occurs.max ≠ some 0 := by
    intro none
    exact orderly.permitted particle listed none name (by simp) takes.accepts
  have counting : ∀ max ∈ particle.occurs.max, progress.count index < countLimit := by
    intro max bound
    rcases orderly.countable with few | small
    · have := division.count_le takes.place
      rw [List.length_append, List.length_singleton] at few
      omega
    · have unexhausted := division.underway.not_exhausted takes permitted
      have := (Occurs.not_exhausted_iff _ _).mp unexhausted max bound
      have := small particle listed max bound
      omega
  have flat := division.underway.flatten_take takes
  exact
    { names_eq := by rw [flat, division.names_eq, List.append_assoc]
      full := division.full
      repeats := by rw [Progress.repeats_take, division.repeats]
      left := by rw [Progress.repeats_take]; exact division.left
      underway := division.underway.take takes (orderly.ordered particle listed) permitted counting
      busy := ⟨division.busy.1, fun _ => by rw [flat]; simp⟩ }

/-- All names, with the round underway as the last one. -/
theorem Division.names_eq_roundNames
    (division : Division schema group progress names rounds current) :
    names = roundNames (rounds ++ [current]) := by
  rw [roundNames_append, division.names_eq]
  simp [roundNames]

/-- All rounds are full when nothing required is left of the one underway. -/
theorem Division.full_concat (division : Division schema group progress names rounds current)
    (met : ∀ index particle, progress.nextChild ≤ index →
      group.particles[index]? = some particle →
      particle.occurs.satisfied (progress.count index) = true) :
    ∀ blocks ∈ rounds ++ [current], IsFullRound schema group.particles blocks := by
  intro blocks listed
  rcases List.mem_append.mp listed with earlier | last
  · exact division.full blocks earlier
  · rw [List.mem_singleton.mp last]
    exact division.underway.isFullRound met

/-- The round underway ends and the next begins. -/
theorem Division.nextRound (division : Division schema group progress names rounds current)
    (ended : RoundOver schema group progress name) (begun : progress.nextChild ≠ 0)
    (again : group.occurs.exhausted (bump progress.repeats) = false) :
    Division schema group progress.nextRound names (rounds ++ [current])
      (group.particles.map fun _ => []) := by
  have cleared : progress.nextRound.counts = group.particles.map fun _ => 0 := by
    apply List.ext_getElem
    · simp [Progress.nextRound, division.underway.counts, division.underway.length]
    · simp [Progress.nextRound]
  have flat : (group.particles.map fun _ => ([] : List String)).flatten = [] := by simp
  exact
    { names_eq := by
        rw [flat, List.append_nil]
        exact division.names_eq_roundNames
      full := division.full_concat fun index particle resumed place =>
        (ended index particle resumed place).2
      repeats := by
        rw [Progress.repeats_nextRound, division.repeats, bump_min, List.length_append,
          List.length_singleton]
      left := again
      underway := partialRound_empty cleared rfl
      busy := by
        refine ⟨?_, fun moved => absurd rfl moved⟩
        intro blocks listed
        rcases List.mem_append.mp listed with earlier | new
        · exact division.busy.1 blocks earlier
        · rw [List.mem_singleton.mp new]
          exact division.busy.2 begun }

/-- **Whatever names a sequence takes fall into rounds.** -/
theorem exists_division_of_follows
    (follows : Follows schema (some (.sequence group)) (Progress.start (some (.sequence group)))
      names progress)
    (left : group.occurs.exhausted 0 = false) (orderly : Orderly schema group names) :
    ∃ rounds current, Division schema group progress names rounds current := by
  induction names using List.reverseRecOn generalizing progress with
  | nil =>
      cases follows
      exact ⟨[], _, division_start left⟩
  | append_singleton names name ih =>
      obtain ⟨middle, element, earlier, taken⟩ := follows_concat.mp follows
      obtain ⟨rounds, current, division⟩ := ih earlier orderly.of_concat
      obtain ⟨-, ⟨index, particle, takes, rfl⟩ |
          ⟨ended, begun, again, index, particle, takes, rfl⟩⟩ :=
        (matchSequence_ok_iff schema group name middle progress element).mp taken
      · exact ⟨_, _, division.take orderly takes⟩
      · exact ⟨_, _, (division.nextRound ended begun again).take orderly takes⟩

/-- A sequence that may not occur takes nothing. -/
theorem eq_nil_of_follows_exhausted
    (follows : Follows schema (some (.sequence group)) (Progress.start (some (.sequence group)))
      names progress)
    (nothing : group.occurs.exhausted 0 = true) : names = [] := by
  cases names with
  | nil => rfl
  | cons name rest =>
      obtain ⟨middle, element, taken, -⟩ := follows
      obtain ⟨left, -⟩ := (matchSequence_ok_iff schema group name _ middle element).mp taken
      exact absurd (nothing.symm.trans left) (by simp)

/-- Whatever names a choice takes are those of alternatives, and it has counted them. -/
theorem choice_of_follows {group : Choice}
    (follows : Follows schema (some (.choice group)) (Progress.start (some (.choice group)))
      names progress) :
    progress.repeats = min names.length countLimit ∧
      (∀ name ∈ names, ∃ element ∈ group.alternatives, schema.elementName? element = some name) ∧
      ∀ max ∈ group.occurs.max, names.length ≤ countLimit ∨ max ≤ countLimit →
        names.length ≤ max := by
  induction names using List.reverseRecOn generalizing progress with
  | nil =>
      cases follows
      exact ⟨rfl, by simp, fun max _ _ => Nat.zero_le max⟩
  | append_singleton names name ih =>
      obtain ⟨middle, element, earlier, taken⟩ := follows_concat.mp follows
      obtain ⟨counted, named, bounded⟩ := ih earlier
      obtain ⟨left, found, rfl⟩ :=
        (matchChoice_ok_iff schema group name middle progress element).mp taken
      rw [List.length_append, List.length_singleton]
      refine ⟨?_, ?_, ?_⟩
      · show bump middle.repeats = _
        rw [counted, bump_min]
      · intro given listed
        rcases List.mem_append.mp listed with older | new
        · exact named given older
        · rw [List.mem_singleton.mp new]
          exact (findNamed?_isSome_iff schema _ name).mp (by simp [found])
      · intro max bound countable
        have below := (Occurs.not_exhausted_iff _ _).mp left max bound
        omega

/-- Other content takes nothing. -/
theorem eq_nil_of_follows_other {content : Option Content}
    (notSequence : ∀ group, content ≠ some (.sequence group))
    (notChoice : ∀ group, content ≠ some (.choice group)) {before : Progress}
    (follows : Follows schema content before names progress) : names = [] := by
  cases names with
  | nil => rfl
  | cons name rest =>
      obtain ⟨middle, element, taken, -⟩ := follows
      unfold matchContent at taken
      split at taken
      · exact absurd rfl (notSequence _)
      · exact absurd rfl (notChoice _)
      · cases taken

end All

end ContentAssist.Replay
