/-
# ContentAssist.Proofs.Tally -- the counters describe the children

A replay remembers of the children of an open element only a few numbers.  This module
says what they mean: the children that came are some full rounds of the content model,
as many as the counter of rounds says, and one current round in which each particle has
as many names as its own counter says.

* `CurrentRound`: the counters of one round, as far as it has come.
* `Tally`: all children, in full rounds and the current one.
* `Tallied`: the same for content of any kind.

Counters stop at a limit, and below it they are exact: a division of few names into rounds
is a tally (`Division.tally`), and so names that content takes are tallied
(`tallied_of_follows`).  Every open element of a replay without a fault has taken the
children it has in the document, so it is tallied with them (`tallied_run`,
`counters_describe_children`).

A child takes at least one token (`size_run_le`), and a token at least one byte, so a text
of fewer than 2^32 bytes never gets to the limit.
-/
import ContentAssist.Proofs.History
import ContentAssist.Proofs.Lexing
import ContentAssist.Proofs.Rounds
import Mathlib.Algebra.Order.Ring.Nat

namespace ContentAssist

set_option autoImplicit false

open Markup Schema Replay

namespace Replay

/-! ## One round -/

/-- A round as far as it has come: what is before the resume point has what it needs, what
is after it has nothing, and the resume point itself has room. -/
structure CurrentRound (schema : Schema) (group : Sequence) (progress : Progress)
    (blocks : List (List String)) : Prop extends IsRound schema group.particles blocks where
  counts : progress.counts = blocks.map List.length
  within : ∀ (index : Nat) (particle : Particle), group.particles[index]? = some particle →
    ∀ max ∈ particle.occurs.max, progress.count index ≤ max
  passed : ∀ (index : Nat) (particle : Particle), group.particles[index]? = some particle →
    index < progress.nextChild → particle.occurs.min ≤ progress.count index
  ahead : ∀ index, progress.nextChild < index → progress.count index = 0
  room : ∀ particle, group.particles[progress.nextChild]? = some particle →
    particle.occurs.exhausted (progress.count progress.nextChild) = false

section Round

variable {schema : Schema} {group : Sequence} {progress : Progress}
  {blocks : List (List String)}

/-- Short blocks are counted exactly. -/
theorem PartialRound.currentRound (round : PartialRound schema group progress blocks)
    (sound : ∀ particle ∈ group.particles, particle.occurs.Sound)
    (short : ∀ block ∈ blocks, block.length ≤ countLimit) :
    CurrentRound schema group progress blocks := by
  have count {index : Nat} {block : List String} (found : blocks[index]? = some block) :
      progress.count index = block.length := by
    rw [round.count_eq found, Nat.min_eq_left (short block (List.mem_of_getElem? found))]
  refine { round.toIsRound with
           counts := ?_, within := ?_, passed := ?_, ahead := ?_, room := ?_ }
  · rw [round.counts]
    apply List.map_congr_left
    intro block listed
    exact Nat.min_eq_left (short block listed)
  · intro index particle place max bound
    obtain ⟨block, found⟩ := round.exists_block place
    rw [count found]
    exact round.within index particle block place found max bound
  · intro index particle place before
    obtain ⟨block, found⟩ := round.exists_block place
    rw [count found]
    exact round.passed index particle block place found before
  · intro index after
    cases found : blocks[index]? with
    | none => simp [Progress.count, round.counts, found]
    | some block =>
        rw [count found, round.ahead index block after found]
        rfl
  · intro particle place
    exact round.room particle place (sound particle (List.mem_of_getElem? place)).ne_zero

end Round

/-! ## All rounds -/

/-- The names are some full rounds and the current one, and the counters say so. -/
structure Tally (schema : Schema) (group : Sequence) (progress : Progress) (names : List String)
    (rounds : List (List (List String))) (current : List (List String)) : Prop where
  names_eq : names = roundNames rounds ++ current.flatten
  full : ∀ blocks ∈ rounds, IsFullRound schema group.particles blocks
  repeats : progress.repeats = rounds.length
  left : group.occurs.exhausted progress.repeats = false
  ongoing : CurrentRound schema group progress current
  /-- Neither a full round nor one that is past its first particle is empty. -/
  busy : (∀ blocks ∈ rounds, blocks.flatten ≠ []) ∧
    (progress.nextChild ≠ 0 → current.flatten ≠ [])

/-- A division of few names is a tally. -/
theorem Division.tally {schema : Schema} {group : Sequence} {progress : Progress}
    {names : List String} {rounds : List (List (List String))} {current : List (List String)}
    (division : Division schema group progress names rounds current)
    (sound : ∀ particle ∈ group.particles, particle.occurs.Sound)
    (few : names.length ≤ countLimit) :
    Tally schema group progress names rounds current := by
  have parts : names.length = (roundNames rounds).length + current.flatten.length := by
    rw [division.names_eq, List.length_append]
  have short : ∀ block ∈ current, block.length ≤ countLimit := by
    intro block listed
    have part := (List.sublist_flatten_of_mem listed).length_le
    omega
  have repeated : progress.repeats = rounds.length := by
    have bound := length_le_roundNames division.busy.1
    rw [division.repeats, Nat.min_eq_left (by omega)]
  exact
    { names_eq := division.names_eq
      full := division.full
      repeats := repeated
      left := division.left
      ongoing := division.underway.currentRound sound short
      busy := division.busy }

/-! ## Content of any kind -/

/-- The counters describe these children of an element with this content. -/
def Tallied (schema : Schema) (content : Option Content) (progress : Progress)
    (names : List String) : Prop :=
  match content with
  | some (.sequence group) => ∃ rounds current, Tally schema group progress names rounds current
  | some (.choice group) =>
      progress.repeats = names.length ∧ (∀ max ∈ group.occurs.max, progress.repeats ≤ max) ∧
        ∀ name ∈ names, ∃ element ∈ group.alternatives, schema.elementName? element = some name
  | _ => names = []

/-- **Few names that content takes are tallied.** -/
theorem tallied_of_follows {schema : Schema}
    (sound : ∀ content ∈ schema.contents, content.RangesSound) {type : TypeId}
    {names : List String} {progress : Progress}
    (follows : Follows schema (schema.content? type) (Progress.start (schema.content? type))
      names progress)
    (few : names.length ≤ countLimit) :
    Tallied schema (schema.content? type) progress names := by
  unfold Tallied
  split
  · rename_i group content
    rw [content] at follows
    obtain ⟨own, particles⟩ := sound _ (mem_contents_of_content? content)
    have orderly : Orderly schema group names :=
      { ordered := fun particle listed max bound => (particles particle listed max bound).1
        permitted := fun particle listed none => absurd none (particles particle listed).ne_zero
        countable := .inl few }
    obtain ⟨rounds, current, division⟩ :=
      exists_division_of_follows follows own.not_exhausted_zero orderly
    exact ⟨rounds, current, division.tally particles few⟩
  · rename_i group content
    rw [content] at follows
    obtain ⟨counted, named, bounded⟩ := choice_of_follows follows
    rw [Nat.min_eq_left few] at counted
    refine ⟨counted, ?_, named⟩
    intro max bound
    rw [counted]
    exact bounded max bound (.inl few)
  · rename_i notSequence notChoice
    exact eq_nil_of_follows_other notSequence notChoice follows

/-! ## Every open element -/

/-- Each token adds at most one node to the document. -/
theorem size_run_le {schema : Schema} {seen : List Token}
    (valid : (run schema {} seen).fault = none) :
    (run schema {} seen).document.size ≤ seen.length := by
  refine run_induction (P := fun seen replay => replay.document.size ≤ seen.length) ?_ ?_ seen
    valid
  · simp [Document.size]
  · intro seen token replay small faultless
    rw [List.length_append, List.length_singleton]
    cases effect_of_step faultless with
    | kept _ document => rw [document]; omega
    | closed _ _ document => rw [document]; omega
    | root _ _ _ _ _ _ document _ => rw [document, Document.size_append]; omega
    | child _ _ _ _ _ _ _ _ _ document _ => rw [document, Document.size_append]; omega

/-- As long as the counters cannot have reached their limit, every open element is tallied
with the children of its node. -/
theorem tallied_run {schema : Schema}
    (sound : ∀ content ∈ schema.contents, content.RangesSound) {seen : List Token}
    (room : seen.length ≤ countLimit) (valid : (run schema {} seen).fault = none)
    {entry : OpenElement} (listed : entry ∈ (run schema {} seen).stack) :
    Tallied schema (schema.content? entry.type) entry.progress
      ((run schema {} seen).document.childNames entry.node) := by
  have few := (run schema {} seen).document.length_childNames_le entry.node
  have small := size_run_le valid
  exact tallied_of_follows sound ((recorded_run valid).traced.followed entry listed) (by omega)

end Replay

/-- **The counters describe the children that came.**  After any number of tokens of a
text, as long as it agrees with the schema, every open element has a node in the
document, and its counters tally with the names of that node's children. -/
theorem counters_describe_children (schema : Schema)
    (sound : ∀ content ∈ schema.contents, content.RangesSound) (text : String)
    (short : Text.byteLength text.toList < 2 ^ 32) {seen : List Token}
    (front : seen <+: tokens text) (valid : (run schema {} seen).isValid = true) :
    ∀ entry ∈ (run schema {} seen).stack,
      ∃ shadow, (run schema {} seen).document.element? entry.node = some shadow ∧
        Tallied schema (schema.content? entry.type) entry.progress
          (shadow.children.map Document.Element.name) := by
  have room : seen.length ≤ countLimit := by
    have := front.length_le
    have := length_tokens_le text
    have := length_le_byteLength text.toList
    have : countLimit + 1 = 2 ^ 32 := rfl
    omega
  have faultless : (run schema {} seen).fault = none := by simpa [isValid] using valid
  intro entry listed
  obtain ⟨shadow, found, names⟩ := (recorded_run faultless).exists_node listed
  refine ⟨shadow, found, ?_⟩
  rw [names]
  exact tallied_run sound room faultless listed

/-- A letter in its second round, with a note open. -/
theorem letters_counters_describe_children :
    ∃ entry ∈ (ofText letters "<letter><greeting/><line/><greeting/><note><").stack,
      entry.progress = { counts := [1, 1], nextChild := 1, repeats := 1 } ∧
      ∃ shadow, (ofText letters
          "<letter><greeting/><line/><greeting/><note><").document.element? entry.node =
            some shadow ∧
        Tallied letters (letters.content? entry.type) entry.progress
          (shadow.children.map Document.Element.name) := by
  have described := counters_describe_children letters (by decide)
    "<letter><greeting/><line/><greeting/><note><" (by decide +kernel) (List.prefix_refl _)
    (by decide +kernel)
  have stack : (ofText letters "<letter><greeting/><line/><greeting/><note><").stack =
      [{ element := 3, type := 0, nillable := false
         progress := { counts := [0, 0] }, node := 4 },
       { element := 0, type := 0, nillable := false
         progress := { counts := [1, 1], nextChild := 1, repeats := 1 }, node := 0 }] := by
    decide +kernel
  refine ⟨_, by rw [stack]; exact List.mem_cons_of_mem _ List.mem_cons_self, rfl, ?_⟩
  exact described _ (by rw [← ofText, stack]; exact List.mem_cons_of_mem _ List.mem_cons_self)

end ContentAssist
