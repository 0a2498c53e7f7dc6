/-
# ContentAssist.Replay.Progress -- how far the children of one element have got

The children of an open element are matched against its content model as they come, without
looking ahead and without going back.  `Progress` is all that is remembered.

A name is matched against a sequence from the resume point on, and the first particle whose
term has the name takes it.  If none does and nothing required is left in the round, the next
round begins and the name is tried once more from the top.  The counters move even when the
name is refused.

The other walk over a sequence, `sequenceOffers`, lists what could come next: the elements up
to the first particle still below its minimum, and, when the round could end here and another
may follow, those that could open the next one.
-/
import ContentAssist.Schema.Lookup

namespace ContentAssist.Replay

set_option autoImplicit false

open Schema

/-! ## Reasons to refuse a tag -/

/-- Why the document stopped agreeing with the schema. -/
inductive Reason where
  | unknownRoot
  | endTagUnfinished
  | sequenceExhausted
  | requiredSkipped
  | requiredMissing
  | noParticle
  | choiceExhausted
  | noAlternative
  | noChildren
  | missingDeclaration
  deriving DecidableEq, Repr, Inhabited

def Reason.message : Reason → String
  | .unknownRoot => "unknown root element"
  | .endTagUnfinished => "end tag still being typed"
  | .sequenceExhausted => "sequence exhausted"
  | .requiredSkipped => "required element skipped"
  | .requiredMissing => "required element missing"
  | .noParticle => "no particle matches"
  | .choiceExhausted => "choice exhausted"
  | .noAlternative => "no matching alternative"
  | .noChildren => "parent does not accept child elements"
  | .missingDeclaration => "missing element declaration"

/-! ## Counters -/

structure Progress where
  /-- Matches of each particle in the current round, by position. -/
  counts : List Nat := []
  /-- The particle to resume at. -/
  nextChild : Nat := 0
  /-- Rounds finished, or alternatives taken. -/
  repeats : Nat := 0
  deriving DecidableEq, Repr, Inhabited

namespace Progress

def start : Option Content → Progress
  | some (.sequence group) => { counts := group.particles.map fun _ => 0 }
  | _ => {}

def count (progress : Progress) (index : Nat) : Nat :=
  progress.counts.getD index 0

def nextRound (progress : Progress) : Progress :=
  { counts := progress.counts.map fun _ => 0, nextChild := 0, repeats := bump progress.repeats }

/-- Resume at the particle that matched, or past it when it is used up. -/
def take (progress : Progress) (index : Nat) (occurs : Occurs) : Progress :=
  -- counted before it is asked, so a particle that allows nothing takes one name all the same
  let count := bump (progress.count index)
  { progress with
    counts := progress.counts.set index count
    nextChild := if occurs.exhausted count then index + 1 else index }

def isUnderway (progress : Progress) : Bool :=
  0 < progress.nextChild || progress.counts.any (0 < ·)

end Progress

/-! ## Matching a sequence -/

/-- How a search through the rest of a round ended. -/
inductive Search where
  /-- The particle at this position took the name; `skipped` when a required one
  was passed over. -/
  | taken (index : Nat) (occurs : Occurs) (element : ElementId) (skipped : Bool)
  /-- Nothing took the name and something required is missing. -/
  | incomplete
  /-- Nothing took the name and the round may end here. -/
  | roundOver
  deriving DecidableEq, Repr, Inhabited

/-- Search some particles, the first of which is at position `index`. -/
def search (schema : Schema) (progress : Progress) (name : String) :
    (skipped : Bool) → (index : Nat) → List Particle → Search
  | skipped, _, [] => if skipped then .incomplete else .roundOver
  | skipped, index, particle :: rest =>
      match schema.findNamed? particle.term.elements name with
      | some element => .taken index particle.occurs element skipped
      | none =>
          let unmet := !particle.occurs.satisfied (progress.count index)
          search schema progress name (skipped || unmet) (index + 1) rest

/-- How an attempt at one name in one round ended. -/
inductive Attempt where
  | accepted (element : ElementId)
  | refused (reason : Reason)
  /-- The name was not in the rest of the round, and the next round has begun. -/
  | wrapped
  deriving DecidableEq, Repr, Inhabited

def attempt (schema : Schema) (group : Sequence) (name : String) (progress : Progress) :
    Progress × Attempt :=
  if group.occurs.exhausted progress.repeats then (progress, .refused .sequenceExhausted)
  else
    match search schema progress name false progress.nextChild
        (group.particles.drop progress.nextChild) with
    | .taken index occurs element skipped =>
        (progress.take index occurs,
          if skipped then .refused .requiredSkipped else .accepted element)
    | .incomplete => (progress, .refused .requiredMissing)
    | .roundOver => (progress.nextRound, .wrapped)

def matchSequence (schema : Schema) (group : Sequence) (name : String) (progress : Progress) :
    Progress × Except Reason ElementId :=
  match attempt schema group name progress with
  | (after, .accepted element) => (after, .ok element)
  | (after, .refused reason) => (after, .error reason)
  | (after, .wrapped) =>
      -- a round that begins and matches nothing is given up
      if progress.nextChild = 0 then (after, .error .noParticle)
      else
        match attempt schema group name after with
        | (final, .accepted element) => (final, .ok element)
        | (final, .refused reason) => (final, .error reason)
        | (final, .wrapped) => (final, .error .noParticle)

/-! ## Matching any content -/

def matchChoice (schema : Schema) (group : Choice) (name : String) (progress : Progress) :
    Progress × Except Reason ElementId :=
  if group.occurs.exhausted progress.repeats then (progress, .error .choiceExhausted)
  else
    match schema.findNamed? group.alternatives name with
    | some element => ({ progress with repeats := bump progress.repeats }, .ok element)
    | none => (progress, .error .noAlternative)

def matchContent (schema : Schema) (content : Option Content) (name : String)
    (progress : Progress) : Progress × Except Reason ElementId :=
  match content with
  | some (.sequence group) => matchSequence schema group name progress
  | some (.choice group) => matchChoice schema group name progress
  | _ => (progress, .error .noChildren)

/-! ## What may come next -/

/-- The members up to and including the first that is as wanted. -/
def takeThrough {α : Type} (wanted : α → Bool) : List α → List α
  | [] => []
  | a :: rest => if wanted a then [a] else a :: takeThrough wanted rest

def remaining (group : Sequence) (progress : Progress) : List (Particle × Nat) :=
  group.particles.zipIdx.drop progress.nextChild

def isUnmet (progress : Progress) (entry : Particle × Nat) : Bool :=
  !entry.1.occurs.satisfied (progress.count entry.2)

def mayEndRound (group : Sequence) (progress : Progress) : Bool :=
  (remaining group progress).all fun entry => !isUnmet progress entry

def currentOffers (group : Sequence) (progress : Progress) : List ElementId :=
  (takeThrough (isUnmet progress) (remaining group progress)).flatMap fun entry =>
    entry.1.term.elements

def mayRepeat (group : Sequence) (progress : Progress) : Bool :=
  mayEndRound group progress && progress.isUnderway &&
    !group.occurs.exhausted (bump progress.repeats)

/-- Add the elements of a particle that are not offered yet. -/
def addOffers (offered : List ElementId) (particle : Particle) : List ElementId :=
  offered ++ particle.term.elements.filter fun id => !offered.contains id

def sequenceOffers (group : Sequence) (progress : Progress) : List ElementId :=
  let current := currentOffers group progress
  if mayRepeat group progress then
    -- the next round starts from fresh counters
    (takeThrough (fun particle => decide (0 < particle.occurs.min)) group.particles).foldl
      addOffers current
  else current

def offers (content : Option Content) (progress : Progress) : List ElementId :=
  match content with
  | some (.sequence group) => sequenceOffers group progress
  | some (.choice group) =>
      if group.occurs.exhausted progress.repeats then [] else group.alternatives
  | _ => []

def mayClose (content : Option Content) (progress : Progress) : Bool :=
  match content with
  | some (.sequence group) => mayEndRound group progress
  | some (.choice group) => group.occurs.satisfied progress.repeats
  | _ => true

end ContentAssist.Replay
