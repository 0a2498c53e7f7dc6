/-
# ContentAssist.Proofs.ContentModel -- the words of a content model

What a content model says about the names of an element's children, without any
matching: the plain meaning that replays are compared with.

A *round* of a sequence gives each particle in turn a block of names that its term
accepts.  A word of a sequence is a number of full rounds, each giving every particle
a count within its range, and the number itself is within the range of the sequence.
A word of a choice is a list of names of alternatives of a length within its range.
Other content has no children.
-/
import ContentAssist.Schema.Lookup

namespace ContentAssist.Schema

set_option autoImplicit false

/-! ## Ranges -/

/-- A number of occurrences within the range. -/
def Occurs.Allows (occurs : Occurs) (count : Nat) : Prop :=
  occurs.min ≤ count ∧ ∀ max ∈ occurs.max, count ≤ max

/-- A range that is not empty and leaves room for an occurrence. -/
def Occurs.Sound (occurs : Occurs) : Prop :=
  ∀ max ∈ occurs.max, occurs.min ≤ max ∧ 1 ≤ max

/-- A range that is not empty, though it may allow nothing, and whose end can be counted
up to. -/
def Occurs.Proper (occurs : Occurs) : Prop :=
  ∀ max ∈ occurs.max, occurs.min ≤ max ∧ max ≤ countLimit

instance (occurs : Occurs) (count : Nat) : Decidable (occurs.Allows count) :=
  inferInstanceAs (Decidable (_ ∧ _))

instance (occurs : Occurs) : Decidable occurs.Sound :=
  inferInstanceAs (Decidable (∀ max ∈ occurs.max, _))

instance (occurs : Occurs) : Decidable occurs.Proper :=
  inferInstanceAs (Decidable (∀ max ∈ occurs.max, _))

theorem Occurs.not_exhausted_iff (occurs : Occurs) (count : Nat) :
    occurs.exhausted count = false ↔ ∀ max ∈ occurs.max, count < max := by
  obtain ⟨min, _ | max⟩ := occurs <;> simp [exhausted]

/-- A range is used up from the start only if it allows nothing. -/
theorem Occurs.not_exhausted_zero_iff (occurs : Occurs) :
    occurs.exhausted 0 = false ↔ occurs.max ≠ some 0 := by
  obtain ⟨min, _ | _ | max⟩ := occurs <;> simp [exhausted]

theorem Occurs.Sound.not_exhausted_zero {occurs : Occurs} (sound : occurs.Sound) :
    occurs.exhausted 0 = false := by
  rw [Occurs.not_exhausted_iff]
  intro max bound
  exact (sound max bound).2

theorem Occurs.Sound.ne_zero {occurs : Occurs} (sound : occurs.Sound) : occurs.max ≠ some 0 :=
  (Occurs.not_exhausted_zero_iff occurs).mp sound.not_exhausted_zero

/-! ## All content of a schema -/

/-- The content models of a schema's complex types. -/
def contents (schema : Schema) : List Content :=
  schema.types.filterMap fun type => type.complex?.map ComplexType.content

theorem mem_contents_of_content? {schema : Schema} {type : TypeId} {content : Content}
    (found : schema.content? type = some content) : content ∈ schema.contents := by
  simp only [content?, complex?, type?, Option.map_eq_some_iff, Option.bind_eq_some_iff] at found
  obtain ⟨complex, ⟨decl, listed, same⟩, rfl⟩ := found
  exact List.mem_filterMap.mpr ⟨decl, List.mem_of_getElem? listed, by simp [same]⟩

/-- Every range that matching looks at is sound. -/
def Content.RangesSound : Content → Prop
  | .sequence group => group.occurs.Sound ∧ ∀ particle ∈ group.particles, particle.occurs.Sound
  | .choice group => group.occurs.Sound
  | _ => True

/-- Every range that matching looks at is proper. -/
def Content.RangesProper : Content → Prop
  | .sequence group => group.occurs.Proper ∧ ∀ particle ∈ group.particles, particle.occurs.Proper
  | .choice group => group.occurs.Proper
  | _ => True

/-- A sequence may occur at all. -/
def Content.Repeatable : Content → Prop
  | .sequence group => group.occurs.max ≠ some 0
  | _ => True

instance : (content : Content) → Decidable content.RangesSound
  | .sequence _ => inferInstanceAs (Decidable (_ ∧ _))
  | .choice group => inferInstanceAs (Decidable group.occurs.Sound)
  | .empty | .simple _ | .all _ => .isTrue trivial

instance : (content : Content) → Decidable content.RangesProper
  | .sequence _ => inferInstanceAs (Decidable (_ ∧ _))
  | .choice group => inferInstanceAs (Decidable group.occurs.Proper)
  | .empty | .simple _ | .all _ => .isTrue trivial

instance : (content : Content) → Decidable content.Repeatable
  | .sequence group => inferInstanceAs (Decidable (group.occurs.max ≠ some 0))
  | .choice _ | .empty | .simple _ | .all _ => .isTrue trivial

/-! ## Words -/

/-- Some element the term may stand for has the name. -/
def Term.Accepts (schema : Schema) (term : Term) (name : String) : Prop :=
  ∃ element ∈ term.elements, schema.elementName? element = some name

/-- To each particle in turn a block of names that it accepts. -/
structure IsRound (schema : Schema) (particles : List Particle) (blocks : List (List String)) :
    Prop where
  length : blocks.length = particles.length
  accepted : ∀ (index : Nat) (particle : Particle) (block : List String),
    particles[index]? = some particle → blocks[index]? = some block →
    ∀ name ∈ block, particle.term.Accepts schema name

/-- A round that gives every particle a count within its range. -/
structure IsFullRound (schema : Schema) (particles : List Particle)
    (blocks : List (List String)) : Prop extends IsRound schema particles blocks where
  counted : ∀ (index : Nat) (particle : Particle) (block : List String),
    particles[index]? = some particle → blocks[index]? = some block →
    particle.occurs.Allows block.length

instance (schema : Schema) (term : Term) (name : String) : Decidable (term.Accepts schema name) :=
  inferInstanceAs (Decidable (∃ element ∈ term.elements, _))

theorem isFullRound_iff_zip (schema : Schema) (particles : List Particle)
    (blocks : List (List String)) :
    IsFullRound schema particles blocks ↔
      blocks.length = particles.length ∧ ∀ pair ∈ particles.zip blocks,
        (∀ name ∈ pair.2, pair.1.term.Accepts schema name) ∧
          pair.1.occurs.Allows pair.2.length := by
  constructor
  · intro round
    refine ⟨round.length, ?_⟩
    rintro ⟨particle, block⟩ listed
    obtain ⟨index, place⟩ := List.getElem?_of_mem listed
    obtain ⟨left, right⟩ := List.getElem?_zip_eq_some.mp place
    exact ⟨round.accepted index particle block left right,
      round.counted index particle block left right⟩
  · rintro ⟨length, all⟩
    have each {index : Nat} {particle : Particle} {block : List String}
        (left : particles[index]? = some particle) (right : blocks[index]? = some block) :=
      all (particle, block) (List.mem_of_getElem? (List.getElem?_zip_eq_some.mpr ⟨left, right⟩))
    exact
      { length
        accepted := fun _ _ _ left right => (each left right).1
        counted := fun _ _ _ left right => (each left right).2 }

instance (schema : Schema) (particles : List Particle) (blocks : List (List String)) :
    Decidable (IsFullRound schema particles blocks) :=
  decidable_of_iff _ (isFullRound_iff_zip schema particles blocks).symm

/-- The names of some rounds, in order. -/
def roundNames (rounds : List (List (List String))) : List String :=
  rounds.flatten.flatten

/-- The names are a word of a sequence. -/
def Sequence.IsWord (schema : Schema) (group : Sequence) (names : List String) : Prop :=
  ∃ rounds, names = roundNames rounds ∧ group.occurs.Allows rounds.length ∧
    ∀ blocks ∈ rounds, IsFullRound schema group.particles blocks

/-- The names are a word of a choice. -/
def Choice.IsWord (schema : Schema) (group : Choice) (names : List String) : Prop :=
  group.occurs.Allows names.length ∧
    ∀ name ∈ names, ∃ element ∈ group.alternatives, schema.elementName? element = some name

/-- The names are a word of some content; content other than a sequence or a choice has
no children. -/
def IsWord (schema : Schema) (content : Option Content) (names : List String) : Prop :=
  match content with
  | some (.sequence group) => group.IsWord schema names
  | some (.choice group) => group.IsWord schema names
  | _ => names = []

@[simp] theorem roundNames_nil : roundNames [] = [] := rfl

theorem roundNames_cons (blocks : List (List String)) (rounds : List (List (List String))) :
    roundNames (blocks :: rounds) = blocks.flatten ++ roundNames rounds := by
  simp [roundNames]

theorem roundNames_append (front back : List (List (List String))) :
    roundNames (front ++ back) = roundNames front ++ roundNames back := by
  simp [roundNames]

/-! ## A schema to try things on -/

/-- A letter is one or more rounds of a greeting and up to two lines or notes, and a note
is a letter itself.  A stub is a letter of at most one line. -/
def letters : Schema where
  types :=
    [.complex
        { name := some "Letter"
          content := .sequence
            { particles :=
                [⟨.element 1, .once⟩, ⟨.choice { alternatives := [2, 3] }, ⟨0, some 2⟩⟩]
              occurs := .atLeast 1 } },
      .complex
        { name := some "Stub"
          base := some 0
          content := .choice { alternatives := [2], occurs := .optional } },
      .simple {}]
  elements :=
    [{ name := "letter", type := 0 }, { name := "greeting", type := 2 },
      { name := "line", type := 2 }, { name := "note", type := 0 }]
  globals := [0]

end ContentAssist.Schema
