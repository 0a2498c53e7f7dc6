/-
# ContentAssist.Proofs.Derivation -- the type an element takes on

A type derives from another when a chain of bases leads from the one to the other.
Looking up the chain is cut off after one more step than there are types, and
`isDerivedFrom_iff` says that nothing is lost: a chain that is longer goes through some
type twice, so a shorter one leads to the same place.  `isDerivedFrom_iff_reachable` says the
same of the steps that single types declare.

`HasType` says which type an element takes on: the complex type that its tag names, if
that type derives from the declared one, and the declared type otherwise.  Where type
names are distinct this is what a replay computes (`effectiveType_eq`).
-/
import ContentAssist.Replay.Basic
import Mathlib.Data.Finset.Card
import Mathlib.Data.List.Nodup
import Mathlib.Logic.Relation

namespace ContentAssist.Schema

set_option autoImplicit false

open Markup

/-! ## Chains of bases -/

/-- A chain of bases, perhaps of no step, leads from a type to another. -/
inductive Derives (schema : Schema) : TypeId → TypeId → Prop where
  | refl (id : TypeId) : Derives schema id id
  | base {id middle base : TypeId} (declared : schema.base? id = some middle)
      (rest : Derives schema middle base) : Derives schema id base

/-- The type this many bases up. -/
def ancestor? (schema : Schema) : (steps : Nat) → TypeId → Option TypeId
  | 0, id => some id
  | steps + 1, id => (schema.base? id).bind (ancestor? schema steps)

variable {schema : Schema}

theorem derives_iff_ancestor? (id base : TypeId) :
    Derives schema id base ↔ ∃ steps, schema.ancestor? steps id = some base := by
  constructor
  · intro derives
    induction derives with
    | refl id => exact ⟨0, rfl⟩
    | base declared rest ih =>
        obtain ⟨steps, found⟩ := ih
        exact ⟨steps + 1, by simp [ancestor?, declared, found]⟩
  · rintro ⟨steps, found⟩
    induction steps generalizing id with
    | zero =>
        cases found
        exact .refl _
    | succ steps ih =>
        obtain ⟨middle, declared, rest⟩ := Option.bind_eq_some_iff.mp found
        exact .base declared (ih middle rest)

theorem ancestor?_add (first second : Nat) (id : TypeId) :
    schema.ancestor? (first + second) id =
      (schema.ancestor? first id).bind (schema.ancestor? second) := by
  induction first generalizing id with
  | zero => simp [ancestor?]
  | succ first ih =>
      rw [Nat.succ_add, ancestor?, ancestor?]
      cases schema.base? id with
      | none => rfl
      | some middle => exact ih middle

theorem mem_baseChain_iff (limit : Nat) (id base : TypeId) :
    base ∈ schema.baseChain limit id ↔
      ∃ steps, steps < limit ∧ schema.ancestor? steps id = some base := by
  induction limit generalizing id with
  | zero => simp [baseChain]
  | succ limit ih =>
      rw [baseChain, List.mem_cons]
      constructor
      · rintro (rfl | later)
        · exact ⟨0, by omega, rfl⟩
        · cases declared : schema.base? id with
          | none => simp [declared] at later
          | some middle =>
              rw [declared] at later
              obtain ⟨steps, less, found⟩ := (ih middle).mp later
              exact ⟨steps + 1, by omega, by simp [ancestor?, declared, found]⟩
      · rintro ⟨_ | steps, less, found⟩
        · left
          cases found
          rfl
        · right
          obtain ⟨middle, declared, rest⟩ := Option.bind_eq_some_iff.mp found
          rw [declared]
          exact (ih middle).mpr ⟨steps, by omega, rest⟩

/-- A type with a base is there. -/
theorem lt_of_base? {id middle : TypeId} (declared : schema.base? id = some middle) :
    id < schema.types.length := by
  simp only [base?, complex?, type?, Option.bind_eq_some_iff] at declared
  obtain ⟨-, ⟨decl, found, -⟩, -⟩ := declared
  exact (List.getElem?_eq_some_iff.mp found).1

/-- Short of the end of a chain every type on it is there. -/
theorem exists_ancestor?_lt {steps place : Nat} {id base : TypeId}
    (found : schema.ancestor? steps id = some base) (short : place < steps) :
    ∃ middle, schema.ancestor? place id = some middle ∧ middle < schema.types.length := by
  obtain ⟨rest, rfl⟩ := Nat.exists_eq_add_of_lt short
  rw [Nat.add_assoc, ancestor?_add, Option.bind_eq_some_iff] at found
  obtain ⟨middle, here, onward⟩ := found
  obtain ⟨next, declared, -⟩ := Option.bind_eq_some_iff.mp onward
  exact ⟨middle, here, lt_of_base? declared⟩

/-- A chain of more steps than there are types goes through some type twice. -/
theorem exists_ancestor?_repeated {steps : Nat} {id base : TypeId}
    (found : schema.ancestor? steps id = some base) (long : schema.types.length < steps) :
    ∃ first second, first < second ∧ second < steps ∧
      schema.ancestor? first id = schema.ancestor? second id := by
  have inside : ∀ place ∈ Finset.range (schema.types.length + 1),
      (schema.ancestor? place id).getD 0 ∈ Finset.range schema.types.length := by
    intro place listed
    rw [Finset.mem_range] at listed ⊢
    have short : place < steps := by omega
    obtain ⟨middle, here, less⟩ := exists_ancestor?_lt found short
    rw [here]
    exact less
  obtain ⟨one, oneIn, two, twoIn, ne, same⟩ :=
    Finset.exists_ne_map_eq_of_card_lt_of_maps_to (by simp) inside
  rw [Finset.mem_range] at oneIn twoIn
  have oneShort : one < steps := by omega
  have twoShort : two < steps := by omega
  have equal : schema.ancestor? one id = schema.ancestor? two id := by
    obtain ⟨first, here, -⟩ := exists_ancestor?_lt found oneShort
    obtain ⟨second, there, -⟩ := exists_ancestor?_lt found twoShort
    rw [here, there] at same ⊢
    exact congrArg some same
  rcases Nat.lt_or_gt_of_ne ne with less | greater
  · exact ⟨one, two, less, twoShort, equal⟩
  · exact ⟨two, one, greater, oneShort, equal.symm⟩

/-- A chain never needs more steps than there are types. -/
theorem exists_ancestor?_le {steps : Nat} {id base : TypeId}
    (found : schema.ancestor? steps id = some base) :
    ∃ fewer, fewer ≤ schema.types.length ∧ schema.ancestor? fewer id = some base := by
  induction steps using Nat.strongRecOn with
  | ind steps ih =>
      by_cases short : steps ≤ schema.types.length
      · exact ⟨steps, short, found⟩
      · -- leave out the way between the two places that are the same
        obtain ⟨first, second, less, inside, same⟩ :=
          exists_ancestor?_repeated found (by omega)
        obtain ⟨rest, rfl⟩ := Nat.exists_eq_add_of_lt inside
        rw [Nat.add_assoc, ancestor?_add, ← same, ← ancestor?_add] at found
        exact ih (first + (rest + 1)) (by omega) found

theorem isDerivedFrom_iff (id base : TypeId) :
    schema.isDerivedFrom id base = true ↔ Derives schema id base := by
  rw [isDerivedFrom, List.contains_iff_mem, ancestry, mem_baseChain_iff, derives_iff_ancestor?]
  constructor
  · rintro ⟨steps, -, found⟩
    exact ⟨steps, found⟩
  · rintro ⟨steps, found⟩
    obtain ⟨fewer, bound, reached⟩ := exists_ancestor?_le found
    exact ⟨fewer, by omega, reached⟩

/-! ## Reachability -/

/-- The type at a position is complex and declares this base. -/
def DeclaresBase (schema : Schema) (id base : TypeId) : Prop :=
  ∃ type, schema.types[id]? = some (.complex type) ∧ type.base = some base

theorem base?_eq_some_iff (id base : TypeId) :
    schema.base? id = some base ↔ DeclaresBase schema id base := by
  simp only [base?, complex?, type?, DeclaresBase, Option.bind_eq_some_iff]
  constructor
  · rintro ⟨type, ⟨decl, found, isComplex⟩, declared⟩
    cases decl with
    | simple other => cases isComplex
    | complex other =>
        cases isComplex
        exact ⟨type, found, declared⟩
  · rintro ⟨type, found, declared⟩
    exact ⟨type, ⟨_, found, rfl⟩, declared⟩

theorem derives_iff_reachable (id base : TypeId) :
    Derives schema id base ↔ Relation.ReflTransGen (DeclaresBase schema) id base := by
  constructor
  · intro derives
    induction derives with
    | refl id => exact .refl
    | base declared _ ih => exact .head ((base?_eq_some_iff _ _).mp declared) ih
  · intro reachable
    induction reachable using Relation.ReflTransGen.head_induction_on with
    | refl => exact .refl base
    | head declared _ ih => exact .base ((base?_eq_some_iff _ _).mpr declared) ih

/-- **Deriving is reaching**: a type derives from those positions, and no others, that any
number of steps leads to, each from a complex type to the base it declares.  The links may run
in circles, and nothing need be found where they end. -/
theorem isDerivedFrom_iff_reachable (schema : Schema) (id base : TypeId) :
    schema.isDerivedFrom id base = true ↔
      Relation.ReflTransGen (DeclaresBase schema) id base := by
  rw [isDerivedFrom_iff, derives_iff_reachable]

/-- A chain through all types that ends where there is none takes every step there is. -/
example :
    let schema : Schema := { types := [.complex { base := some 1 }, .complex { base := some 7 }] }
    schema.isDerivedFrom 0 7 = true ∧ 7 ∉ schema.baseChain schema.types.length 0 := by
  decide

/-! ## Names of types -/

/-- Where the values that a function gives are distinct, a value has one place. -/
theorem eq_of_nodup_filterMap {α β : Type} {f : α → Option β} {entries : List α}
    (distinct : (entries.filterMap f).Nodup) {i j : Nat} {a b : α} {value : β}
    (at_i : entries[i]? = some a) (at_j : entries[j]? = some b) (first : f a = some value)
    (second : f b = some value) : i = j := by
  have apart := List.pairwise_filterMap.mp distinct
  obtain ⟨insideI, rfl⟩ := List.getElem?_eq_some_iff.mp at_i
  obtain ⟨insideJ, rfl⟩ := List.getElem?_eq_some_iff.mp at_j
  rcases Nat.lt_trichotomy i j with less | same | greater
  · have := List.pairwise_iff_getElem.mp apart i j insideI insideJ less value first value second
    exact absurd rfl this
  · exact same
  · have := List.pairwise_iff_getElem.mp apart j i insideJ insideI greater value second value first
    exact absurd rfl this

/-- So a value stands for one of the entries. -/
theorem eq_of_mem_of_nodup_filterMap {α β : Type} {f : α → Option β} {entries : List α}
    (distinct : (entries.filterMap f).Nodup) {a b : α} {value : β} (one : a ∈ entries)
    (two : b ∈ entries) (first : f a = some value) (second : f b = some value) : a = b := by
  obtain ⟨i, at_i⟩ := List.getElem?_of_mem one
  obtain ⟨j, at_j⟩ := List.getElem?_of_mem two
  have same := eq_of_nodup_filterMap distinct at_i at_j first second
  rw [same, at_j] at at_i
  exact (Option.some.inj at_i).symm

/-- The type at a position has this name. -/
def TypeNamed (schema : Schema) (id : TypeId) (name : String) : Prop :=
  ∃ decl, schema.type? id = some decl ∧ decl.name = some name

theorem findType?_eq_some_iff (distinct : (schema.types.filterMap TypeDef.name).Nodup)
    (id : TypeId) (name : String) :
    schema.findType? name = some id ↔ TypeNamed schema id name := by
  have sound {id : TypeId} (found : schema.findType? name = some id) :
      TypeNamed schema id name := by
    obtain ⟨inside, named, -⟩ := List.findIdx?_eq_some_iff_getElem.mp found
    exact ⟨_, List.getElem?_eq_getElem inside, by simpa using named⟩
  constructor
  · exact sound
  · rintro ⟨decl, there, named⟩
    have some_found : (schema.findType? name).isSome = true := by
      rw [findType?, List.findIdx?_isSome, List.any_eq_true]
      exact ⟨decl, List.mem_of_getElem? there, by simp [named]⟩
    obtain ⟨other, found⟩ := Option.isSome_iff_exists.mp some_found
    obtain ⟨decl', there', named'⟩ := sound found
    rw [found, eq_of_nodup_filterMap distinct there' there named' named]

end ContentAssist.Schema

/-! ## The type of an element -/

namespace ContentAssist.Replay

open Schema Markup

/-- A name stands for a complex type that may take the place of the declared one. -/
def Retypes (schema : Schema) (declared : TypeId) (name : String) (type : TypeId) : Prop :=
  TypeNamed schema type name ∧ (schema.complex? type).isSome = true ∧
    Derives schema type declared

/-- The type that an element with a declared type takes on when its tag names a type, or
none. -/
def HasType (schema : Schema) (declared : TypeId) (named : Option String) (type : TypeId) :
    Prop :=
  (∃ name ∈ named, Retypes schema declared name type) ∨
    (type = declared ∧ ∀ name ∈ named, ∀ other, ¬ Retypes schema declared name other)

/-- **The type that is computed is the type that is meant.** -/
theorem effectiveType_eq {schema : Schema}
    (distinct : (schema.types.filterMap TypeDef.name).Nodup) {declared type : TypeId}
    {tag : StartTag}
    (typed : HasType schema declared (tag.completedValue? typeAttribute) type) :
    effectiveType schema declared tag = type := by
  unfold effectiveType
  cases value : tag.completedValue? typeAttribute with
  | none =>
      rcases typed with ⟨name, given, -⟩ | ⟨same, -⟩
      · rw [value] at given
        cases given
      · exact same.symm
  | some name =>
      rw [value] at typed
      rw [Option.bind_some]
      cases found : schema.findType? name with
      | none =>
          rcases typed with ⟨_, ⟨⟩, known, -⟩ | ⟨same, -⟩
          · rw [(findType?_eq_some_iff distinct type name).mpr known] at found
            cases found
          · exact same.symm
      | some named =>
          have known := (findType?_eq_some_iff distinct named name).mp found
          dsimp only
          rcases typed with ⟨_, ⟨⟩, chosen, complex, derives⟩ | ⟨same, refused⟩
          · rw [(findType?_eq_some_iff distinct type name).mpr chosen] at found
            cases found
            by_cases stays : type = declared
            · simp [stays]
            · rw [if_pos ⟨stays, complex, (isDerivedFrom_iff type declared).mpr derives⟩]
          · rw [if_neg, same]
            rintro ⟨-, complex, derives⟩
            exact refused name rfl named
              ⟨known, complex, (isDerivedFrom_iff named declared).mp derives⟩

end ContentAssist.Replay
