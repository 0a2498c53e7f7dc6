/-
# ContentAssist.Proofs.Inheritance -- the attributes a type takes from its bases

The *line* of a type is the type, its base, the base of that and so on, for as long as each
is complex and has not come before.  Links to bases may dangle or run in a circle, so a line
is found by never visiting a type twice (`lineFrom`).  The library itself never looks back:
it follows the links for one step more than there are types, and a circle it goes round.

* `exists_ancestry_eq`: the positions it goes through begin with the line, and no complex
  type comes after the line that is not on it.  A line is never cut short, because each of
  its types uses up one of those there are (`lineFrom_isPrefix`), and a type that comes again
  brings no other types than before (`mem_lineFrom_of_derives`).
* So what comes again declares nothing that has not been declared, and the nearest
  declaration of every name is the first one along the line (`nearest_declaration_counts`).
-/
import ContentAssist.Proofs.Derivation
import Mathlib.Data.Finset.Card

namespace ContentAssist.Schema

set_option autoImplicit false

variable {schema : Schema}

/-! ## The line of a type -/

theorem lt_of_complex? {id : TypeId} {type : ComplexType}
    (complex : schema.complex? id = some type) : id < schema.types.length := by
  obtain ⟨decl, found, -⟩ := Option.bind_eq_some_iff.mp complex
  exact (List.getElem?_eq_some_iff.mp found).1

/-- The positions of types that have not been seen. -/
def unseen (schema : Schema) (seen : Finset TypeId) : Finset TypeId :=
  Finset.range schema.types.length \ seen

/-- Seeing a complex type for the first time leaves fewer to be seen. -/
theorem card_unseen_insert {seen : Finset TypeId} {id : TypeId} {type : ComplexType}
    (complex : schema.complex? id = some type) (new : id ∉ seen) :
    (schema.unseen (insert id seen)).card < (schema.unseen seen).card := by
  have listed : id ∈ schema.unseen seen :=
    Finset.mem_sdiff.mpr ⟨Finset.mem_range.mpr (lt_of_complex? complex), new⟩
  rw [unseen, Finset.sdiff_insert]
  exact Finset.card_erase_lt_of_mem listed

/-- The types from a position up, each the base of the one before, for as long as they are
complex and have not been seen. -/
def lineFrom (schema : Schema) (seen : Finset TypeId) (id : TypeId) : List TypeId :=
  if id ∈ seen then []
  else
    match _found : schema.complex? id with
    | none => []
    | some type =>
        match type.base with
        | none => [id]
        | some base => id :: lineFrom schema (insert id seen) base
termination_by (schema.unseen seen).card
decreasing_by exact card_unseen_insert _found ‹id ∉ seen›

/-- A type, its base, the base of that and so on, each complex and none twice. -/
def line (schema : Schema) (id : TypeId) : List TypeId :=
  schema.lineFrom ∅ id

/-- **A line is never cut short**: as many steps as there are types unseen go all along it. -/
theorem lineFrom_isPrefix (seen : Finset TypeId) (id : TypeId) (limit : Nat)
    (enough : (schema.unseen seen).card ≤ limit) :
    schema.lineFrom seen id <+: schema.baseChain limit id := by
  fun_induction lineFrom schema seen id generalizing limit with
  | case1 => exact List.nil_prefix
  | case2 => exact List.nil_prefix
  | case3 seen id new type complex top =>
      have fewer := card_unseen_insert complex new
      obtain ⟨limit, rfl⟩ : ∃ steps, limit = steps + 1 := Nat.exists_eq_add_of_le' (by omega)
      exact ⟨_, by rw [baseChain]; rfl⟩
  | case4 seen id new type complex base declared ih =>
      have fewer := card_unseen_insert complex new
      obtain ⟨limit, rfl⟩ : ∃ steps, limit = steps + 1 := Nat.exists_eq_add_of_le' (by omega)
      have onward : schema.base? id = some base := by simp [base?, complex, declared]
      rw [baseChain, onward]
      exact (List.prefix_cons_inj id).mpr (ih limit (by omega))

/-- Where every base of a seen type is seen, nothing else is reached from a seen type. -/
theorem mem_of_derives {seen : Finset TypeId}
    (closed : ∀ other ∈ seen, ∀ base ∈ schema.base? other, base ∈ seen) {id other : TypeId}
    (derives : Derives schema id other) (known : id ∈ seen) : other ∈ seen := by
  induction derives with
  | refl id => exact known
  | base declared _ ih => exact ih (closed _ known _ declared)

/-- **A line misses no complex type**, as long as the bases of the types seen before it are
seen, or come next. -/
theorem mem_lineFrom_of_derives {seen : Finset TypeId} {id : TypeId}
    (closed : ∀ other ∈ seen, ∀ base ∈ schema.base? other, base ∈ insert id seen)
    {other : TypeId} (derives : Derives schema id other)
    (complex : (schema.complex? other).isSome = true) :
    other ∈ seen ∨ other ∈ schema.lineFrom seen id := by
  fun_induction lineFrom schema seen id with
  | case1 seen id known =>
      rw [Finset.insert_eq_of_mem known] at closed
      exact .inl (mem_of_derives closed derives known)
  | case2 seen id _ absent =>
      cases derives with
      | refl => simp [absent] at complex
      | base declared _ => simp [base?, absent] at declared
  | case3 seen id _ type found top =>
      cases derives with
      | refl => exact .inr List.mem_cons_self
      | base declared _ => simp [base?, found, top] at declared
  | case4 seen id _ type found base direct ih =>
      have onward : schema.base? id = some base := by simp [base?, found, direct]
      cases derives with
      | refl => exact .inr List.mem_cons_self
      | base declared rest =>
          cases onward.symm.trans declared
          have stillClosed : ∀ other ∈ insert id seen, ∀ next ∈ schema.base? other,
              next ∈ insert base (insert id seen) := by
            intro other listed next above
            rcases Finset.mem_insert.mp listed with rfl | earlier
            · cases onward.symm.trans above
              exact Finset.mem_insert_self _ _
            · exact Finset.mem_insert_of_mem (closed other earlier next above)
          rcases ih stillClosed rest with known | later
          · rcases Finset.mem_insert.mp known with rfl | earlier
            · exact .inr List.mem_cons_self
            · exact .inl earlier
          · exact .inr (List.mem_cons_of_mem _ later)

theorem derives_of_mem_ancestry {id other : TypeId} (visited : other ∈ schema.ancestry id) :
    Derives schema id other := by
  obtain ⟨steps, -, found⟩ := (mem_baseChain_iff _ id other).mp visited
  exact (derives_iff_ancestor? id other).mpr ⟨steps, found⟩

/-- **The ancestry of a type begins with its line**, and no other complex type follows. -/
theorem exists_ancestry_eq (id : TypeId) :
    ∃ again, schema.ancestry id = schema.line id ++ again ∧
      ∀ other ∈ again, (schema.complex? other).isSome = true → other ∈ schema.line id := by
  have enough : (schema.unseen ∅).card ≤ schema.types.length + 1 := by
    simp [unseen]
  obtain ⟨again, split⟩ := lineFrom_isPrefix ∅ id (schema.types.length + 1) enough
  refine ⟨again, split.symm, ?_⟩
  intro other listed complex
  have visited : other ∈ schema.ancestry id := by
    rw [ancestry, ← split]
    exact List.mem_append_right _ listed
  have closed : ∀ known ∈ (∅ : Finset TypeId), ∀ base ∈ schema.base? known,
      base ∈ insert id (∅ : Finset TypeId) := by simp
  rcases mem_lineFrom_of_derives closed (derives_of_mem_ancestry visited) complex with
    known | found
  · cases known
  · exact found

/-! ## The first declaration of a name -/

/-- The attributes that a type declares itself, in order; those that do not exist are left
out, and a type that is not complex declares none. -/
def ownAttributes (schema : Schema) (id : TypeId) : List (AttributeId × AttributeDecl) :=
  ((schema.complex? id).elim [] ComplexType.attributes).filterMap fun use =>
    (schema.attribute? use).map fun decl => (use, decl)

/-- The type itself declares an attribute with this name. -/
def DeclaresAttribute (schema : Schema) (id : TypeId) (name : String) : Prop :=
  ∃ use ∈ schema.ownAttributes id, use.2.name = name

/-- The attributes declared along the line of a type, in order. -/
def lineAttributes (schema : Schema) (id : TypeId) : List (AttributeId × AttributeDecl) :=
  (schema.line id).flatMap schema.ownAttributes

theorem declaredAttributes_eq (id : TypeId) :
    schema.declaredAttributes id = (schema.ancestry id).flatMap schema.ownAttributes := by
  unfold declaredAttributes
  induction schema.ancestry id with
  | nil => rfl
  | cons first rest ih =>
      cases found : schema.complex? first with
      | none => simpa [ownAttributes, found] using ih
      | some type => simpa [ownAttributes, found] using ih

/-- The attributes whose name none before them has. -/
def firstOfName (uses : List (AttributeId × AttributeDecl)) :
    List (AttributeId × AttributeDecl) :=
  (uses.zipIdx.filter fun entry =>
    (uses.take entry.2).all fun earlier => earlier.2.name != entry.1.2.name).map Prod.fst

/-- An attribute declared last counts if its name is new. -/
theorem nearest_concat (uses : List (AttributeId × AttributeDecl))
    (use : AttributeId × AttributeDecl) :
    nearest (uses ++ [use]) =
      nearest uses ++
        if uses.all fun earlier => earlier.2.name != use.2.name then [use] else [] := by
  induction uses with
  | nil => rfl
  | cons first rest ih =>
      rw [List.cons_append, nearest, ih, List.filter_append, nearest, List.cons_append,
        List.all_cons, bne_comm]
      congr 2
      by_cases same : use.2.name = first.2.name
      · split <;> simp [same]
      · cases rest.all fun earlier => earlier.2.name != use.2.name <;> simp [same]

theorem nearest_eq_firstOfName (uses : List (AttributeId × AttributeDecl)) :
    nearest uses = firstOfName uses := by
  induction uses using List.reverseRecOn with
  | nil => rfl
  | append_singleton uses use ih =>
      -- what stands before an earlier attribute is not changed by one at the end
      have before : ∀ entry ∈ uses.zipIdx, (uses ++ [use]).take entry.2 = uses.take entry.2 := by
        intro entry listed
        have inside := (List.mem_zipIdx' listed).1
        exact List.take_append_of_le_length (Nat.le_of_lt inside)
      have kept : uses.zipIdx.filter (fun entry => ((uses ++ [use]).take entry.2).all
            fun earlier => earlier.2.name != entry.1.2.name) =
          uses.zipIdx.filter fun entry => (uses.take entry.2).all
            fun earlier => earlier.2.name != entry.1.2.name :=
        List.filter_congr fun entry listed => by rw [before entry listed]
      rw [nearest_concat, ih, firstOfName, firstOfName, List.zipIdx_append, List.filter_append,
        kept, List.map_append]
      congr 1
      simp only [List.zipIdx_singleton, Nat.zero_add, List.filter_singleton, List.take_left]
      cases uses.all fun earlier => earlier.2.name != use.2.name <;> rfl

/-- Declarations whose names have all been declared change nothing. -/
theorem nearest_append {front back : List (AttributeId × AttributeDecl)}
    (hidden : ∀ use ∈ back, ∃ earlier ∈ front, earlier.2.name = use.2.name) :
    nearest (front ++ back) = nearest front := by
  induction back using List.reverseRecOn with
  | nil => rw [List.append_nil]
  | append_singleton back use ih =>
      obtain ⟨earlier, declared, same⟩ := hidden use (by simp)
      have taken : ((front ++ back).all fun other => other.2.name != use.2.name) = false := by
        rw [List.all_eq_false]
        exact ⟨earlier, List.mem_append_left _ declared, by simp [same]⟩
      rw [← List.append_assoc, nearest_concat, taken, ih]
      · simp
      · intro other listed
        exact hidden other (List.mem_append_left _ listed)

theorem find?_nearest (uses : List (AttributeId × AttributeDecl)) (name : String) :
    (nearest uses).find? (fun use => use.2.name == name) =
      uses.find? fun use => use.2.name == name := by
  induction uses with
  | nil => rfl
  | cons first rest ih =>
      rw [nearest, List.find?_cons, List.find?_cons]
      cases same : first.2.name == name with
      | true => rfl
      | false =>
          have unlike : ∀ use : AttributeId × AttributeDecl,
              (use.2.name != first.2.name && use.2.name == name) = (use.2.name == name) := by
            intro use
            have other : first.2.name ≠ name := by simpa using same
            by_cases named : use.2.name = name
            · simp [named, other.symm]
            · simp [named]
          simp only [List.find?_filter, Bool.decide_and, Bool.decide_eq_true, unlike, ih]

theorem nodup_nearest (uses : List (AttributeId × AttributeDecl)) :
    ((nearest uses).map fun use => use.2.name).Nodup := by
  induction uses with
  | nil => exact List.nodup_nil
  | cons first rest ih =>
      rw [nearest, List.map_cons, List.nodup_cons]
      constructor
      · intro again
        obtain ⟨use, listed, same⟩ := List.mem_map.mp again
        have other := (List.mem_filter.mp listed).2
        simp [same] at other
      · exact ih.sublist (List.filter_sublist.map _)

/-- What comes again after the line declares nothing new. -/
theorem attributeUses_eq (id : TypeId) :
    schema.attributeUses id = nearest (schema.lineAttributes id) := by
  obtain ⟨again, split, known⟩ := @exists_ancestry_eq schema id
  rw [attributeUses, declaredAttributes_eq, split, List.flatMap_append]
  apply nearest_append
  intro use declared
  obtain ⟨other, listed, own⟩ := List.mem_flatMap.mp declared
  have complex : (schema.complex? other).isSome = true := by
    cases found : schema.complex? other with
    | none => simp [ownAttributes, found] at own
    | some type => rfl
  exact ⟨use, List.mem_flatMap.mpr ⟨other, known other listed complex, own⟩, rfl⟩

theorem findAttributeUse?_eq_find? (id : TypeId) (name : String) :
    schema.findAttributeUse? id name =
      (schema.lineAttributes id).find? fun use => use.2.name == name := by
  rw [findAttributeUse?, attributeUses_eq, find?_nearest]

theorem isSome_findName_iff (uses : List (AttributeId × AttributeDecl)) (name : String) :
    (uses.find? fun use => use.2.name == name).isSome = true ↔
      ∃ use ∈ uses, use.2.name = name := by
  simp [List.find?_isSome]

theorem exists_lineAttribute_iff (id : TypeId) (name : String) :
    (∃ use ∈ schema.lineAttributes id, use.2.name = name) ↔
      ∃ type ∈ schema.line id, schema.DeclaresAttribute type name := by
  simp only [lineAttributes, List.mem_flatMap, DeclaresAttribute]
  constructor
  · rintro ⟨use, ⟨type, listed, own⟩, named⟩
    exact ⟨type, listed, use, own, named⟩
  · rintro ⟨type, listed, use, own, named⟩
    exact ⟨use, ⟨type, listed, own⟩, named⟩

/-- A type may carry the attributes that a type on its line declares. -/
theorem exists_attributeUse_iff (id : TypeId) (name : String) :
    (∃ use ∈ schema.attributeUses id, use.2.name = name) ↔
      ∃ type ∈ schema.line id, schema.DeclaresAttribute type name := by
  rw [attributeUses_eq, ← isSome_findName_iff, find?_nearest, isSome_findName_iff,
    exists_lineAttribute_iff]

/-- **The nearest declaration of a name is the one that counts**, whatever the bases: they may
dangle, be their own bases or run in a circle.  Along the line of a type, and within a type in
the order of declaration, the attribute uses are those attributes whose name none before them
has; no two have the same name; and the use with a name is the first attribute with that name,
so there is none only where no type on the line declares one. -/
theorem nearest_declaration_counts (schema : Schema) (id : TypeId) :
    schema.attributeUses id = firstOfName (schema.lineAttributes id) ∧
      ((schema.attributeUses id).map fun use => use.2.name).Nodup ∧
      ∀ name,
        schema.findAttributeUse? id name =
            (schema.lineAttributes id).find? (fun use => use.2.name == name) ∧
          (schema.findAttributeUse? id name = none ↔
            ∀ type ∈ schema.line id, ¬ schema.DeclaresAttribute type name) := by
  refine ⟨?_, ?_, ?_⟩
  · rw [attributeUses_eq, nearest_eq_firstOfName]
  · rw [attributeUses_eq]
    exact nodup_nearest _
  · intro name
    refine ⟨findAttributeUse?_eq_find? id name, ?_⟩
    rw [findAttributeUse?_eq_find?, ← Option.not_isSome_iff_eq_none, isSome_findName_iff,
      exists_lineAttribute_iff]
    simp only [not_exists, not_and]

end ContentAssist.Schema
