/-
# ContentAssist.Proofs.Forest -- a document is an ordered forest

A document is grown by putting one start tag after another under a node that is there, or
under none.  The list of these placements says all that a document holds: the node at a
position is the tag placed there, and its children are the positions that name it as their
parent, in order.  The document does not keep that list.  It keeps four links in every node
and mends at most two nodes for every tag that is placed.

* `WellPlaced.induction` is the one induction over placements: what holds of the empty
  document and is kept by placing a tag under a node that is there holds of every document.
* The links to children and siblings agree with the placements (`linked_ofPlacements`,
  `kids_ofPlacements`); every node has a lineage up to a root (`exists_lineage`); the root is
  the first tag placed under none (`root_ofPlacements`).
* `placements_grow_forest` puts these together: every walk comes to an end, walks over children
  and up to the root find what the placements say, and placing a tag mends nothing but the
  parent and its last child before (`getElem?_append_of_lt`).
-/
import ContentAssist.Proofs.Lineage
import Mathlib.Data.List.Induction

namespace ContentAssist.Document

set_option autoImplicit false

open Markup

/-! ## Placements -/

/-- A start tag and the node it is put under. -/
structure Placement where
  parent : Option NodeId
  tag : StartTag
  deriving DecidableEq, Repr

/-- The document that placing some start tags, one after the other, makes. -/
def ofPlacements (placements : List Placement) : Document :=
  placements.foldl (fun document placement => document.append placement.parent placement.tag) {}

/-- Every tag is put under none, or under one that was placed earlier. -/
def WellPlaced (placements : List Placement) : Prop :=
  ∀ (place : Nat) (inside : place < placements.length),
    ∀ above ∈ placements[place].parent, above < place

instance (placements : List Placement) : Decidable (WellPlaced placements) :=
  inferInstanceAs (Decidable (∀ (place : Nat) (inside : place < placements.length),
    ∀ above ∈ placements[place].parent, above < place))

/-- The positions placed under a node, in order. -/
def placedUnder (placements : List Placement) (id : NodeId) : List NodeId :=
  (List.range placements.length).filter fun place =>
    placements[place]?.bind Placement.parent == some id

theorem ofPlacements_concat (placements : List Placement) (placement : Placement) :
    ofPlacements (placements ++ [placement]) =
      (ofPlacements placements).append placement.parent placement.tag := by
  simp [ofPlacements]

/-- A tag gets the next position. -/
@[simp] theorem size_ofPlacements (placements : List Placement) :
    (ofPlacements placements).size = placements.length := by
  induction placements using List.reverseRecOn with
  | nil => rfl
  | append_singleton placements placement ih =>
      rw [ofPlacements_concat, size_append, ih, List.length_append, List.length_singleton]

theorem wellPlaced_concat {placements : List Placement} {placement : Placement} :
    WellPlaced (placements ++ [placement]) ↔
      WellPlaced placements ∧ ∀ above ∈ placement.parent, above < placements.length := by
  constructor
  · intro placed
    constructor
    · intro place inside above up
      have longer : place < (placements ++ [placement]).length := by
        rw [List.length_append]
        omega
      exact placed place longer above (by rwa [List.getElem_append_left inside])
    · intro above up
      exact placed placements.length (by simp) above (by simpa using up)
  · rintro ⟨placed, last⟩ place inside above up
    rw [List.length_append, List.length_singleton] at inside
    by_cases earlier : place < placements.length
    · rw [List.getElem_append_left earlier] at up
      exact placed place earlier above up
    · obtain rfl : place = placements.length := by omega
      exact last above (by simpa using up)

/-- What holds of the empty document and is kept by placing a tag holds of every document. -/
theorem WellPlaced.induction {motive : List Placement → Document → Prop}
    (nil : motive [] {})
    (concat : ∀ (placements : List Placement) (placement : Placement),
      motive placements (ofPlacements placements) →
      (∀ above ∈ placement.parent, above < (ofPlacements placements).size) →
      motive (placements ++ [placement])
        ((ofPlacements placements).append placement.parent placement.tag))
    {placements : List Placement} (placed : WellPlaced placements) :
    motive placements (ofPlacements placements) := by
  induction placements using List.reverseRecOn with
  | nil => exact nil
  | append_singleton placements placement ih =>
      obtain ⟨earlier, there⟩ := wellPlaced_concat.mp placed
      rw [ofPlacements_concat]
      exact concat placements placement (ih earlier) (by rwa [size_ofPlacements])

/-! ## What placing a tag changes -/

/-- The last child of a parent. -/
def lastUnder? (document : Document) (parent : Option NodeId) : Option NodeId :=
  (parent.bind (document.nodes[·]?)).bind Node.last

/-- A node as it is once a tag has been placed under a parent: the parent has one more child,
and the last child before has a next sibling. -/
def mended (document : Document) (parent : Option NodeId) (id : NodeId) (node : Node) : Node :=
  { node with
    first := if parent = some id then node.first.or (some document.size) else node.first
    last := if parent = some id then some document.size else node.last
    next := if document.lastUnder? parent = some id then some document.size else node.next }

/-- **Placing a tag mends the nodes that are there** and changes nothing else of them. -/
theorem getElem?_append_of_lt {document : Document} {parent : Option NodeId}
    (there : ∀ above ∈ parent, above < document.size) (tag : StartTag) {id : NodeId}
    (old : id < document.size) :
    (document.append parent tag).nodes[id]? =
      document.nodes[id]?.map (document.mended parent id) := by
  cases parent with
  | none =>
      rw [getElem?_append_root, if_neg (Nat.ne_of_lt old)]
      have same : document.mended none id = fun node => node := by
        funext node
        simp [mended, lastUnder?]
      rw [same, Option.map_id']
  | some above =>
      have found := Array.getElem?_eq_getElem (there above rfl)
      rw [getElem?_append_child found, if_neg (Nat.ne_of_lt old)]
      congr 1
      funext node
      simp [mended, lastUnder?, found]

/-! ## Children -/

theorem linked_ofPlacements {placements : List Placement} (placed : WellPlaced placements) :
    (ofPlacements placements).Linked := by
  refine placed.induction (motive := fun _ document => document.Linked) linked_empty ?_
  intro placements placement linked there
  exact linked_append linked there placement.tag

/-- The parent that a node names. -/
def parent? (document : Document) (id : NodeId) : Option NodeId :=
  document.nodes[id]?.bind Node.parent

/-- A node holds what has been placed at its position. -/
structure Holds (placement : Placement) (node : Node) : Prop where
  name : node.name = placement.tag.name
  attributes : node.attributes = placement.tag.attributes
  parent : node.parent = placement.parent

theorem holds_ofPlacements (placements : List Placement) {id : Nat} {node : Node}
    (there : (ofPlacements placements).nodes[id]? = some node) :
    ∃ placement, placements[id]? = some placement ∧ Holds placement node := by
  suffices bare : ∀ bare, (ofPlacements placements).bareNodes[id]? = some bare →
      ∃ placement, placements[id]? = some placement ∧ Holds placement bare by
    obtain ⟨placement, found, name, attributes, parent⟩ :=
      bare node.bare (by rw [getElem?_bareNodes, there]; rfl)
    exact ⟨placement, found, name, attributes, parent⟩
  clear there
  induction placements using List.reverseRecOn with
  | nil => simp [ofPlacements, bareNodes]
  | append_singleton placements placement ih =>
      intro bare found
      have bound : id < (placements ++ [placement]).length := by
        obtain ⟨inside, -⟩ := List.getElem?_eq_some_iff.mp found
        rwa [length_bareNodes, size_ofPlacements] at inside
      rw [List.length_append, List.length_singleton] at bound
      rw [ofPlacements_concat] at found
      by_cases old : id < placements.length
      · rw [bareNodes_append, List.getElem?_append_left (by simpa using old)] at found
        obtain ⟨earlier, listed, holds⟩ := ih bare found
        exact ⟨earlier, by rw [List.getElem?_append_left old, listed], holds⟩
      · obtain rfl : id = (ofPlacements placements).size := by
          rw [size_ofPlacements]
          omega
        rw [getElem?_bareNodes_size] at found
        cases found
        exact ⟨placement, by simp, rfl, rfl, rfl⟩

theorem parent?_ofPlacements (placements : List Placement) (id : NodeId) :
    (ofPlacements placements).parent? id = placements[id]?.bind Placement.parent := by
  rw [parent?]
  cases there : (ofPlacements placements).nodes[id]? with
  | none =>
      have outside : placements.length ≤ id := by
        rw [← size_ofPlacements]
        exact Array.getElem?_eq_none_iff.mp there
      rw [List.getElem?_eq_none outside]
      rfl
  | some node =>
      obtain ⟨placement, found, holds⟩ := holds_ofPlacements placements there
      rw [found]
      exact holds.parent

theorem kids_ofPlacements (placements : List Placement) (id : NodeId) :
    (ofPlacements placements).kids id = placedUnder placements id := by
  rw [kids, placedUnder, size_ofPlacements]
  refine List.filter_congr fun place _ => ?_
  rw [← parent?_ofPlacements]
  rfl

/-! ## Ancestors -/

theorem exists_lineage {placements : List Placement} (placed : WellPlaced placements) :
    ∀ id < (ofPlacements placements).size,
      ∃ above, (ofPlacements placements).Lineage (id :: above) := by
  refine placed.induction (motive := fun _ document => ∀ id < document.size,
    ∃ above, document.Lineage (id :: above)) ?_ ?_
  · intro id none_there
    cases none_there
  · intro placements placement lineages there id inside
    rw [size_append] at inside
    by_cases old : id < (ofPlacements placements).size
    · obtain ⟨above, lineage⟩ := lineages id old
      exact ⟨above, lineage.append _ _⟩
    · obtain rfl : id = (ofPlacements placements).size := by omega
      -- the new node goes in front of the lineage of its parent
      cases up : placement.parent with
      | none => exact ⟨[], Lineage.nil.grow placement.tag⟩
      | some parent =>
          obtain ⟨above, lineage⟩ := lineages parent (there parent up)
          exact ⟨parent :: above, lineage.grow placement.tag⟩

namespace Lineage

variable {document : Document} {ids : List Nat}

/-- The links to parents lead along a lineage and come to an end. -/
theorem visits (lineage : document.Lineage ids) : Visits document.parent? ids.head? ids := by
  induction lineage with
  | nil => exact .done
  | cons node there parent _ _ _ ih =>
      obtain ⟨full, found, rfl⟩ := exists_of_getElem?_bareNodes there
      refine .step ?_
      rw [parent?, found, Option.bind_some]
      exact parent.symm ▸ ih

/-- Parents come before their children. -/
theorem pairwise (lineage : document.Lineage ids) : ids.Pairwise (· > ·) := by
  induction lineage with
  | nil => exact .nil
  | @cons id above _ _ _ _ older _ ih =>
      refine List.pairwise_cons.mpr ⟨?_, ih⟩
      intro other listed
      cases above with
      | nil => cases listed
      | cons next above =>
          have earlier : next < id := older next rfl
          rcases List.mem_cons.mp listed with rfl | further
          · exact earlier
          · exact Nat.lt_trans ((List.pairwise_cons.mp ih).1 other further) earlier

/-- At the end of a lineage stands a node without a parent. -/
theorem parent?_getLast (lineage : document.Lineage ids) :
    ∀ top ∈ ids.getLast?, document.parent? top = none := by
  induction lineage with
  | nil => simp
  | @cons id above node there parent _ _ _ ih =>
      cases above with
      | nil =>
          obtain ⟨full, found, rfl⟩ := exists_of_getElem?_bareNodes there
          have rootless : full.parent = none := parent
          simp [parent?, found, rootless]
      | cons next above => simpa using ih

end Lineage

section Walk

variable {document : Document} (element : document.Element) {above : List Nat}
  (lineage : document.Lineage (element.val :: above))

theorem parent?_val : document.parent? element = element.node.parent := by
  simp [parent?, Element.node]

include lineage

theorem map_val_cons_ancestors :
    (element :: element.ancestors).map Fin.val = element.val :: above := by
  rw [List.map_cons, map_val_ancestors element lineage]

theorem visits_ancestors :
    Visits document.parent? element.node.parent (element.ancestors.map Fin.val) := by
  rw [map_val_ancestors element lineage, ← parent?_val]
  cases lineage.visits with
  | step onward => exact onward

theorem pairwise_ancestors : (element :: element.ancestors).Pairwise (· > ·) := by
  have ordered := lineage.pairwise
  rw [← map_val_cons_ancestors element lineage, List.pairwise_map] at ordered
  exact ordered

theorem exists_top : ∃ top : document.Element,
    (element :: element.ancestors).getLast? = some top ∧ top.node.parent = none := by
  obtain ⟨top, last⟩ : ∃ top, (element :: element.ancestors).getLast? = some top :=
    Option.isSome_iff_exists.mp (List.getLast?_isSome.mpr (List.cons_ne_nil _ _))
  refine ⟨top, last, ?_⟩
  rw [← parent?_val]
  apply lineage.parent?_getLast
  rw [← map_val_cons_ancestors element lineage, List.getLast?_map, last]
  rfl

theorem depth_eq : element.node.depth = min element.ancestors.length depthLimit := by
  have length : element.ancestors.length = above.length := by
    rw [← map_val_ancestors element lineage, List.length_map]
  cases lineage with
  | cons node found _ depth _ _ =>
      rw [getElem?_bareNodes, Array.getElem?_eq_getElem element.isLt] at found
      cases found
      rw [length]
      exact depth

end Walk

/-! ## The root -/

theorem root_ofPlacements (placements : List Placement) :
    (ofPlacements placements).root =
      placements.findIdx? fun placement => placement.parent.isNone := by
  induction placements using List.reverseRecOn with
  | nil => rfl
  | append_singleton placements placement ih =>
      have size : (ofPlacements placements).nodes.size = placements.length :=
        size_ofPlacements placements
      rw [ofPlacements_concat, List.findIdx?_append, ← ih]
      cases up : placement.parent with
      | none => simp [append, size, up]
      | some parent => simp [append, up]

/-! ## The forest -/

/-- A document is the ordered forest that some placements describe. -/
structure IsForest (placements : List Placement) (document : Document) : Prop where
  size : document.size = placements.length
  holds : ∀ element : document.Element, ∃ placement,
    placements[(element : Nat)]? = some placement ∧ Holds placement element.node
  /-- The links from the first child on come to an end. -/
  siblings : ∀ element : document.Element,
    Visits document.next? element.node.first (placedUnder placements element)
  children : ∀ element : document.Element,
    element.children.map Fin.val = placedUnder placements element
  first : ∀ element : document.Element,
    element.node.first = (placedUnder placements element).head?
  last : ∀ element : document.Element,
    element.node.last = (placedUnder placements element).getLast?
  /-- The links to parents come to an end. -/
  parents : ∀ element : document.Element,
    Visits document.parent? element.node.parent (element.ancestors.map Fin.val)
  older : ∀ element : document.Element, (element :: element.ancestors).Pairwise (· > ·)
  top : ∀ element : document.Element, ∃ top : document.Element,
    (element :: element.ancestors).getLast? = some top ∧ top.node.parent = none
  depth : ∀ element : document.Element,
    element.node.depth = min element.ancestors.length depthLimit
  root : document.root = placements.findIdx? fun placement => placement.parent.isNone

/-- **Placing start tags grows an ordered forest.**  Let every tag be put under none or under
one placed earlier.  Then the children of a node are those placed under it, each once and in
order, and its first and last child are the first and the last of them; walking up comes to an
end, at a node without a parent, and visits ever older nodes; depth counts the nodes above; the
root is the first tag placed under none.  Placing a tag changes nothing of the nodes before it
but the first and last child of its parent and the next sibling of the last child before. -/
theorem placements_grow_forest (placements : List Placement) (placed : WellPlaced placements) :
    IsForest placements (ofPlacements placements) ∧
      ∀ (earlier later : List Placement) (placement : Placement),
        placements = earlier ++ placement :: later → ∀ id < earlier.length,
          (ofPlacements (earlier ++ [placement])).nodes[id]? =
            (ofPlacements earlier).nodes[id]?.map
              ((ofPlacements earlier).mended placement.parent id) := by
  have linked := linked_ofPlacements placed
  have there (element : (ofPlacements placements).Element) :
      (ofPlacements placements).nodes[(element : Nat)]? = some element.node :=
    Array.getElem?_eq_getElem element.isLt
  choose above lineage using fun element : (ofPlacements placements).Element =>
    exists_lineage placed element element.isLt
  constructor
  · constructor
    · exact size_ofPlacements placements
    · intro element
      exact holds_ofPlacements placements (there element)
    · intro element
      rw [linked.first element element.node (there element), ← kids_ofPlacements]
      exact linked.visits [] _ rfl
    · intro element
      rw [map_val_children linked, kids_ofPlacements]
    · intro element
      rw [linked.first element element.node (there element), kids_ofPlacements]
    · intro element
      rw [linked.last element element.node (there element), kids_ofPlacements]
    · exact fun element => visits_ancestors element (lineage element)
    · exact fun element => pairwise_ancestors element (lineage element)
    · exact fun element => exists_top element (lineage element)
    · exact fun element => depth_eq element (lineage element)
    · exact root_ofPlacements placements
  · rintro earlier later placement rfl id old
    have there : ∀ above ∈ placement.parent, above < (ofPlacements earlier).size := by
      intro above up
      rw [size_ofPlacements]
      exact placed earlier.length (by simp) above (by simpa using up)
    rw [ofPlacements_concat]
    exact getElem?_append_of_lt there placement.tag (by rwa [size_ofPlacements])

/-- Shelves in a hall, filled by turns, and a yard beside it. -/
def shelves : List Placement :=
  [⟨none, { name := "hall" }⟩, ⟨some 0, { name := "shelf" }⟩, ⟨some 0, { name := "shelf" }⟩,
    ⟨some 1, { name := "book" }⟩, ⟨some 0, { name := "shelf" }⟩, ⟨some 1, { name := "book" }⟩,
    ⟨none, { name := "yard" }⟩]

/-- Tags placed under two parents by turns. -/
theorem shelves_grow_forest :
    WellPlaced shelves ∧ placedUnder shelves 0 = [1, 2, 4] ∧ placedUnder shelves 1 = [3, 5] ∧
      IsForest shelves (ofPlacements shelves) ∧
      (ofPlacements (shelves.take 6)).nodes[3]? =
        (ofPlacements (shelves.take 5)).nodes[3]?.map fun node => { node with next := some 5 } := by
  have placed : WellPlaced shelves := by decide
  obtain ⟨forest, changes⟩ := placements_grow_forest shelves placed
  refine ⟨placed, by decide, by decide, forest, ?_⟩
  exact changes (shelves.take 5) (shelves.drop 6) _ rfl 3 (by decide)

end ContentAssist.Document
