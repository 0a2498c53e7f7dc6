/-
# ContentAssist.Proofs.Lineage -- what a node keeps while its document grows

Appending links the new node to its parent and to the sibling before it.  Name, attributes,
parent and depth of a node never change: `Node.bare` forgets the links, and appending puts
one bare node at the end and leaves the others as they are (`bareNodes_append`).

A *lineage* leads from a node to its root, each position to its parent.  Appending keeps
every lineage (`Lineage.append`) and gives the new node the lineage of its parent
(`Lineage.grow`).  Walking up from a node visits its lineage and nothing else
(`map_val_ancestors`).
-/
import ContentAssist.Proofs.Children

namespace ContentAssist

set_option autoImplicit false

open Markup

/-- A node without its links to children and siblings. -/
def Node.bare (node : Node) : Node :=
  { node with first := none, last := none, next := none }

namespace Document

/-! ## Bare nodes -/

/-- The nodes in order, without their links to children and siblings. -/
def bareNodes (document : Document) : List Node :=
  document.nodes.toList.map Node.bare

@[simp] theorem length_bareNodes (document : Document) :
    document.bareNodes.length = document.size := by
  simp [bareNodes, size]

theorem getElem?_bareNodes (document : Document) (id : Nat) :
    document.bareNodes[id]? = document.nodes[id]?.map Node.bare := by
  simp [bareNodes]

/-- A bare node that is there is some node. -/
theorem exists_of_getElem?_bareNodes {document : Document} {id : Nat} {node : Node}
    (there : document.bareNodes[id]? = some node) :
    ∃ full, document.nodes[id]? = some full ∧ full.bare = node := by
  rwa [getElem?_bareNodes, Option.map_eq_some_iff] at there

/-- Linking changes nothing but links. -/
theorem map_bare_link (nodes : Array Node) (parent child : Nat) :
    (link nodes parent child).map Node.bare = nodes.map Node.bare := by
  cases there : nodes[parent]? with
  | none => simp [link, there]
  | some above =>
      apply Array.ext_getElem?
      intro id
      rw [Array.getElem?_map, Array.getElem?_map, getElem?_link there, Option.map_map]
      rfl

/-- **Appending adds one bare node** and leaves the others as they are. -/
theorem bareNodes_append (document : Document) (parent : Option Nat) (tag : StartTag) :
    (document.append parent tag).bareNodes =
      document.bareNodes ++
        [{ name := tag.name, attributes := tag.attributes, parent
           depth := document.depthBelow parent }] := by
  cases parent with
  | none => simp [append, bareNodes, Node.bare]
  | some above =>
      have kept := congrArg Array.toList
        (map_bare_link (document.nodes.push
          { name := tag.name, attributes := tag.attributes, parent := some above
            depth := document.depthBelow (some above) }) above document.nodes.size)
      simpa [append, bareNodes, Node.bare] using kept

theorem getElem?_bareNodes_append {document : Document} {id : Nat} {node : Node}
    (there : document.bareNodes[id]? = some node) (parent : Option Nat) (tag : StartTag) :
    (document.append parent tag).bareNodes[id]? = some node := by
  obtain ⟨inside, -⟩ := List.getElem?_eq_some_iff.mp there
  rw [bareNodes_append, List.getElem?_append_left inside, there]

theorem getElem?_bareNodes_size (document : Document) (parent : Option Nat) (tag : StartTag) :
    (document.append parent tag).bareNodes[document.size]? =
      some { name := tag.name, attributes := tag.attributes, parent
             depth := document.depthBelow parent } := by
  rw [bareNodes_append, List.getElem?_append_right (by simp)]
  simp

theorem name?_eq (document : Document) (id : Nat) :
    document.name? id = document.bareNodes[id]?.map Node.name := by
  rw [name?, getElem?_bareNodes, Option.map_map]
  rfl

theorem Element.name_eq {document : Document} (element : document.Element) :
    element.name = (document.name? element.val).getD "" := by
  have inside : element.val < document.nodes.size := element.isLt
  simp [name?, Element.name, Element.node, inside]

/-! ## One root -/

/-- The root is the first node, and the only one without a parent. -/
structure Rooted (document : Document) : Prop where
  root : document.root = if document.size = 0 then none else some 0
  orphans : ∀ (id : Nat) (node : Node), document.bareNodes[id]? = some node →
    (node.parent = none ↔ id = 0)

theorem rooted_empty : ({} : Document).Rooted := by
  constructor
  · rfl
  · simp [bareNodes]

theorem Rooted.root_iff {document : Document} (rooted : document.Rooted) {id : Nat}
    (there : document.nodes[id]?.isSome) : document.root = some id ↔ id = 0 := by
  have inside : id < document.size := by simpa [size] using there
  rw [rooted.root, if_neg (by omega), Option.some.injEq, eq_comm]

/-- A document stays rooted when the first node alone is appended without a parent. -/
theorem Rooted.append {document : Document} (rooted : document.Rooted) {parent : Option Nat}
    (first : parent = none ↔ document.size = 0) (tag : StartTag) :
    (document.append parent tag).Rooted := by
  constructor
  · have root := rooted.root
    rw [size_append, if_neg (Nat.succ_ne_zero _)]
    cases parent with
    | none =>
        have empty : document.size = 0 := first.mp rfl
        rw [if_pos empty] at root
        have none_left : document.nodes.size = 0 := empty
        simp [Document.append, root, none_left]
    | some above =>
        rw [if_neg (fun empty => by cases first.mpr empty)] at root
        exact root
  · intro id node there
    by_cases old : id < document.size
    · rw [bareNodes_append, List.getElem?_append_left (by simpa using old)] at there
      exact rooted.orphans id node there
    · have bound : id < document.size + 1 := by
        obtain ⟨inside, -⟩ := List.getElem?_eq_some_iff.mp there
        rwa [length_bareNodes, size_append] at inside
      have new : id = document.size := by omega
      rw [new, getElem?_bareNodes_size] at there
      cases there
      rw [new]
      exact first

/-! ## Lineages -/

/-- The positions lead from a node up to a root, each to its parent; the depth of a node
counts those above it. -/
inductive Lineage (document : Document) : List Nat → Prop where
  | nil : Lineage document []
  | cons {id : Nat} {above : List Nat} (node : Node)
      (there : document.bareNodes[id]? = some node) (parent : node.parent = above.head?)
      (depth : node.depth = Nat.min above.length depthLimit)
      (older : ∀ other ∈ above.head?, other < id) (rest : Lineage document above) :
      Lineage document (id :: above)

namespace Lineage

variable {document : Document} {ids : List Nat}

theorem append (lineage : document.Lineage ids) (parent : Option Nat) (tag : StartTag) :
    (document.append parent tag).Lineage ids := by
  induction lineage with
  | nil => exact .nil
  | cons node there above depth older _ ih =>
      exact .cons node (getElem?_bareNodes_append there parent tag) above depth older ih

theorem head_lt (lineage : document.Lineage ids) : ∀ id ∈ ids.head?, id < document.size := by
  cases lineage with
  | nil => simp
  | cons node there _ _ _ _ =>
      rintro id ⟨⟩
      obtain ⟨inside, -⟩ := List.getElem?_eq_some_iff.mp there
      simpa using inside

theorem depthBelow_eq (lineage : document.Lineage ids) :
    document.depthBelow ids.head? = Nat.min ids.length depthLimit := by
  cases lineage with
  | nil => rfl
  | cons node there _ depth _ _ =>
      obtain ⟨full, found, rfl⟩ := exists_of_getElem?_bareNodes there
      have counted : full.depth = Nat.min _ depthLimit := depth
      simp only [depthBelow, List.head?_cons, Option.bind_some, found, counted,
        List.length_cons]
      grind

/-- A node appended under the first of a lineage goes in front of it. -/
theorem grow (lineage : document.Lineage ids) (tag : StartTag) :
    (document.append ids.head? tag).Lineage (document.size :: ids) := by
  exact .cons _ (getElem?_bareNodes_size document _ tag) rfl lineage.depthBelow_eq
    lineage.head_lt (lineage.append _ tag)

/-- Parents come before their children, so a lineage is no longer than its first position. -/
theorem length_le {id : Nat} {above : List Nat}
    (lineage : document.Lineage (id :: above)) : above.length ≤ id := by
  induction above generalizing id with
  | nil => simp
  | cons next above ih =>
      cases lineage with
      | cons node _ _ _ older rest =>
          have shorter := ih rest
          have earlier := older next rfl
          rw [List.length_cons]
          omega

/-- The part of a lineage from one of its nodes on. -/
theorem drop {front back : List Nat} (lineage : document.Lineage (front ++ back)) :
    document.Lineage back := by
  induction front with
  | nil => exact lineage
  | cons id front ih =>
      cases lineage with
      | cons _ _ _ _ _ rest => exact ih rest

end Lineage

/-! ## Walking up -/

variable {document : Document}

theorem map_val_ancestorsWithin {above : List Nat} (element : document.Element)
    (lineage : document.Lineage (element.val :: above)) (limit : Nat)
    (enough : above.length ≤ limit) :
    (Element.ancestorsWithin limit element).map Fin.val = above := by
  induction above generalizing element limit with
  | nil =>
      cases lineage with
      | cons node there parent _ _ _ =>
          obtain ⟨full, found, rfl⟩ := exists_of_getElem?_bareNodes there
          have here : element.node = full := by
            simpa [Element.node] using Array.getElem?_eq_some_iff.mp found
          have rootless : full.parent = none := parent
          cases limit with
          | zero => rfl
          | succ limit => simp [Element.ancestorsWithin, Element.parent?, here, rootless]
  | cons next above ih =>
      obtain ⟨limit, rfl⟩ : ∃ steps, limit = steps + 1 :=
        Nat.exists_eq_add_of_le' (Nat.le_trans (by simp) enough)
      cases lineage with
      | cons node there parent _ _ rest =>
          obtain ⟨full, found, rfl⟩ := exists_of_getElem?_bareNodes there
          have here : element.node = full := by
            simpa [Element.node] using Array.getElem?_eq_some_iff.mp found
          have up : full.parent = some next := parent
          have inside : next < document.nodes.size := rest.head_lt next rfl
          have higher := ih ⟨next, inside⟩ rest limit (by simpa using enough)
          simp [Element.ancestorsWithin, Element.parent?, here, up, element?, inside, higher]

/-- **Walking up from a node visits its lineage.** -/
theorem map_val_ancestors {above : List Nat} (element : document.Element)
    (lineage : document.Lineage (element.val :: above)) :
    element.ancestors.map Fin.val = above := by
  have short := lineage.length_le
  have inside : element.val < document.size := element.isLt
  exact map_val_ancestorsWithin element lineage document.size (by omega)

end Document

end ContentAssist
