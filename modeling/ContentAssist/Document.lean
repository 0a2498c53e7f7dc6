/-
# ContentAssist.Document -- the elements typed so far, as a tree

Nodes stand in one array in the order they were opened, and a node is known by its position.
`append` is the only way to add one.  The new node goes last under its parent; a parent that
is not there is recorded and nothing is linked.

A next sibling is always younger, so a walk over children ends by itself.  A parent may be
named before it exists, so a walk up may go round in a circle, and `ancestorsWithin` takes the
number of steps it may make.
-/
import ContentAssist.Markup.Event

namespace ContentAssist

set_option autoImplicit false

open Markup

abbrev NodeId := Nat

structure Node where
  name : String
  attributes : Attributes := {}
  parent : Option NodeId := none
  first : Option NodeId := none
  last : Option NodeId := none
  next : Option NodeId := none
  depth : Nat := 0
  deriving DecidableEq, Repr, Inhabited

def Node.hasChildren (node : Node) : Bool :=
  node.first.isSome

def Node.hasAttributes (node : Node) : Bool :=
  !node.attributes.isEmpty

/-- Elements in the order they were opened, and the first one without a parent. -/
structure Document where
  nodes : Array Node := #[]
  root : Option NodeId := none
  deriving DecidableEq, Repr, Inhabited

namespace Document

def depthLimit : Nat := 65535

def size (document : Document) : Nat :=
  document.nodes.size

def isEmpty (document : Document) : Bool :=
  document.nodes.isEmpty

/-! ## Growing -/

/-- The depth of a child of this parent; a parent that is not there counts for none. -/
def depthBelow (document : Document) (parent : Option NodeId) : Nat :=
  match parent.bind (document.nodes[·]?) with
  | some node => Nat.min (node.depth + 1) depthLimit
  | none => 0

/-- Make `child` the last child of `parent`, if there is such a node. -/
def link (nodes : Array Node) (parent child : NodeId) : Array Node :=
  match nodes[parent]? with
  | none => nodes
  | some node =>
      let adopted := nodes.modify parent fun node =>
        { node with first := node.first.or (some child), last := some child }
      match node.last with
      | none => adopted
      | some previous => adopted.modify previous fun node => { node with next := some child }

/-- Add the element of a start tag under a parent, or as a root. -/
def append (document : Document) (parent : Option NodeId) (tag : StartTag) : Document :=
  let depth := document.depthBelow parent
  match document with
  | ⟨nodes, root⟩ =>
      let child := nodes.size
      let grown := nodes.push { name := tag.name, attributes := tag.attributes, parent, depth }
      match parent with
      | some parent => ⟨link grown parent child, root⟩
      | none => ⟨grown, root.or (some child)⟩

/-- Add `count` elements of a start tag, each under the one before. -/
def appendChain (document : Document) (parent : Option NodeId) (tag : StartTag) :
    (count : Nat) → Document
  | 0 => document
  | count + 1 =>
      let child := document.size
      appendChain (document.append parent tag) (some child) tag count

@[simp] theorem size_link (nodes : Array Node) (parent child : NodeId) :
    (link nodes parent child).size = nodes.size := by
  unfold link
  split
  · rfl
  · split <;> simp

@[simp] theorem size_append (document : Document) (parent : Option NodeId) (tag : StartTag) :
    (document.append parent tag).size = document.size + 1 := by
  obtain ⟨nodes, root⟩ := document
  cases parent with
  | none => simp [append, size]
  | some parent => simp [append, size]

/-! ## Looking around -/

/-- A node that is there. -/
abbrev Element (document : Document) := Fin document.nodes.size

def element? (document : Document) (id : NodeId) : Option document.Element :=
  if present : id < document.nodes.size then some ⟨id, present⟩ else none

namespace Element

variable {document : Document}

def node (element : document.Element) : Node :=
  document.nodes[element]

def name (element : document.Element) : String :=
  element.node.name

def attributeText? (element : document.Element) (name : String) : Option String :=
  element.node.attributes.text? name

def parent? (element : document.Element) : Option document.Element :=
  element.node.parent.bind document.element?

def siblingsFrom (document : Document) : (limit : Nat) → Option NodeId → List document.Element
  | 0, _ => []
  | _ + 1, none => []
  | limit + 1, some id =>
      match document.element? id with
      | none => []
      | some element => element :: siblingsFrom document limit element.node.next

def children (element : document.Element) : List document.Element :=
  siblingsFrom document document.size element.node.first

def ancestorsWithin : (limit : Nat) → document.Element → List document.Element
  | 0, _ => []
  | limit + 1, element =>
      match element.parent? with
      | none => []
      | some parent => parent :: ancestorsWithin limit parent

/-- The ancestors from the parent up, each once when no parent is its own ancestor. -/
def ancestors (element : document.Element) : List document.Element :=
  ancestorsWithin document.size element

def up? : (steps : Nat) → document.Element → Option document.Element
  | 0, element => some element
  | steps + 1, element => element.parent?.bind (up? steps)

end Element

end Document

end ContentAssist
