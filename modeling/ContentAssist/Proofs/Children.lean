/-
# ContentAssist.Proofs.Children -- what the links of a document say

A node links to its first and last child and to its next sibling, and `append` keeps
those links up.  Every node also names its parent, and the parents alone say which
children there are: `kids` lists the nodes with a parent, in the order they were added.

`Linked` says that the links agree with the parents.  The empty document is linked and
appending keeps it so (`linked_append`), whatever the parent, as long as it is there.
In a linked document the links lead over the kids and come to an end (`Linked.visits`), so a
walk over the children finds exactly the kids (`map_val_children`), and appending adds one
name to the children of the parent and changes no other node's children
(`childNames_append`).
-/
import ContentAssist.Document
import Mathlib.Data.List.Basic

namespace ContentAssist.Document

set_option autoImplicit false

open Markup

/-! ## Parents -/

/-- The nodes with this parent, in the order they were added. -/
def kids (document : Document) (id : Nat) : List Nat :=
  (List.range document.size).filter fun child =>
    document.nodes[child]?.bind Node.parent == some id

def name? (document : Document) (id : Nat) : Option String :=
  document.nodes[id]?.map Node.name

/-- The names of the nodes with this parent. -/
def childNames (document : Document) (id : Nat) : List String :=
  (document.kids id).filterMap document.name?

theorem lt_size {document : Document} {id : Nat} {node : Node}
    (there : document.nodes[id]? = some node) : id < document.size := by
  obtain ⟨inside, -⟩ := Array.getElem?_eq_some_iff.mp there
  exact inside

theorem mem_kids_iff (document : Document) (id child : Nat) :
    child ∈ document.kids id ↔
      ∃ node, document.nodes[child]? = some node ∧ node.parent = some id := by
  simp only [kids, List.mem_filter, List.mem_range, beq_iff_eq, Option.bind_eq_some_iff]
  constructor
  · rintro ⟨-, found⟩
    exact found
  · rintro ⟨node, there, above⟩
    exact ⟨lt_size there, node, there, above⟩

theorem lt_size_of_mem_kids {document : Document} {id child : Nat}
    (listed : child ∈ document.kids id) : child < document.size := by
  obtain ⟨node, there, -⟩ := (mem_kids_iff document id child).mp listed
  exact lt_size there

theorem kids_sorted (document : Document) (id : Nat) :
    (document.kids id).Pairwise (· < ·) :=
  List.pairwise_lt_range.filter _

theorem length_kids_le (document : Document) (id : Nat) :
    (document.kids id).length ≤ document.size := by
  have bound := List.length_filter_le
    (fun child => document.nodes[child]?.bind Node.parent == some id) (List.range document.size)
  rwa [List.length_range] at bound

theorem length_childNames_le (document : Document) (id : Nat) :
    (document.childNames id).length ≤ document.size :=
  Nat.le_trans (List.length_filterMap_le _ _) (length_kids_le document id)

/-- The last kid is the youngest. -/
theorem le_of_getLast?_kids {document : Document} {id last child : Nat}
    (youngest : (document.kids id).getLast? = some last) (listed : child ∈ document.kids id) :
    child ≤ last := by
  obtain ⟨front, split⟩ := List.getLast?_eq_some_iff.mp youngest
  have sorted := kids_sorted document id
  rw [split] at sorted listed
  rcases List.mem_append.mp listed with earlier | same
  · exact Nat.le_of_lt ((List.pairwise_append.mp sorted).2.2 child earlier last (by simp))
  · exact Nat.le_of_eq (List.mem_singleton.mp same)

/-! ## Links -/

/-- The links agree with the parents. -/
structure Linked (document : Document) : Prop where
  parents : ∀ (id above : Nat) (node : Node), document.nodes[id]? = some node →
    node.parent = some above → above < document.size
  first : ∀ (id : Nat) (node : Node), document.nodes[id]? = some node →
    node.first = (document.kids id).head?
  last : ∀ (id : Nat) (node : Node), document.nodes[id]? = some node →
    node.last = (document.kids id).getLast?
  next : ∀ (id above : Nat) (node : Node), document.nodes[id]? = some node →
    node.parent = some above → node.next = (document.kids above).find? (id < ·)

theorem linked_empty : ({} : Document).Linked := by
  constructor <;> simp

/-- A node that is not there has no kids. -/
theorem Linked.kids_eq_nil {document : Document} (linked : document.Linked) {id : Nat}
    (absent : document.size ≤ id) : document.kids id = [] := by
  rw [List.eq_nil_iff_forall_not_mem]
  intro child listed
  obtain ⟨node, there, above⟩ := (mem_kids_iff document id child).mp listed
  have inside := linked.parents child id node there above
  omega

theorem Linked.childNames_eq_nil {document : Document} (linked : document.Linked) {id : Nat}
    (absent : document.size ≤ id) : document.childNames id = [] := by
  rw [childNames, linked.kids_eq_nil absent]
  rfl

/-! ## Appending -/

theorem getElem?_link {nodes : Array Node} {parent child : Nat} {above : Node}
    (there : nodes[parent]? = some above) (id : Nat) :
    (link nodes parent child)[id]? =
      nodes[id]?.map fun node =>
        { node with
          first := if parent = id then node.first.or (some child) else node.first
          last := if parent = id then some child else node.last
          next := if above.last = some id then some child else node.next } := by
  simp only [link, there]
  cases last : above.last with
  | none =>
      simp only [Array.getElem?_modify]
      by_cases same : parent = id <;> simp [same]
  | some previous =>
      simp only [Array.getElem?_modify, Option.some.injEq]
      by_cases same : parent = id <;> by_cases before : previous = id <;>
        simp [same, before, Function.comp_def]

theorem getElem?_append_root (document : Document) (tag : StartTag) (id : Nat) :
    (document.append none tag).nodes[id]? =
      if id = document.size then
        some { name := tag.name, attributes := tag.attributes, depth := document.depthBelow none }
      else document.nodes[id]? := by
  simp only [append, Array.getElem?_push, size]
  rfl

theorem getElem?_append_child {document : Document} {parent : Nat} {above : Node}
    (there : document.nodes[parent]? = some above) (tag : StartTag) (id : Nat) :
    (document.append (some parent) tag).nodes[id]? =
      if id = document.size then
        some { name := tag.name, attributes := tag.attributes, parent := some parent
               next := if above.last = some document.size then some document.size else none
               depth := document.depthBelow (some parent) }
      else
        document.nodes[id]?.map fun node =>
          { node with
            first := if parent = id then node.first.or (some document.size) else node.first
            last := if parent = id then some document.size else node.last
            next := if above.last = some id then some document.size else node.next } := by
  have inside := lt_size there
  have grown (node : Node) : (document.nodes.push node)[parent]? = some above := by
    rw [Array.getElem?_push, if_neg (by simp only [size] at inside; omega), there]
  simp only [append, getElem?_link (grown _), Array.getElem?_push, size] at inside ⊢
  by_cases new : id = document.nodes.size
  · have other : parent ≠ document.nodes.size := by omega
    simp only [new, other, ↓reduceIte, Option.map_some]
    rfl
  · simp [new]

section Append

variable {document : Document} {parent : Option Nat}
  (there : ∀ above ∈ parent, above < document.size) (tag : StartTag)
include there

theorem parent_append (id : Nat) :
    (document.append parent tag).nodes[id]?.bind Node.parent =
      if id = document.size then parent else document.nodes[id]?.bind Node.parent := by
  cases parent with
  | none =>
      rw [getElem?_append_root]
      split <;> rfl
  | some above =>
      have found := Array.getElem?_eq_getElem (there above rfl)
      rw [getElem?_append_child found]
      split
      · rfl
      · cases document.nodes[id]? <;> rfl

theorem name?_append (id : Nat) :
    (document.append parent tag).name? id =
      if id = document.size then some tag.name else document.name? id := by
  cases parent with
  | none =>
      rw [name?, getElem?_append_root]
      split <;> rfl
  | some above =>
      have found := Array.getElem?_eq_getElem (there above rfl)
      rw [name?, name?, getElem?_append_child found]
      split
      · rfl
      · cases document.nodes[id]? <;> rfl

theorem kids_append (id : Nat) :
    (document.append parent tag).kids id =
      document.kids id ++ if parent = some id then [document.size] else [] := by
  have old : ∀ child ∈ List.range document.size,
      ((document.append parent tag).nodes[child]?.bind Node.parent == some id) =
        (document.nodes[child]?.bind Node.parent == some id) := by
    intro child inside
    rw [List.mem_range] at inside
    rw [parent_append there, if_neg (by omega)]
  rw [kids, size_append, List.range_succ, List.filter_append, List.filter_congr old, kids,
    List.filter_singleton, parent_append there, if_pos rfl]
  simp [Bool.cond_eq_ite]

/-- **Appending adds one child**, to the parent and to no other node. -/
theorem childNames_append (id : Nat) :
    (document.append parent tag).childNames id =
      document.childNames id ++ if parent = some id then [tag.name] else [] := by
  have old : ∀ child ∈ document.kids id,
      (document.append parent tag).name? child = document.name? child := by
    intro child listed
    have inside := lt_size_of_mem_kids listed
    rw [name?_append there, if_neg (by omega)]
  rw [childNames, kids_append there, List.filterMap_append, List.filterMap_congr old, childNames]
  split
  · simp [name?_append there]
  · rfl

end Append

variable {document : Document}

theorem linked_append_root (linked : document.Linked) (tag : StartTag) :
    (document.append none tag).Linked := by
  have same (id : Nat) : (document.append none tag).kids id = document.kids id := by
    rw [kids_append (by simp)]
    simp
  constructor
  · intro id above node found up
    rw [getElem?_append_root] at found
    split at found
    · cases found
      cases up
    · have inside := linked.parents id above node found up
      rw [size_append]
      omega
  · intro id node found
    rw [getElem?_append_root] at found
    rw [same]
    split at found
    · rename_i new
      cases found
      rw [linked.kids_eq_nil (by omega)]
      rfl
    · exact linked.first id node found
  · intro id node found
    rw [getElem?_append_root] at found
    rw [same]
    split at found
    · rename_i new
      cases found
      rw [linked.kids_eq_nil (by omega)]
      rfl
    · exact linked.last id node found
  · intro id above node found up
    rw [getElem?_append_root] at found
    rw [same]
    split at found
    · cases found
      cases up
    · exact linked.next id above node found up

/-- The youngest kid is followed by the new one, any other by the one it was followed by. -/
theorem Linked.find?_kids_append (linked : document.Linked) {parent id : Nat} {above node : Node}
    (there : document.nodes[parent]? = some above) (found : document.nodes[id]? = some node)
    (up : node.parent = some parent) :
    (document.kids parent ++ [document.size]).find? (id < ·) =
      if above.last = some id then some document.size else node.next := by
  have inside := lt_size found
  have listed : id ∈ document.kids parent :=
    (mem_kids_iff document parent id).mpr ⟨node, found, up⟩
  rw [List.find?_append, linked.last parent above there]
  split
  · rename_i youngest
    have none_later : (document.kids parent).find? (id < ·) = none := by
      rw [List.find?_eq_none]
      intro child other later
      have := le_of_getLast?_kids youngest other
      simp only [decide_eq_true_eq] at later
      omega
    simp [none_later, inside]
  · rename_i older
    obtain ⟨last, youngest⟩ : ∃ last, (document.kids parent).getLast? = some last :=
      Option.isSome_iff_exists.mp (List.getLast?_isSome.mpr (List.ne_nil_of_mem listed))
    have later : id < last := by
      have bound := le_of_getLast?_kids youngest listed
      have other : last ≠ id := by
        rintro rfl
        exact older youngest
      omega
    have some_later : ((document.kids parent).find? (id < ·)).isSome = true :=
      List.find?_isSome.mpr ⟨last, List.mem_of_getLast? youngest, by simpa using later⟩
    rw [linked.next id parent node found up, Option.or_of_isSome some_later]

theorem linked_append_child (linked : document.Linked) {parent : Nat} {above : Node}
    (there : document.nodes[parent]? = some above) (tag : StartTag) :
    (document.append (some parent) tag).Linked := by
  have inside := lt_size there
  have grown (id : Nat) : (document.append (some parent) tag).kids id =
      document.kids id ++ if some parent = some id then [document.size] else [] :=
    kids_append (by simpa using inside) tag id
  have fresh : document.kids document.size = [] := linked.kids_eq_nil (Nat.le_refl _)
  -- the new node is nobody's last child yet
  have unseen : above.last ≠ some document.size := by
    rw [linked.last parent above there]
    intro youngest
    have := lt_size_of_mem_kids (List.mem_of_getLast? youngest)
    omega
  constructor
  · intro id up node found named
    rw [getElem?_append_child there] at found
    rw [size_append]
    split at found
    · cases found
      cases named
      omega
    · obtain ⟨old, before, rfl⟩ := Option.map_eq_some_iff.mp found
      have := linked.parents id up old before named
      omega
  · intro id node found
    rw [getElem?_append_child there] at found
    rw [grown]
    split at found
    · rename_i new
      cases found
      have other : parent ≠ document.size := by omega
      simp [new, fresh, other]
    · obtain ⟨old, before, rfl⟩ := Option.map_eq_some_iff.mp found
      by_cases same : parent = id
      · simp [same, linked.first id old before, List.head?_append]
      · simp [same, linked.first id old before]
  · intro id node found
    rw [getElem?_append_child there] at found
    rw [grown]
    split at found
    · rename_i new
      cases found
      have other : parent ≠ document.size := by omega
      simp [new, fresh, other]
    · obtain ⟨old, before, rfl⟩ := Option.map_eq_some_iff.mp found
      by_cases same : parent = id
      · simp [same]
      · simp [same, linked.last id old before]
  · intro id up node found named
    rw [getElem?_append_child there] at found
    rw [grown]
    split at found
    · rename_i new
      cases found
      cases named
      symm
      rw [if_pos rfl, new, List.find?_eq_none]
      intro child listed later
      simp only [decide_eq_true_eq] at later
      rcases List.mem_append.mp listed with older | same
      · have := lt_size_of_mem_kids older
        omega
      · have := List.mem_singleton.mp same
        omega
    · obtain ⟨old, before, rfl⟩ := Option.map_eq_some_iff.mp found
      by_cases same : parent = up
      · subst same
        rw [if_pos rfl, linked.find?_kids_append there before named]
      · have other : above.last ≠ some id := by
          rw [linked.last parent above there]
          intro youngest
          obtain ⟨kid, again, upward⟩ :=
            (mem_kids_iff document parent id).mp (List.mem_of_getLast? youngest)
          cases before.symm.trans again
          exact same (Option.some.inj (upward.symm.trans named))
        simp [same, other, linked.next id up old before named]

/-- **Appending keeps the links up.** -/
theorem linked_append (linked : document.Linked) {parent : Option Nat}
    (there : ∀ above ∈ parent, above < document.size) (tag : StartTag) :
    (document.append parent tag).Linked := by
  cases parent with
  | none => exact linked_append_root linked tag
  | some above => exact linked_append_child linked (Array.getElem?_eq_getElem (there above rfl)) tag

/-! ## Walking over the children -/

/-- In ascending numbers the first one past a member is the one after it. -/
theorem find?_of_sorted {front rest : List Nat} {child : Nat}
    (sorted : (front ++ child :: rest).Pairwise (· < ·)) :
    (front ++ child :: rest).find? (child < ·) = rest.head? := by
  obtain ⟨-, behind, before⟩ := List.pairwise_append.mp sorted
  have passed : front.find? (child < ·) = none := by
    rw [List.find?_eq_none]
    intro other listed later
    have := before other listed child List.mem_cons_self
    simp only [decide_eq_true_eq] at later
    omega
  rw [List.find?_append, passed, Option.none_or, List.find?_cons_of_neg (by simp)]
  cases rest with
  | nil => rfl
  | cons after rest =>
      have ahead : child < after := (List.pairwise_cons.mp behind).1 after List.mem_cons_self
      simp [ahead]

/-- Following links from a start, one after the other, visits these nodes and comes to an
end. -/
inductive Visits (link? : Nat → Option Nat) : Option Nat → List Nat → Prop where
  | done : Visits link? none []
  | step {id : Nat} {rest : List Nat} (onward : Visits link? (link? id) rest) :
      Visits link? (some id) (id :: rest)

/-- The next sibling of a node. -/
def next? (document : Document) (id : Nat) : Option Nat :=
  document.nodes[id]?.bind Node.next

/-- The links from any kid on lead over the rest of the kids. -/
theorem Linked.visits (linked : document.Linked) {id : Nat} (front rest : List Nat)
    (split : document.kids id = front ++ rest) : Visits document.next? rest.head? rest := by
  induction rest generalizing front with
  | nil => exact .done
  | cons child rest ih =>
      have listed : child ∈ document.kids id := by simp [split]
      obtain ⟨node, there, above⟩ := (mem_kids_iff document id child).mp listed
      have sorted := kids_sorted document id
      rw [split] at sorted
      have next : document.next? child = rest.head? := by
        rw [next?, there, Option.bind_some, linked.next child id node there above, split,
          find?_of_sorted sorted]
      exact .step (next ▸ ih (front ++ [child]) (by simp [split]))

/-- A walk with enough steps finds what the links lead over. -/
theorem map_val_siblingsFrom {start : Option Nat} {ids : List Nat}
    (visits : Visits document.next? start ids) (inside : ∀ id ∈ ids, id < document.size)
    (limit : Nat) (enough : ids.length ≤ limit) :
    (Element.siblingsFrom document limit start).map Fin.val = ids := by
  induction visits generalizing limit with
  | done => cases limit <;> rfl
  | @step id rest _ ih =>
      obtain ⟨limit, rfl⟩ : ∃ steps, limit = steps + 1 :=
        Nat.exists_eq_add_of_le' (Nat.le_trans (by simp) enough)
      have present : id < document.nodes.size := inside id List.mem_cons_self
      have later := ih (fun other listed => inside other (List.mem_cons_of_mem id listed)) limit
        (by simpa using enough)
      simp only [next?, Array.getElem?_eq_getElem present, Option.bind_some] at later
      simp [Element.siblingsFrom, element?, present, Element.node, later]

/-- **In a linked document the children of a node are its kids**, in order. -/
theorem map_val_children (linked : document.Linked) (element : document.Element) :
    element.children.map Fin.val = document.kids element := by
  have there : document.nodes[(element : Nat)]? = some element.node :=
    Array.getElem?_eq_getElem element.isLt
  rw [Element.children, linked.first element element.node there]
  exact map_val_siblingsFrom (linked.visits [] _ rfl) (fun _ => lt_size_of_mem_kids) _
    (length_kids_le document element)

theorem map_name_children (linked : document.Linked) (element : document.Element) :
    element.children.map Element.name = document.childNames element := by
  have named (child : document.Element) : document.name? child = some child.name := by
    simp [name?, Element.name, Element.node]
  rw [childNames, ← map_val_children linked, List.filterMap_map, ← List.filterMap_eq_map]
  exact List.filterMap_congr fun child _ => (named child).symm

end ContentAssist.Document
