/-
# ContentAssist.Proofs.Mirror -- the open elements are the open tags

A replay keeps a stack of open elements and a document, and fills both while it matches
names against the schema.  Neither depends on the schema as long as the text agrees with it.

* Matching tags by name alone (`matchTags`) succeeds on the events that have been followed,
  and what it leaves open are the names of the open elements.
* The document has one node for every start tag, in order, with its name and attributes.
* The nodes of the open elements are a lineage: the outermost is the root, every other is a
  child of the one outside it.

`Mirrors` says all three and is kept by every event (`mirrors_step`), so it holds of every
text that agrees.  What a hook is told of the open elements is therefore what it finds by
walking up from its element (`stack_mirrors_tags`).
-/
import ContentAssist.Completion.Offer
import ContentAssist.Proofs.ContentModel
import ContentAssist.Proofs.Lineage
import ContentAssist.Proofs.Reading

namespace ContentAssist

set_option autoImplicit false

open Markup Schema Replay

/-! ## Plain tag matching -/

namespace Markup

/-- What an event does to the names of the open tags, innermost first; none when an end tag
does not name the innermost. -/
def matchTag (names : List String) : Event → Option (List String)
  | .startTag tag => some (if tag.selfClosing then names else tag.name :: names)
  | .endTag name =>
      match names with
      | [] => none
      | top :: below => if top = name then some below else none
  | .instruction => some names
  | .text _ => some names

/-- The names of the tags that some events leave open, innermost first; none when an end tag
does not name the innermost. -/
def matchTags (events : List Event) : Option (List String) :=
  events.foldlM matchTag []

theorem matchTags_append_singleton (seen : List Event) (event : Event) :
    matchTags (seen ++ [event]) = (matchTags seen).bind (matchTag · event) := by
  simp only [matchTags, List.foldlM_append, List.foldlM_cons, List.foldlM_nil, bind_pure]
  rfl

def Event.startTag? : Event → Option StartTag
  | .startTag tag => some tag
  | _ => none

/-- The start tags among some events, in order. -/
def startTagsIn (events : List Event) : List StartTag :=
  events.filterMap Event.startTag?

/-- The events of a text without a start tag whose name is still being typed. -/
def settledEvents (text : String) : List Event :=
  if caretOf text = .inStartName then (events text).dropLast else events text

end Markup

/-! ## What a replay mirrors -/

namespace Replay

/-- The open elements and the document are what the tags alone say. -/
structure Mirrors (schema : Schema) (seen : List Event) (replay : Replay) : Prop where
  /-- Matching by name alone succeeds, and leaves the open elements open. -/
  matched : (matchTags seen).map (·.map some) =
    some ((replay.stack.map OpenElement.element).map schema.elementName?)
  /-- Every start tag has a node. -/
  recorded : replay.document.bareNodes.map (fun node => (node.name, node.attributes)) =
    (startTagsIn seen).map fun tag => (tag.name, tag.attributes)
  /-- The nodes of the open elements lead up to the root. -/
  lineage : replay.document.Lineage (replay.stack.map OpenElement.node)
  /-- Those nodes have the declared names. -/
  named : (replay.stack.map OpenElement.node).map replay.document.name? =
    (replay.stack.map OpenElement.element).map schema.elementName?
  rooted : replay.document.Rooted
  early : replay.started = false → replay.stack = [] ∧ replay.document = {}

theorem mirrors_empty (schema : Schema) : Mirrors schema [] {} where
  matched := rfl
  recorded := rfl
  lineage := .nil
  named := rfl
  rooted := Document.rooted_empty
  early := fun _ => ⟨rfl, rfl⟩

variable {schema : Schema} {seen : List Event} {before : Replay}

/-- Nothing but the stack, the document and whether it has begun counts. -/
theorem Mirrors.of_eq (mirrors : Mirrors schema seen before) {after : Replay}
    (stack : after.stack = before.stack) (document : after.document = before.document)
    (early : after.started = false → before.started = false) : Mirrors schema seen after := by
  obtain ⟨matched, recorded, lineage, named, rooted, unbegun⟩ := mirrors
  rw [← stack] at matched lineage named unbegun
  rw [← document] at recorded lineage named rooted unbegun
  exact ⟨matched, recorded, lineage, named, rooted, fun late => unbegun (early late)⟩

/-- An event that is no tag is nothing to match. -/
theorem Mirrors.pass (mirrors : Mirrors schema seen before) {event : Event}
    (passed : ∀ names, matchTag names event = some names) (tagless : event.startTag? = none) :
    Mirrors schema (seen ++ [event]) before := by
  refine { mirrors with matched := ?_, recorded := ?_ }
  · obtain ⟨names, found, opened⟩ := Option.map_eq_some_iff.mp mirrors.matched
    rw [matchTags_append_singleton, found, Option.bind_some, passed, Option.map_some, opened]
  · rw [mirrors.recorded, startTagsIn, startTagsIn, List.filterMap_append]
    simp [tagless]

/-! ## Start tags -/

/-- What a start tag does that keeps agreement: its element is declared with its name and
gets a node under the innermost open element, of which nothing but the progress changes. -/
theorem opened_of_agrees {tag : StartTag} {caret : Caret} (typed : caret ≠ .inStartName)
    (agrees : (before.step schema (.startTag tag) caret).Agrees) :
    ∃ element, schema.elementName? element = some tag.name ∧
      (before.started = false ∨ before.stack ≠ []) ∧
      (before.step schema (.startTag tag) caret).started = true ∧
      (before.step schema (.startTag tag) caret).document =
        before.document.append (before.stack.map OpenElement.node).head? tag ∧
      (before.step schema (.startTag tag) caret).stack.map OpenElement.element =
        (if tag.selfClosing then before.stack.map OpenElement.element
          else element :: before.stack.map OpenElement.element) ∧
      (before.step schema (.startTag tag) caret).stack.map OpenElement.node =
        (if tag.selfClosing then before.stack.map OpenElement.node
          else before.document.size :: before.stack.map OpenElement.node) := by
  obtain ⟨earlier, typing | admitted⟩ := (agrees_step_startTag schema before tag caret).mp agrees
  · exact absurd typing typed
  unfold Admits at admitted
  split at admitted
  · rename_i started
    obtain ⟨top, below, progress, element, stack, taken⟩ := admitted
    have named := elementName?_of_matchContent taken
    obtain ⟨decl, declared, -⟩ := exists_decl_of_elementName? named
    rw [step_startTag_inside earlier started stack taken typed, openElement_eq declared]
    refine ⟨element, named, .inr (by simp [stack]), started, ?_, ?_, ?_⟩
    · simp [top?, stack]
    · by_cases selfClosing : tag.selfClosing <;> simp [selfClosing, stack, entryOf]
    · by_cases selfClosing : tag.selfClosing <;> simp [selfClosing, stack, entryOf]
  · rename_i started
    have early : before.started = false := by simpa using started
    obtain ⟨element, found⟩ := admitted
    have named := elementName?_of_findGlobal? found
    obtain ⟨decl, declared, -⟩ := exists_decl_of_elementName? named
    rw [step_startTag_root earlier early found typed, openElement_eq declared]
    refine ⟨element, named, .inl early, rfl, ?_, ?_, ?_⟩
    · simp [top?]
    · by_cases selfClosing : tag.selfClosing <;> simp [selfClosing, entryOf]
    · by_cases selfClosing : tag.selfClosing <;> simp [selfClosing, entryOf]

/-- The nodes that were there keep their names. -/
theorem map_name?_append {document : Document} {ids : List Nat}
    (lineage : document.Lineage ids) (parent : Option Nat) (tag : StartTag) :
    ids.map (document.append parent tag).name? = ids.map document.name? := by
  induction lineage with
  | nil => rfl
  | cons node there _ _ _ _ ih =>
      rw [List.map_cons, List.map_cons, ih, Document.name?_eq, Document.name?_eq,
        Document.getElem?_bareNodes_append there, there]

/-- A start tag is matched, and its node goes under that of the innermost open element. -/
theorem Mirrors.start (mirrors : Mirrors schema seen before) {tag : StartTag} {caret : Caret}
    (typed : caret ≠ .inStartName)
    (agrees : (before.step schema (.startTag tag) caret).Agrees) :
    Mirrors schema (seen ++ [.startTag tag]) (before.step schema (.startTag tag) caret) := by
  obtain ⟨element, declared, place, started, document, elements, nodes⟩ :=
    opened_of_agrees typed agrees
  generalize before.step schema (.startTag tag) caret = after at started document elements nodes ⊢
  -- nothing is open around the root, and a start tag after the root's end does not agree
  have first : (before.stack.map OpenElement.node).head? = none ↔ before.document.size = 0 := by
    rcases place with early | inside
    · obtain ⟨stack, empty⟩ := mirrors.early early
      simp [stack, empty, Document.size]
    · obtain ⟨top, below, stack⟩ := List.exists_cons_of_ne_nil inside
      have there := mirrors.lineage.head_lt top.node (by simp [stack])
      simp only [stack, List.map_cons, List.head?_cons, reduceCtorEq, false_iff]
      omega
  have named : (before.document.append (before.stack.map OpenElement.node).head? tag).name?
      before.document.size = schema.elementName? element := by
    rw [Document.name?_eq, Document.getElem?_bareNodes_size, declared]
    rfl
  refine ⟨?_, ?_, ?_, ?_, ?_, ?_⟩
  · obtain ⟨names, found, opened⟩ := Option.map_eq_some_iff.mp mirrors.matched
    rw [matchTags_append_singleton, found, elements]
    by_cases selfClosing : tag.selfClosing <;>
      simp only [matchTag, selfClosing, Option.bind_some, Option.map_some, List.map_cons,
        opened, declared, if_true, Bool.false_eq_true, if_false]
  · rw [document, Document.bareNodes_append, List.map_append, mirrors.recorded, startTagsIn,
      startTagsIn, List.filterMap_append, List.map_append]
    rfl
  · rw [document, nodes]
    split
    · exact mirrors.lineage.append _ tag
    · exact mirrors.lineage.grow tag
  · rw [document, nodes, elements]
    split
    · rw [map_name?_append mirrors.lineage, mirrors.named]
    · rw [List.map_cons, List.map_cons, map_name?_append mirrors.lineage, mirrors.named, named]
  · rw [document]
    exact mirrors.rooted.append first tag
  · intro late
    cases started.symm.trans late

/-! ## Every event -/

/-- An end tag is matched by the name of the innermost open element. -/
theorem Mirrors.finish (mirrors : Mirrors schema seen before) {name : String} {caret : Caret}
    (agrees : (before.step schema (.endTag name) caret).Agrees) :
    Mirrors schema (seen ++ [.endTag name]) (before.step schema (.endTag name) caret) := by
  obtain ⟨earlier, started, top, below, stack, declared⟩ :=
    (agrees_step_endTag schema before name caret).mp agrees
  rw [step_endTag earlier started stack declared]
  obtain ⟨matched, recorded, lineage, named, rooted, -⟩ := mirrors
  simp only [stack, List.map_cons] at matched lineage named
  refine ⟨?_, ?_, ?_, ?_, rooted, ?_⟩
  · obtain ⟨names, found, opened⟩ := Option.map_eq_some_iff.mp matched
    rw [declared] at opened
    rw [matchTags_append_singleton, found]
    cases names with
    | nil => cases opened
    | cons other names =>
        rw [List.map_cons, List.cons.injEq, Option.some.injEq] at opened
        obtain ⟨rfl, rest⟩ := opened
        simp [matchTag, rest]
  · rw [recorded, startTagsIn, startTagsIn, List.filterMap_append]
    simp [Event.startTag?]
  · exact Document.Lineage.drop (List.singleton_append ▸ lineage)
  · exact (List.cons.inj named).2
  · intro late
    cases started.symm.trans late

/-- **Every event that agrees keeps the mirror**, once its name has been typed. -/
theorem mirrors_step (mirrors : Mirrors schema seen before) {event : Event} {caret : Caret}
    (typed : caret ≠ .inStartName) (agrees : (before.step schema event caret).Agrees) :
    Mirrors schema (seen ++ [event]) (before.step schema event caret) := by
  have earlier := agrees.of_step
  cases event with
  | startTag tag => exact mirrors.start typed agrees
  | endTag name => exact mirrors.finish agrees
  | instruction =>
      rw [step_of_insignificant earlier.stopped schema rfl]
      exact (mirrors.pass (fun _ => rfl) rfl).of_eq rfl rfl id
  | text content =>
      have passed : Mirrors schema (seen ++ [.text content]) before :=
        mirrors.pass (fun _ => rfl) rfl
      obtain ⟨-, started | blank⟩ := (agrees_step_text schema before content caret).mp agrees
      · rw [step_text_inside earlier schema started]
        exact passed.of_eq rfl rfl id
      · rw [step_of_insignificant earlier.stopped schema blank]
        exact passed.of_eq rfl rfl id

theorem mirrors_runClosed {events : List Event}
    (agrees : (runClosed schema {} events).Agrees) :
    Mirrors schema events (runClosed schema {} events) :=
  runClosed_induction (mirrors_empty schema)
    (fun _ _ _ mirrors agrees => mirrors_step mirrors (by simp) agrees) events agrees

/-- A text that agrees mirrors its events, but for a start tag whose name is being typed. -/
theorem mirrors_ofText {text : String} (agrees : (ofText schema text).Agrees) :
    Mirrors schema (settledEvents text) (ofText schema text) := by
  rw [ofText_eq_settle] at agrees ⊢
  rw [settledEvents, events_eq, caretOf]
  simp only [Reading.settle, Reading.read] at agrees ⊢
  generalize closedEvents .fresh text.toList = closed at agrees ⊢
  generalize modeAfter .fresh text.toList = mode at agrees ⊢
  cases pending : mode.pending? with
  | none =>
      simp only [pending] at agrees ⊢
      have typed : mode.caret ≠ .inStartName := by
        cases mode <;> simp [Mode.pending?, Mode.caret] at pending ⊢
      rw [if_neg typed, Option.toList_none, List.append_nil]
      exact mirrors_runClosed agrees
  | some event =>
      simp only [pending] at agrees ⊢
      have mirrors := mirrors_runClosed agrees.of_step
      by_cases typing : mode.caret = .inStartName
      · -- the tag opens nothing as long as its name may go on
        obtain ⟨tag, rfl⟩ : ∃ tag, event = .startTag tag := by
          cases mode <;> simp [Mode.caret, Mode.pending?] at typing pending <;>
            exact ⟨_, pending.symm⟩
        rw [typing, step_startTag_typing agrees.of_step, if_pos rfl, Option.toList_some,
          List.dropLast_concat]
        exact mirrors.of_eq rfl rfl (by simp)
      · rw [if_neg typing]
        exact mirrors_step mirrors typing agrees

/-! ## What hooks are told -/

/-- The names left open by the tags are the declared names of the open elements. -/
theorem Mirrors.names (mirrors : Mirrors schema seen before) :
    ∃ names, matchTags seen = some names ∧
      before.stack.map (fun entry => schema.elementName? entry.element) = names.map some := by
  obtain ⟨names, found, opened⟩ := Option.map_eq_some_iff.mp mirrors.matched
  refine ⟨names, found, ?_⟩
  rw [opened, List.map_map]
  rfl

/-- An open element is a child of the one outside it, or the root. -/
theorem Mirrors.entry (mirrors : Mirrors schema seen before) {inner below : List OpenElement}
    {entry : OpenElement} (stack : before.stack = inner ++ entry :: below) :
    ∃ node, before.document.nodes[entry.node]? = some node ∧
      node.parent = below.head?.map OpenElement.node ∧
      node.depth = min below.length Document.depthLimit ∧
      (below = [] → before.document.root = some entry.node) := by
  have lineage := mirrors.lineage
  rw [stack, List.map_append, List.map_cons] at lineage
  cases lineage.drop with
  | cons node there parent depth _ _ =>
      have orphan := mirrors.rooted.orphans entry.node node there
      obtain ⟨full, found, rfl⟩ := Document.exists_of_getElem?_bareNodes there
      refine ⟨full, found, ?_, ?_, ?_⟩
      · rw [← List.head?_map]
        exact parent
      · rw [List.length_map] at depth
        exact depth
      · rintro rfl
        have first := orphan.mp parent
        exact (mirrors.rooted.root_iff (by simp [found])).mpr first

/-- The site of the innermost open element is there, and the names of its path are those met
on the way up. -/
theorem Mirrors.site (mirrors : Mirrors schema seen before) {top : OpenElement}
    (innermost : before.top? = some top) :
    ∃ site, Completion.site? schema before top = some site ∧
      site.ancestors.map Completion.Ancestor.name =
        (site.element.ancestors.map Document.Element.name).reverse ++ [site.element.name] := by
  obtain ⟨below, stack⟩ := List.head?_eq_some_iff.mp innermost
  have lineage := mirrors.lineage
  rw [stack, List.map_cons] at lineage
  have inside : top.node < before.document.nodes.size := lineage.head_lt top.node rfl
  obtain ⟨here, found, position⟩ : ∃ here : before.document.Element,
      before.document.element? top.node = some here ∧ here.val = top.node :=
    ⟨⟨top.node, inside⟩, dif_pos inside, rfl⟩
  refine ⟨_, congrArg (Option.map _) found, ?_⟩
  -- names are compared by position: those of the path, and those met on the way up
  have path : (here :: here.ancestors).map Fin.val = before.stack.map OpenElement.node := by
    rw [← position] at lineage
    rw [List.map_cons, Document.map_val_ancestors here lineage, stack, List.map_cons, position]
  calc (Completion.openPath schema before).map Completion.Ancestor.name
    _ = (((before.stack.map OpenElement.element).map schema.elementName?).map
          (·.getD "")).reverse := by
        simp [Completion.openPath, Function.comp_def]
    _ = (((here :: here.ancestors).map Fin.val).map
          fun id => (before.document.name? id).getD "").reverse := by
        rw [path, ← mirrors.named, List.map_map]
        rfl
    _ = ((here :: here.ancestors).map Document.Element.name).reverse := by
        rw [List.map_map]
        simp only [Function.comp_def, ← Document.Element.name_eq]
    _ = (here.ancestors.map Document.Element.name).reverse ++ [here.name] := by
        rw [List.map_cons, List.reverse_cons]

end Replay

/-- **Open elements are open tags, and the document is what the tags say.**  Let a text agree
with the schema, and leave out a start tag whose name is still being typed.  Matching its
tags by name alone never fails, and leaves open the names of the open elements, in their
order.  The document has one node for each start tag, in order, with its name and its
attributes; the root is the only node without a parent.  An open element with `below` outside
it has the innermost of those as its parent, or is the root, and its depth is their number.
So the names a hook is told are those it finds by walking up from its element. -/
theorem stack_mirrors_tags (schema : Schema) (text : String)
    (agrees : (ofText schema text).Agrees) :
    (∃ names, matchTags (settledEvents text) = some names ∧
      (ofText schema text).stack.map (fun entry => schema.elementName? entry.element) =
        names.map some) ∧
    (ofText schema text).document.nodes.toList.map (fun node => (node.name, node.attributes)) =
      (startTagsIn (settledEvents text)).map (fun tag => (tag.name, tag.attributes)) ∧
    (∀ (id : Nat) (node : Node), (ofText schema text).document.nodes[id]? = some node →
      (node.parent = none ↔ (ofText schema text).document.root = some id)) ∧
    (∀ inner entry below, (ofText schema text).stack = inner ++ entry :: below →
      ∃ node, (ofText schema text).document.nodes[entry.node]? = some node ∧
        node.parent = below.head?.map OpenElement.node ∧
        node.depth = min below.length 65535 ∧
        (below = [] → (ofText schema text).document.root = some entry.node)) ∧
    ∀ top, (ofText schema text).top? = some top →
      ∃ site, Completion.site? schema (ofText schema text) top = some site ∧
        site.ancestors.map Completion.Ancestor.name =
          (site.element.ancestors.map Document.Element.name).reverse ++ [site.element.name] := by
  have mirrors := mirrors_ofText agrees
  refine ⟨mirrors.names, ?_, ?_, fun _ _ _ => mirrors.entry, fun _ => mirrors.site⟩
  · rw [← mirrors.recorded, Document.bareNodes, List.map_map]
    rfl
  · intro id node found
    rw [mirrors.rooted.root_iff (by simp [found])]
    exact mirrors.rooted.orphans id node.bare (by simp [Document.getElem?_bareNodes, found])

/-- A letter with a note in it, whose last start tag has no name yet. -/
theorem letters_mirrors_tags :
    (ofText letters "<letter><greeting/><note lang='en'><greeting/><").Agrees ∧
    matchTags (settledEvents "<letter><greeting/><note lang='en'><greeting/><") =
      some ["note", "letter"] ∧
    (ofText letters "<letter><greeting/><note lang='en'><greeting/><").stack.map
      (fun entry => letters.elementName? entry.element) = [some "note", some "letter"] := by
  have agrees : (ofText letters "<letter><greeting/><note lang='en'><greeting/><").Agrees := by
    decide +kernel
  have matched : matchTags (settledEvents "<letter><greeting/><note lang='en'><greeting/><") =
      some ["note", "letter"] := by decide +kernel
  obtain ⟨⟨names, found, opened⟩, -⟩ := stack_mirrors_tags letters _ agrees
  obtain rfl : names = ["note", "letter"] := Option.some.inj (found.symm.trans matched)
  exact ⟨agrees, matched, opened⟩

end ContentAssist
