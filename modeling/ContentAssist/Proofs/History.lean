/-
# ContentAssist.Proofs.History -- the counters come from the children alone

A replay matches the children of an element as they come, with other elements opened and
closed in between.  Nothing of that leaves a trace in the counters: those of an open
element are what its content makes of the names of its children, taken one after the other
from the start.  This holds for every schema and asks nothing of its ranges, so whatever is
to be known of counters is proved by induction over a list of names.

* `Traced`: open elements have nodes of their own, and their counters follow the children
  of those nodes.  A child (`Traced.child`) and a new open element (`Traced.opened`) keep it.
* `Recorded`: what a replay keeps while it agrees; one step (`recorded_of_effect`), and then
  a whole run (`recorded_run`).
-/
import ContentAssist.Proofs.Children
import ContentAssist.Proofs.Greedy
import ContentAssist.Proofs.Steps

namespace ContentAssist.Replay

set_option autoImplicit false

open Markup Schema

/-! ## Open elements and their children -/

/-- The open elements have nodes of their own, and the content of each has taken the children
of its node one after the other. -/
structure Traced (schema : Schema) (document : Document) (stack : List OpenElement) : Prop where
  there : ∀ entry ∈ stack, entry.node < document.size
  distinct : (stack.map OpenElement.node).Nodup
  followed : ∀ entry ∈ stack,
    Follows schema (schema.content? entry.type) (Progress.start (schema.content? entry.type))
      (document.childNames entry.node) entry.progress

section Stack

variable {schema : Schema}

theorem traced_nil (schema : Schema) (document : Document) : Traced schema document [] :=
  ⟨by simp, List.nodup_nil, by simp⟩

theorem Traced.tail {document : Document} {top : OpenElement} {below : List OpenElement}
    (traced : Traced schema document (top :: below)) : Traced schema document below where
  there := (List.forall_mem_cons.mp traced.there).2
  distinct := (List.nodup_cons.mp traced.distinct).2
  followed := (List.forall_mem_cons.mp traced.followed).2

/-- The innermost open element takes a child; the others see nothing of it. -/
theorem Traced.child {document : Document} {top : OpenElement} {below : List OpenElement}
    (traced : Traced schema document (top :: below)) {tag : StartTag} {progress : Progress}
    {element : ElementId}
    (taken : matchContent schema (schema.content? top.type) tag.name top.progress =
      (progress, .ok element)) :
    Traced schema (document.append (some top.node) tag) ({ top with progress } :: below) := by
  have inside : ∀ above ∈ some top.node, above < document.size := by
    rintro above ⟨⟩
    exact traced.there top List.mem_cons_self
  have names := Document.childNames_append inside tag
  constructor
  · intro entry listed
    rw [Document.size_append]
    rcases List.mem_cons.mp listed with rfl | lower
    · exact Nat.lt_succ_of_lt (traced.there top List.mem_cons_self)
    · exact Nat.lt_succ_of_lt (traced.there entry (List.mem_cons_of_mem top lower))
  · exact traced.distinct
  · intro entry listed
    rcases List.mem_cons.mp listed with rfl | lower
    · rw [names, if_pos rfl]
      apply follows_concat.mpr
      exact ⟨top.progress, element, traced.followed top List.mem_cons_self, taken⟩
    · have other : some top.node ≠ some entry.node := by
        intro same
        have apart := (List.nodup_cons.mp traced.distinct).1
        exact apart (List.mem_map.mpr ⟨entry, lower, (Option.some.inj same).symm⟩)
      rw [names, if_neg other, List.append_nil]
      exact traced.followed entry (List.mem_cons_of_mem top lower)

/-- A new open element has no children yet. -/
theorem Traced.opened {before : Replay} (linked : before.document.Linked)
    {parent : Option NodeId} (inside : ∀ above ∈ parent, above < before.document.size)
    {tag : StartTag} {stack : List OpenElement}
    (older : ∀ entry ∈ stack, entry.node < before.document.size)
    (traced : Traced schema (before.document.append parent tag) stack)
    (element : ElementId) (decl : ElementDecl) :
    Traced schema (before.document.append parent tag)
      (entryOf schema before element decl tag :: stack) := by
  constructor
  · intro entry listed
    rcases List.mem_cons.mp listed with rfl | lower
    · rw [Document.size_append]
      exact Nat.lt_succ_self _
    · exact traced.there entry lower
  · refine List.nodup_cons.mpr ⟨?_, traced.distinct⟩
    intro listed
    obtain ⟨entry, lower, same⟩ := List.mem_map.mp listed
    exact Nat.ne_of_lt (older entry lower) same
  · intro entry listed
    rcases List.mem_cons.mp listed with rfl | lower
    · have childless : (before.document.append parent tag).childNames before.document.size =
          [] := by
        rw [Document.childNames_append inside, linked.childNames_eq_nil (Nat.le_refl _),
          if_neg]
        · rfl
        · intro same
          exact Nat.lt_irrefl _ (inside _ same)
      show Follows schema _ _ ((before.document.append parent tag).childNames _) _
      rw [entryOf, childless]
      rfl
    · exact traced.followed entry lower

end Stack

/-! ## Every replay that agrees -/

/-- What a replay keeps while it agrees. -/
structure Recorded (schema : Schema) (replay : Replay) : Prop where
  linked : replay.document.Linked
  early : replay.started = false → replay.stack = []
  traced : Traced schema replay.document replay.stack

/-- The node of an open element, and the names of its children. -/
theorem Recorded.exists_node {schema : Schema} {replay : Replay}
    (recorded : Recorded schema replay) {entry : OpenElement} (listed : entry ∈ replay.stack) :
    ∃ node, replay.document.element? entry.node = some node ∧
      node.children.map Document.Element.name = replay.document.childNames entry.node := by
  have inside := recorded.traced.there entry listed
  exact ⟨⟨entry.node, inside⟩, dif_pos inside, Document.map_name_children recorded.linked _⟩

theorem recorded_of_effect {schema : Schema} {before after : Replay}
    (effect : Effect schema before after)
    (begun : before.started = true → after.started = true) (recorded : Recorded schema before) :
    Recorded schema after := by
  have linked := recorded.linked
  have traced := recorded.traced
  have notYet : after.started = false → before.stack = [] := by
    intro early
    apply recorded.early
    cases started : before.started with
    | false => rfl
    | true => exact (begun started).symm.trans early
  cases effect with
  | kept stack document =>
      rw [← document] at linked traced
      rw [← stack] at traced notYet
      exact ⟨linked, notYet, traced⟩
  | closed top stack document =>
      rw [← document] at linked traced
      rw [stack] at traced
      refine ⟨linked, ?_, traced.tail⟩
      intro early
      cases stack.symm.trans (notYet early)
  | root tag element decl early started declared document stack =>
      have nothing := recorded.early early
      rw [nothing] at stack
      rw [top?, nothing, List.head?_nil, Option.map_none] at document
      have empty := traced_nil schema (before.document.append none tag)
      refine ⟨?_, ?_, ?_⟩
      · rw [document]
        exact Document.linked_append linked (by simp) tag
      · intro late
        cases started.symm.trans late
      · rw [document, stack]
        split
        · exact empty
        · exact empty.opened linked (by simp) (by simp) element decl
  | child tag top below progress element decl inside taken declared document stack =>
      rw [inside] at traced notYet
      have within : ∀ above ∈ some top.node, above < before.document.size := by
        rintro above ⟨⟩
        exact traced.there top List.mem_cons_self
      have older : ∀ entry ∈ { top with progress } :: below,
          entry.node < before.document.size :=
        List.forall_mem_cons.mpr (List.forall_mem_cons.mp traced.there)
      have taller := traced.child taken
      refine ⟨?_, ?_, ?_⟩
      · rw [document]
        exact Document.linked_append linked within tag
      · intro early
        cases notYet early
      · rw [document, stack]
        split
        · exact taller
        · exact taller.opened linked within older element decl

/-- **The counters of an open element come from its children alone**, after any number of
tokens without a fault. -/
theorem recorded_run {schema : Schema} {seen : List Token}
    (valid : (run schema {} seen).fault = none) : Recorded schema (run schema {} seen) := by
  refine run_induction (P := fun _ replay => Recorded schema replay) ?_ ?_ seen valid
  · exact ⟨Document.linked_empty, fun _ => rfl, traced_nil schema _⟩
  · intro seen token replay before faultless
    exact recorded_of_effect (effect_of_step faultless) started_step before

theorem recorded_ofText {schema : Schema} {text : String}
    (agrees : (ofText schema text).Agrees) : Recorded schema (ofText schema text) :=
  recorded_run agrees.fault

end ContentAssist.Replay
