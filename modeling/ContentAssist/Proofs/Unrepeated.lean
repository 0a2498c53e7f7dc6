/-
# ContentAssist.Proofs.Unrepeated -- no name is offered twice

Offers for the name of a start tag come from two passes over a sequence: the rest of the round
underway, and the beginning of the next one.  The second pass leaves out what is offered
already, but it compares positions and not names, and it looks at each particle by itself.  So
a particle that lists an element twice has it offered twice, and so have two elements with one
name.

Where the content refers to no two elements with one name (`Distinct`) nothing is offered
twice, wherever the first pass begins and ends.

* `unrepeated_currentOffers`: the first pass goes over a piece of the particles, in their order.
* `Unrepeated.addOffers`: a particle of the second pass adds names that are not there yet, since
  a name stands for one position; by induction the whole pass does.

References to elements that are not there may be offered again and again: they have no name,
and nothing comes of them.
-/
import ContentAssist.Proofs.Derivation
import ContentAssist.Proofs.Greedy
import ContentAssist.Proofs.Narrowing
import Mathlib.Data.List.Flatten

namespace ContentAssist

set_option autoImplicit false

open Markup Schema Replay Completion

/-! ## Two passes over a sequence -/

namespace Replay

theorem takeThrough_isPrefix {α : Type} (wanted : α → Bool) (entries : List α) :
    takeThrough wanted entries <+: entries := by
  induction entries with
  | nil => exact List.nil_prefix
  | cons first rest ih =>
      rw [takeThrough]
      split
      · exact List.prefix_append [first] rest
      · exact (List.prefix_cons_inj first).mpr ih

/-- The elements that a sequence refers to, in order. -/
def elementsOf (particles : List Particle) : List ElementId :=
  particles.flatMap fun particle => particle.term.elements

/-- No name is there twice, and there is nothing but candidates. -/
structure Unrepeated (schema : Schema) (candidates offered : List ElementId) : Prop where
  names : (offered.filterMap schema.elementName?).Nodup
  listed : offered ⊆ candidates

variable {schema : Schema} {candidates offered : List ElementId}

theorem Unrepeated.of_sublist (distinct : (candidates.filterMap schema.elementName?).Nodup)
    (part : offered.Sublist candidates) : Unrepeated schema candidates offered :=
  ⟨distinct.sublist (part.filterMap _), part.subset⟩

/-- The first pass goes over a piece of the particles. -/
theorem unrepeated_currentOffers (group : Sequence) (progress : Progress)
    (distinct : ((elementsOf group.particles).filterMap schema.elementName?).Nodup) :
    Unrepeated schema (elementsOf group.particles) (currentOffers group progress) := by
  have piece : (takeThrough (isUnmet progress) (remaining group progress)).Sublist
      group.particles.zipIdx :=
    (takeThrough_isPrefix _ _).sublist.trans (List.drop_sublist _ _)
  have whole : elementsOf group.particles =
      group.particles.zipIdx.flatMap fun entry => entry.1.term.elements := by
    rw [elementsOf, ← List.zipIdx_map_fst 0 group.particles, List.flatMap_map,
      List.zipIdx_map_fst]
  refine .of_sublist distinct ?_
  rw [whole]
  exact piece.flatMap _

/-- A particle of the second pass adds no name that is there already. -/
theorem Unrepeated.addOffers (distinct : (candidates.filterMap schema.elementName?).Nodup)
    (unrepeated : Unrepeated schema candidates offered) {particle : Particle}
    (part : particle.term.elements.Sublist candidates) :
    Unrepeated schema candidates (addOffers offered particle) := by
  have fresh : (particle.term.elements.filter fun id => !offered.contains id).Sublist
      candidates := List.filter_sublist.trans part
  constructor
  · rw [Replay.addOffers, List.filterMap_append]
    refine List.Nodup.append unrepeated.names (distinct.sublist (fresh.filterMap _)) ?_
    intro name before after
    obtain ⟨first, old, named⟩ := List.mem_filterMap.mp before
    obtain ⟨second, new, renamed⟩ := List.mem_filterMap.mp after
    have same := eq_of_mem_of_nodup_filterMap distinct (unrepeated.listed old)
      (fresh.subset new) named renamed
    have absent : second ∉ offered := by simpa using (List.mem_filter.mp new).2
    exact absent (same ▸ old)
  · exact List.append_subset.mpr ⟨unrepeated.listed, fresh.subset⟩

theorem Unrepeated.foldl_addOffers (distinct : (candidates.filterMap schema.elementName?).Nodup)
    (unrepeated : Unrepeated schema candidates offered) {particles : List Particle}
    (parts : ∀ particle ∈ particles, particle.term.elements.Sublist candidates) :
    Unrepeated schema candidates (particles.foldl Replay.addOffers offered) := by
  induction particles generalizing offered with
  | nil => exact unrepeated
  | cons particle rest ih =>
      obtain ⟨first, others⟩ := List.forall_mem_cons.mp parts
      exact ih (unrepeated.addOffers distinct first) others

/-- **No two elements with one name are offered for a sequence**, in both passes taken
together. -/
theorem unrepeated_sequenceOffers (group : Sequence) (progress : Progress)
    (distinct : ((elementsOf group.particles).filterMap schema.elementName?).Nodup) :
    Unrepeated schema (elementsOf group.particles) (sequenceOffers group progress) := by
  have current := unrepeated_currentOffers group progress distinct
  unfold sequenceOffers
  dsimp only
  split
  · refine current.foldl_addOffers distinct ?_
    intro particle listed
    have inside := (takeThrough_isPrefix _ group.particles).subset listed
    rw [elementsOf, List.flatMap_def]
    exact List.sublist_flatten_of_mem (List.mem_map_of_mem inside)
  · exact current

/-- A particle that lists an element twice has it offered twice, and the next round does not
mend that. -/
example :
    sequenceOffers
      { particles := [⟨.choice { alternatives := [4, 4] }, .any⟩], occurs := .any }
      { counts := [1] } = [4, 4] := by decide

/-- No two elements with one name are offered for any content. -/
theorem nodup_names_offers {content : Option Content}
    (distinct : ∀ known ∈ content, Distinct schema known) (progress : Progress) :
    ((offers content progress).filterMap schema.elementName?).Nodup := by
  unfold offers
  split
  · rename_i group
    exact (unrepeated_sequenceOffers group progress (distinct _ rfl _ rfl)).names
  · rename_i group
    split
    · exact List.nodup_nil
    · exact distinct _ rfl _ rfl
  · exact List.nodup_nil

end Replay

/-! ## Names of start tags -/

namespace Completion

/-- The name of the start tag that is inserted, if it is one. -/
def Insertion.startName? : Insertion → Option String
  | .element name _ _ => some name
  | _ => none

/-- The names of the start tags that are offered, in order. -/
def startNames (completion : Completion) : List String :=
  completion.suggestions.filterMap fun suggestion => suggestion.insertion.startName?

theorem startName?_element (schema : Schema) (decl : ElementDecl) :
    (Suggestion.element schema decl).insertion.startName? = some decl.name := by
  unfold Suggestion.element
  cases schema.complex? decl.type with
  | none => rfl
  | some type => rfl

/-- The start tags offered inside an element are those of its content that go on from what
was typed. -/
theorem startNames_elementOffers {schema : Schema} {replay : Replay} {top : OpenElement}
    (inside : replay.top? = some top) (later : replay.lastIsRoot = false) (typed : String) :
    (elementOffers schema replay typed).startNames =
      ((offers (schema.content? top.type) top.progress).filterMap schema.elementName?).filter
        fun name => Text.startsWith name typed := by
  have closing : (closingTag schema top typed).filterMap
      (fun suggestion => suggestion.insertion.startName?) = [] := by
    rw [List.filterMap_eq_nil_iff]
    intro suggestion listed
    obtain ⟨-, name, -, closes⟩ := mem_closingTag listed
    rw [closes]
    rfl
  simp only [startNames, elementOffers, later, inside, startTags, Bool.false_eq_true, if_false,
    List.filterMap_append, closing, List.append_nil, List.filterMap_map]
  have names (decls : List ElementDecl) :
      decls.filterMap ((fun suggestion => suggestion.insertion.startName?) ∘
        Suggestion.element schema) = decls.map ElementDecl.name := by
    rw [← List.filterMap_eq_map]
    apply List.filterMap_congr
    intro decl _
    exact startName?_element schema decl
  have declared (ids : List ElementId) : ids.filterMap schema.elementName? =
      (ids.filterMap schema.element?).map ElementDecl.name := List.map_filterMap.symm
  rw [names, declared, List.filter_map]
  rfl

end Completion

/-- While a name is typed inside an element, the offers are those for a tag that is not the
first one. -/
theorem exists_suggest_typing {engine : Engine} {text : String}
    (inName : caretOf text = .inStartName) (agrees : (ofText engine.schema text).Agrees)
    {top : OpenElement} (inside : (ofText engine.schema text).top? = some top) :
    (ofText engine.schema text).lastIsRoot = false ∧ ∃ typed,
      engine.suggest text = elementOffers engine.schema (ofText engine.schema text) typed := by
  obtain ⟨newest, typing⟩ : ∃ newest,
      (modeAfter .fresh text.toList).typedName? = some newest := by
    rw [caretOf] at inName
    cases mode : modeAfter .fresh text.toList with
    | opened => exact ⟨[], rfl⟩
    | startName newest => exact ⟨newest, rfl⟩
    | _ =>
        rw [mode] at inName
        cases inName
  have clean : IsClean engine.schema text := ⟨agrees.1, .inl agrees.2⟩
  constructor
  · have earlier : (({} : Reading).read engine.schema text.toList).closed.Agrees :=
      agrees_of_asks ((isClean_iff_asks _ _).mp ((isClean_iff_read _ _).mp clean))
    have followed : ofText engine.schema text =
        (({} : Reading).read engine.schema text.toList).closed.typing (spell newest) := by
      rw [ofText_eq_settle]
      exact settle_typedName engine.schema typing earlier
    rw [followed] at inside ⊢
    cases started : (({} : Reading).read engine.schema text.toList).closed.started with
    | true => simp [Replay.typing, started]
    | false =>
        -- before the first tag nothing is open
        have empty := ((mirrors_runClosed earlier).early started).1
        change (runClosed engine.schema {} _).stack.head? = some top at inside
        rw [empty] at inside
        cases inside
  · refine ⟨spell newest, ?_⟩
    rw [suggest_of_isClean clean]
    exact (offersIn_typedName typing engine _).1

/-- **No name is offered twice.**  Where the name of a start tag is being typed inside an
element whose content refers to no two elements with one name, the names of the start tags
offered are distinct: those of the round underway and those that open the next one. -/
theorem no_name_offered_twice (engine : Engine) (text : String)
    (inName : caretOf text = .inStartName) (agrees : (ofText engine.schema text).Agrees)
    (top : OpenElement) (inside : (ofText engine.schema text).top? = some top)
    (distinct : ∀ content ∈ engine.schema.content? top.type, Distinct engine.schema content) :
    (engine.suggest text).startNames.Nodup := by
  obtain ⟨later, typed, offered⟩ := exists_suggest_typing inName agrees inside
  rw [offered, startNames_elementOffers inside later]
  exact (nodup_names_offers distinct top.progress).filter _

/-- A playlist is any number of rounds of a title, which may be left out, and songs and
jingles.  It also refers to elements that are not there. -/
def playlists : Schema where
  types :=
    [.complex
        { content := .sequence
            { particles :=
                [⟨.element 1, .optional⟩, ⟨.choice { alternatives := [2, 9, 3] }, .any⟩,
                  ⟨.choice { alternatives := [9, 9] }, .optional⟩]
              occurs := .any } },
      .simple {}]
  elements :=
    [{ name := "playlist", type := 0 }, { name := "title", type := 1 },
      { name := "song", type := 1 }, { name := "jingle", type := 1 }]
  globals := [0]

/-- After a song more may follow; a title opens the next round, where songs come again. -/
theorem playlists_no_name_offered_twice :
    caretOf "<playlist><title/><song/><" = .inStartName ∧
    (ofText playlists "<playlist><title/><song/><").Agrees ∧
    ((Engine.mk playlists {} {}).suggest "<playlist><title/><song/><").startNames =
      ["song", "jingle", "title"] ∧
    ((Engine.mk playlists {} {}).suggest "<playlist><title/><song/><").startNames.Nodup := by
  have inName : caretOf "<playlist><title/><song/><" = .inStartName := by decide +kernel
  have agrees : (ofText playlists "<playlist><title/><song/><").Agrees := by decide +kernel
  have top : (ofText playlists "<playlist><title/><song/><").top? =
      some { element := 0, type := 0, nillable := false
             progress := { counts := [1, 1, 0], nextChild := 1 }, node := 0 } := by
    decide +kernel
  refine ⟨inName, agrees, by decide +kernel, ?_⟩
  exact no_name_offered_twice (Engine.mk playlists {} {}) _ inName agrees _ top (by decide)

end ContentAssist
