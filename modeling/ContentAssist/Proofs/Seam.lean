/-
# ContentAssist.Proofs.Seam -- texts that may be read apart

Between two texts there is a *seam* when nothing of the first runs on into the second: the
first ends outside of markup, and text is not followed by more text.  The lexer looks back
from a bracket at the slash or the question mark before it and looks ahead for the end of a
name or a value; none of this reaches across a seam.

* `tokensFrom_of_seam`: past a seam the tokens are those of a fresh start, after the text
  that was unfinished.
* `tokens_append`: so the tokens of the whole are those of the first text and then those of
  the second, further on by the bytes of the first.
* `reading_splits_at_seam`: the same of events and of the place where the typing stands.
* `earlier_events_stay`: at any other place only the last event may change when the text goes
  on, and it never disappears.
-/
import ContentAssist.Proofs.Lexing

namespace ContentAssist.Markup

set_option autoImplicit false

/-! ## Reading on from a seam -/

/-- What comes next does not run on from what is unfinished: nothing is, or nothing comes, or
a bracket does. -/
def Mode.Parts (mode : Mode) (cs : List Char) : Prop :=
  mode.pending? = none ∨ cs = [] ∨ cs.head? = some '<'

/-- Past a seam the first character does what it does at the beginning of a text, and closes
the text that was unfinished. -/
theorem read_of_seam {mode : Mode} (outside : mode.Outside) {c : Char} {cs : List Char}
    (parts : mode.Parts (c :: cs)) :
    mode.read c = { Mode.fresh.read c with closed := mode.pending? } := by
  cases mode with
  | fresh =>
      show readContent c = { readContent c with closed := none }
      unfold readContent
      split <;> rfl
  | content =>
      show readContent c = { readContent c with closed := none }
      unfold readContent
      split <;> rfl
  | text typed =>
      rcases parts with nothing | nothing | bracket
      · cases nothing
      · cases nothing
      · cases bracket
        rfl
  | _ => exact outside.elim

/-- Past a seam the tokens are those of a fresh start. -/
theorem tokensFrom_of_seam {mode : Mode} (outside : mode.Outside) {cs : List Char}
    (parts : mode.Parts cs) (offset : Nat) :
    tokensFrom mode offset cs = pendingToken mode offset ++ tokensFrom .fresh offset cs := by
  cases cs with
  | nil => exact (List.append_nil _).symm
  | cons c cs =>
      have fresh : (Mode.fresh.read c).closed = none := by
        show (readContent c).closed = none
        unfold readContent
        split <;> rfl
      have begins : tokensFrom .fresh offset (c :: cs) =
          tokensFrom (Mode.fresh.read c).mode (offset + c.utf8Size) cs := by
        rw [tokensFrom]
        generalize Mode.fresh.read c = read at fresh ⊢
        obtain ⟨closed, next⟩ := read
        cases fresh
        rfl
      rw [begins, tokensFrom, read_of_seam outside parts]
      cases mode with
      | fresh => rfl
      | content => rfl
      | text typed => rfl
      | _ => exact outside.elim

/-- Past a seam the mode is that of a fresh start, once something has been read. -/
theorem modeAfter_of_seam {mode : Mode} (outside : mode.Outside) {cs : List Char}
    (parts : mode.Parts cs) (some : cs ≠ []) : modeAfter mode cs = modeAfter .fresh cs := by
  obtain ⟨c, cs, rfl⟩ := List.exists_cons_of_ne_nil some
  rw [modeAfter_cons, modeAfter_cons, read_of_seam outside parts]

/-! ## Tokens further on -/

/-- A token of a text that stands after some bytes. -/
def Token.after (token : Token) (bytes : Nat) : Token :=
  { token with stop := bytes + token.stop }

theorem stopOffset_add (event : Event) (bytes offset size : Nat) :
    stopOffset event (bytes + offset) size = bytes + stopOffset event offset size := by
  cases event with
  | text content => rfl
  | _ => exact Nat.add_assoc bytes offset size

/-- Where a text begins shows in the offsets of its tokens and in nothing else. -/
theorem tokensFrom_add (mode : Mode) (bytes offset : Nat) (cs : List Char) :
    tokensFrom mode (bytes + offset) cs =
      (tokensFrom mode offset cs).map fun token => token.after bytes := by
  induction cs generalizing mode offset with
  | nil =>
      rw [tokensFrom, tokensFrom, pendingToken, pendingToken]
      cases mode.pending? <;> rfl
  | cons c cs ih =>
      rw [tokensFrom, tokensFrom, Nat.add_assoc]
      rcases mode.read c with ⟨_ | event, next⟩
      · exact ih next _
      · simp only [ih, stopOffset_add, List.map_cons]
        rfl

/-! ## Texts -/

/-- The second text may be put after the first: the first is empty or ends outside of markup,
and where it ends in text, the second is empty or begins with a bracket. -/
structure Seam (before after : String) : Prop where
  outside : before = "" ∨ caretOf before = .inText
  parts : after = "" ∨ after.toList.head? = some '<' ∨ before = "" ∨
    ∀ content, (events before).getLast? ≠ some (.text content)

namespace Seam

variable {before after : String}

theorem mode_outside (seam : Seam before after) : (modeAfter .fresh before.toList).Outside := by
  rw [Mode.outside_iff_caret]
  rcases seam.outside with rfl | inText
  · exact .inl rfl
  · exact .inr inText

/-- Outside of markup only text is unfinished, and then it is the last event. -/
theorem mode_parts (seam : Seam before after) :
    (modeAfter .fresh before.toList).Parts after.toList := by
  rcases seam.parts with rfl | bracket | rfl | notText
  · exact .inr (.inl rfl)
  · exact .inr (.inr bracket)
  · exact .inl rfl
  · left
    have outside := seam.mode_outside
    cases mode : modeAfter .fresh before.toList with
    | fresh => rfl
    | content => rfl
    | text typed => exact absurd (getLast?_events (by rw [mode]; rfl)) (notText (spell typed))
    | _ =>
        rw [mode] at outside
        exact outside.elim

/-- **The tokens of the whole are the tokens of its parts.** -/
theorem tokens_append (seam : Seam before after) :
    tokens (before ++ after) =
      tokens before ++
        (tokens after).map fun token => token.after (Text.byteLength before.toList) := by
  have further := tokensFrom_add .fresh (Text.byteLength before.toList) 0 after.toList
  rw [Nat.add_zero] at further
  calc tokens (before ++ after)
      = closedFrom .fresh 0 before.toList ++
          tokensFrom (modeAfter .fresh before.toList) (0 + Text.byteLength before.toList)
            after.toList := by
        rw [tokens, String.toList_append, tokensFrom_append]
    _ = tokens before ++ tokensFrom .fresh (Text.byteLength before.toList) after.toList := by
        rw [tokensFrom_of_seam seam.mode_outside seam.mode_parts, ← List.append_assoc,
          ← tokensFrom_eq_closedFrom_append, Nat.zero_add, tokens]
    _ = tokens before ++
          (tokens after).map fun token => token.after (Text.byteLength before.toList) := by
        rw [further]
        rfl

end Seam

/-- **Reading splits at a seam.**  Let the first text be empty or end outside of markup, and
let the second be empty or begin with a bracket, unless the first is empty or does not end in
text.  The events of the two together are those of the first and then those of the second,
and the typing stands where the second alone leaves it, in the same open quote. -/
theorem reading_splits_at_seam (before after : String) (seam : Seam before after) :
    events (before ++ after) = events before ++ events after ∧
      (after ≠ "" →
        caretOf (before ++ after) = caretOf after ∧
          (caretOf (before ++ after)).openQuote? = (caretOf after).openQuote?) := by
  constructor
  · rw [events, seam.tokens_append, List.map_append, List.map_map]
    rfl
  · intro more
    have same : caretOf (before ++ after) = caretOf after := by
      rw [caretOf, String.toList_append, modeAfter_append,
        modeAfter_of_seam seam.mode_outside seam.mode_parts (by simpa using more), caretOf]
    exact ⟨same, congrArg Caret.openQuote? same⟩

/-- Brackets, slashes and question marks on both sides of a seam. -/
theorem reading_splits_after_slash :
    events ("<a/" ++ ">" ++ "/> ?") = events ("<a/" ++ ">") ++ events "/> ?" ∧
    events ("a ?" ++ "<?><b c='") = events "a ?" ++ events "<?><b c='" ∧
    caretOf ("a ?" ++ "<?><b c='") = .inAttributeValue .single := by
  have first := reading_splits_at_seam ("<a/" ++ ">") "/> ?"
    ⟨.inr (by decide +kernel), .inr (.inr (.inr fun content => by
      have last : (events ("<a/" ++ ">")).getLast? =
          some (.startTag { name := "a", selfClosing := true }) := by decide +kernel
      rw [last]
      simp))⟩
  have second := reading_splits_at_seam "a ?" "<?><b c='"
    ⟨.inr (by decide +kernel), .inr (.inl (by decide +kernel))⟩
  refine ⟨first.1, second.1, ?_⟩
  rw [(second.2 (by decide)).1]
  decide +kernel

/-! ## Texts that go on -/

/-- Where something is unfinished, or something is read, there is a token. -/
theorem tokensFrom_ne_nil {mode : Mode} (offset : Nat) {cs : List Char}
    (more : mode.pending?.isSome = true ∨ cs ≠ []) : tokensFrom mode offset cs ≠ [] := by
  induction cs generalizing mode offset with
  | nil =>
      have unfinished := more.resolve_right (fun some => some rfl)
      obtain ⟨event, pending⟩ := Option.isSome_iff_exists.mp unfinished
      rw [tokensFrom, pendingToken, pending]
      exact List.cons_ne_nil _ _
  | cons c cs ih =>
      rw [tokensFrom]
      rcases isSome_pending?_or_finish mode c with pends | ⟨event, closes⟩
      · generalize mode.read c = read at pends
        obtain ⟨_ | event, next⟩ := read
        · exact ih _ (.inl pends)
        · exact List.cons_ne_nil _ _
      · rw [closes]
        exact List.cons_ne_nil _ _

/-- A text is unfinished in one token at most, and that token is never lost. -/
theorem length_pendingToken_le (mode : Mode) (offset : Nat) (cs : List Char) :
    (pendingToken mode offset).length ≤ (tokensFrom mode offset cs).length := by
  unfold pendingToken
  cases pending : mode.pending? with
  | none => exact Nat.zero_le _
  | some event =>
      have found : tokensFrom mode offset cs ≠ [] :=
        tokensFrom_ne_nil offset (.inl (Option.isSome_of_eq_some pending))
      exact List.length_pos_iff.mpr found

theorem tokens_eq_closedFrom_append (text : String) :
    tokens text = closedFrom .fresh 0 text.toList ++
      pendingToken (modeAfter .fresh text.toList) (Text.byteLength text.toList) := by
  rw [tokens, tokensFrom_eq_closedFrom_append, Nat.zero_add]

/-- What has closed while the beginning of a text was read is a beginning of its tokens. -/
theorem tokens_append_eq (typed more : String) :
    tokens (typed ++ more) = closedFrom .fresh 0 typed.toList ++
      tokensFrom (modeAfter .fresh typed.toList) (Text.byteLength typed.toList) more.toList := by
  rw [tokens, String.toList_append, tokensFrom_append, Nat.zero_add]

/-- Every token but the last has closed. -/
theorem dropLast_tokens_isPrefix (text : String) :
    (tokens text).dropLast <+: closedFrom .fresh 0 text.toList := by
  rw [tokens_eq_closedFrom_append, pendingToken]
  cases (modeAfter .fresh text.toList).pending? with
  | none =>
      rw [List.append_nil]
      exact List.dropLast_prefix _
  | some event => exact ⟨[], by rw [List.dropLast_concat, List.append_nil]⟩

/-- **Earlier events stay as the typing goes on.**  Wherever a text is cut, its tokens up to the
last one, with the places where they end, are the first tokens of any text that goes on from
it; the same is true of its events, and there are never fewer of them. -/
theorem earlier_events_stay (typed more : String) :
    (tokens typed).dropLast <+: tokens (typed ++ more) ∧
      (events typed).dropLast <+: events (typed ++ more) ∧
      (events typed).length ≤ (events (typed ++ more)).length := by
  have stay : (tokens typed).dropLast <+: tokens (typed ++ more) := by
    rw [tokens_append_eq]
    exact (dropLast_tokens_isPrefix typed).trans (List.prefix_append _ _)
  refine ⟨stay, ?_, ?_⟩
  · rw [events, events, ← List.map_dropLast]
    exact stay.map Token.event
  · have unfinished := length_pendingToken_le (modeAfter .fresh typed.toList)
      (Text.byteLength typed.toList) more.toList
    rw [events, events, tokens_append_eq, tokens_eq_closedFrom_append]
    simp only [List.length_map, List.length_append]
    omega

end ContentAssist.Markup
