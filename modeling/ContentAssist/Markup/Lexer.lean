/-
# ContentAssist.Markup.Lexer -- reading markup one character at a time

The lexer never fails: whatever has been typed so far is some list of events, the last of
which may be unfinished.  It is a machine with one state, `Mode`, which holds what the
unfinished event has collected.

What a text says is `tokens`: the events that closed while it was read, then whatever the
last mode holds.  The machine reads from left to right, so the tokens of a longer text split
at any place (`tokensFrom_append`).
-/
import ContentAssist.Markup.Event
import ContentAssist.Text.Bytes

namespace ContentAssist.Markup

set_option autoImplicit false

/-! ## What is being typed -/

/-- Characters are collected newest first; this is the text they spell. -/
def spell (typed : List Char) : String :=
  String.ofList typed.reverse

/-- A start tag past its name, with the attributes completed so far. -/
structure OpenTag where
  name : String
  attributes : Attributes := {}
  deriving DecidableEq, Repr, Inhabited

/-- The tag as an event once a closing bracket follows the character `last`. -/
def OpenTag.close (tag : OpenTag) (last : Char) : Event :=
  .startTag { name := tag.name, attributes := tag.attributes, selfClosing := last == '/' }

/-- What the characters read so far have left unfinished. -/
inductive Mode where
  | fresh
  /-- Right after closed markup. -/
  | content
  | text (typed : List Char)
  | opened
  /-- In an instruction; `asked` when the last character is a question mark. -/
  | instruction (asked : Bool)
  | endName (typed : List Char)
  /-- Past the name of an end tag. -/
  | endRest (name : String)
  | startName (typed : List Char)
  /-- Between the attributes of a tag, right after `last`. -/
  | between (tag : OpenTag) (last : Char)
  | attributeName (tag : OpenTag) (typed : List Char)
  /-- Past an attribute's equals sign, right after `last`. -/
  | equals (tag : OpenTag) (name : String) (last : Char)
  | value (tag : OpenTag) (name : String) (quote : Quote) (typed : List Char)
  deriving DecidableEq, Repr, Inhabited

namespace Mode

def caret : Mode → Caret
  | fresh => .atStart
  | content => .inText
  | text _ => .inText
  | opened => .inStartName
  | instruction _ => .inInstruction
  | endName _ => .inEndTag
  | endRest _ => .inEndTag
  | startName _ => .inStartName
  | between _ last => .awaitingAttribute (Text.isSpace last)
  | attributeName _ _ => .inAttributeName
  | equals _ _ _ => .afterEquals
  | value _ _ quote _ => .inAttributeValue quote

def pending? : Mode → Option Event
  | fresh => none
  | content => none
  | text typed => some (.text (spell typed))
  | opened => some (.startTag { name := "" })
  | instruction _ => some .instruction
  | endName typed => some (.endTag (spell typed))
  | endRest name => some (.endTag name)
  | startName typed => some (.startTag { name := spell typed })
  | between tag _ => some (.startTag { name := tag.name, attributes := tag.attributes })
  | attributeName tag typed =>
      some (.startTag
        { name := tag.name, attributes := tag.attributes, current := some (spell typed) })
  | equals tag name _ =>
      some (.startTag
        { name := tag.name
          attributes := tag.attributes.insert name .pending
          current := some name })
  | value tag name _ typed =>
      some (.startTag
        { name := tag.name
          attributes := tag.attributes.insert name (.value (spell typed))
          current := some name })

end Mode

/-! ## One character -/

/-- What reading a character does: the event it closes, if any, and the mode after. -/
structure Step where
  closed : Option Event := none
  mode : Mode
  deriving DecidableEq, Repr, Inhabited

namespace Step

def stay (mode : Mode) : Step :=
  { mode }

def finish (event : Event) : Step :=
  { closed := some event, mode := .content }

end Step

/-- A slash right before the bracket is not part of the name. -/
def closeStartName : List Char → Event
  | '/' :: typed => .startTag { name := spell typed, selfClosing := true }
  | typed => .startTag { name := spell typed }

def readStartName (typed : List Char) (c : Char) : Step :=
  if c = '>' then .finish (closeStartName typed)
  else if Text.isSpace c then .stay (.between { name := spell typed } c)
  else .stay (.startName (c :: typed))

def readEndName (typed : List Char) (c : Char) : Step :=
  if c = '>' then .finish (.endTag (spell typed))
  else if Text.isSpace c then .stay (.endRest (spell typed))
  else .stay (.endName (c :: typed))

def readContent (c : Char) : Step :=
  if c = '<' then .stay .opened else .stay (.text [c])

namespace Mode

def read : Mode → Char → Step
  | fresh, c => readContent c
  | content, c => readContent c
  | text typed, c =>
      if c = '<' then { closed := some (.text (spell typed)), mode := opened }
      else .stay (text (c :: typed))
  | opened, c =>
      -- the question mark that opens an instruction may also close it
      if c = '?' then .stay (instruction true)
      else if c = '/' then .stay (endName [])
      else readStartName [] c
  | instruction asked, c =>
      if asked && c == '>' then .finish .instruction else .stay (instruction (c == '?'))
  | endName typed, c => readEndName typed c
  | endRest name, c =>
      if c = '>' then .finish (.endTag name) else .stay (endRest name)
  | startName typed, c => readStartName typed c
  | between tag last, c =>
      if c = '>' then .finish (tag.close last)
      else if Text.isSpace c || c == '/' then .stay (between tag c)
      else .stay (attributeName tag [c])
  | attributeName tag typed, c =>
      -- a name without an equals sign is dropped
      if c = '>' then .finish (tag.close (typed.headD ' '))
      else if Text.isSpace c then .stay (between tag c)
      else if c = '=' then .stay (equals tag (spell typed) c)
      else .stay (attributeName tag (c :: typed))
  | equals tag name last, c =>
      -- whatever stands before the quote is skipped
      if c = '>' then .finish (tag.close last)
      else match Quote.ofChar? c with
        | some quote => .stay (value tag name quote [])
        | none => .stay (equals tag name c)
  | value tag name quote typed, c =>
      if c = quote.char then
        .stay (between { tag with attributes := tag.attributes.insert name (.value (spell typed)) } c)
      else .stay (value tag name quote (c :: typed))

end Mode

/-! ## Whole texts -/

/-- An event, where the typing stands at its end, and the byte offset just past it. -/
structure Token where
  event : Event
  caret : Caret
  stop : Nat
  deriving DecidableEq, Repr, Inhabited

/-- The offset just past an event that a character of `size` bytes at `offset`
closes.  Text ends before the opening bracket; all else ends with the bracket. -/
def stopOffset (event : Event) (offset size : Nat) : Nat :=
  match event with
  | .text _ => offset
  | _ => offset + size

def modeAfter (mode : Mode) (cs : List Char) : Mode :=
  cs.foldl (fun m c => (m.read c).mode) mode

def pendingToken (mode : Mode) (offset : Nat) : List Token :=
  match mode.pending? with
  | none => []
  | some event => [⟨event, mode.caret, offset⟩]

def tokensFrom : Mode → Nat → List Char → List Token
  | mode, offset, [] => pendingToken mode offset
  | mode, offset, c :: cs =>
      match mode.read c with
      | ⟨none, next⟩ => tokensFrom next (offset + c.utf8Size) cs
      | ⟨some event, next⟩ =>
          ⟨event, .inText, stopOffset event offset c.utf8Size⟩
            :: tokensFrom next (offset + c.utf8Size) cs

/-- The tokens that close while some characters are read. -/
def closedFrom : Mode → Nat → List Char → List Token
  | _, _, [] => []
  | mode, offset, c :: cs =>
      match mode.read c with
      | ⟨none, next⟩ => closedFrom next (offset + c.utf8Size) cs
      | ⟨some event, next⟩ =>
          ⟨event, .inText, stopOffset event offset c.utf8Size⟩
            :: closedFrom next (offset + c.utf8Size) cs

def tokens (text : String) : List Token :=
  tokensFrom .fresh 0 text.toList

def events (text : String) : List Event :=
  (tokens text).map Token.event

def caretOf (text : String) : Caret :=
  (modeAfter .fresh text.toList).caret

/-! ## Reading on -/

@[simp] theorem modeAfter_nil (mode : Mode) : modeAfter mode [] = mode := rfl

@[simp] theorem modeAfter_cons (mode : Mode) (c : Char) (cs : List Char) :
    modeAfter mode (c :: cs) = modeAfter (mode.read c).mode cs := rfl

theorem modeAfter_append (mode : Mode) (cs ds : List Char) :
    modeAfter mode (cs ++ ds) = modeAfter (modeAfter mode cs) ds :=
  List.foldl_append

/-- What closed while the first piece was read stays, whatever follows. -/
theorem tokensFrom_append (mode : Mode) (offset : Nat) (cs ds : List Char) :
    tokensFrom mode offset (cs ++ ds) =
      closedFrom mode offset cs ++
        tokensFrom (modeAfter mode cs) (offset + Text.byteLength cs) ds := by
  induction cs generalizing mode offset with
  | nil => rfl
  | cons c cs ih =>
      simp only [List.cons_append, tokensFrom, closedFrom, modeAfter_cons, Text.byteLength_cons]
      rcases mode.read c with ⟨_ | event, next⟩
      · simp only [ih, Nat.add_assoc]
      · simp only [ih, Nat.add_assoc, List.cons_append]

theorem tokensFrom_eq_closedFrom_append (mode : Mode) (offset : Nat) (cs : List Char) :
    tokensFrom mode offset cs =
      closedFrom mode offset cs ++
        pendingToken (modeAfter mode cs) (offset + Text.byteLength cs) := by
  simpa [tokensFrom] using tokensFrom_append mode offset cs []

end ContentAssist.Markup
