/-
# ContentAssist.Markup.Reader -- reading markup event after event

Each call of `next` looks for the delimiters that end the next event, cuts its names and
values out of the text by their byte offsets, and moves the cursor past it.  Cutting can miss:
an offset inside a character, or one behind another, has no text between.  `next` fails then.

The attributes of a tag are scanned byte by byte, through characters of several bytes.  The
scan remembers the offset at which a name or a value began, and cuts it out when it has ended.
-/
import ContentAssist.Markup.Lexer
import ContentAssist.Text.Cursor

namespace ContentAssist.Markup

set_option autoImplicit false

open Text

/-! ## Events without attributes -/

/-- What one call reads: the event, where the typing stands at its end, and the cursor past
it. -/
structure Pulled where
  event : Event
  caret : Caret
  cursor : Cursor

def pullText (cursor : Cursor) : Option Pulled :=
  let stop := cursor.tagStart?.getD cursor.byteSize
  (cursor.slice? cursor.offset stop).map fun content =>
    ⟨.text content, .inText, cursor.moveTo stop⟩

/-- An instruction, past its question mark. -/
def pullInstruction (cursor : Cursor) : Pulled :=
  match cursor.instructionEnd? with
  | some stop => ⟨.instruction, .inText, cursor.moveTo (stop + 1)⟩
  | none => ⟨.instruction, .inInstruction, cursor.moveTo cursor.byteSize⟩

def pullEndTag (cursor : Cursor) : Option Pulled :=
  let nameEnd := cursor.nameEnd?.getD cursor.byteSize
  (cursor.slice? cursor.offset nameEnd).map fun name =>
    match (cursor.moveTo nameEnd).tagEnd? with
    | some stop => ⟨.endTag name, .inText, cursor.moveTo (stop + 1)⟩
    | none => ⟨.endTag name, .inEndTag, cursor.moveTo cursor.byteSize⟩

/-! ## Attributes -/

def Quote.byte : Quote → UInt8
  | .single => 0x27
  | .double => 0x22

def Quote.ofByte? (b : UInt8) : Option Quote :=
  if b = 0x22 then some .double else if b = 0x27 then some .single else none

/-- Where the scan of a tag stands, past the tag's name. -/
inductive Scan where
  | between
  | name (start : Nat)
  | equals (name : String)
  | value (name : String) (start : Nat) (quote : Quote)
  deriving DecidableEq, Repr, Inhabited

/-- What a byte does to the scan of a tag. -/
inductive Turn where
  | close
  | onward (tag : OpenTag) (scan : Scan)
  deriving DecidableEq, Repr, Inhabited

def Scan.turn (cursor : Cursor) (offset : Nat) (b : UInt8) (tag : OpenTag) :
    Scan → Option Turn
  | between =>
      if b = 0x3E then some .close
      else if Cursor.isSpaceByte b || b == 0x2F then some (.onward tag between)
      else some (.onward tag (name offset))
  | name start =>
      if b = 0x3E then some .close
      else if Cursor.isSpaceByte b then some (.onward tag between)
      else if b = 0x3D then
        (cursor.slice? start offset).map fun found => .onward tag (equals found)
      else some (.onward tag (name start))
  | equals found =>
      if b = 0x3E then some .close
      else match Quote.ofByte? b with
        | some quote => some (.onward tag (value found (offset + 1) quote))
        | none => some (.onward tag (equals found))
  | value found start quote =>
      if b = quote.byte then
        (cursor.slice? start offset).map fun text =>
          .onward { tag with attributes := tag.attributes.insert found (.value text) } between
      else some (.onward tag (value found start quote))

/-- The tag as it stands when the text ends in it. -/
def Scan.unfinished (cursor : Cursor) (tag : OpenTag) : Scan → Option Pulled
  | between =>
      some ⟨.startTag { name := tag.name, attributes := tag.attributes },
        .awaitingAttribute (cursor.bytes.getLast?.any Cursor.isSpaceByte),
        cursor.moveTo cursor.byteSize⟩
  | name start =>
      (cursor.sliceFrom? start).map fun found =>
        ⟨.startTag { name := tag.name, attributes := tag.attributes, current := some found },
          .inAttributeName, cursor.moveTo cursor.byteSize⟩
  | equals found =>
      some ⟨.startTag
          { name := tag.name
            attributes := tag.attributes.insert found .pending
            current := some found },
        .afterEquals, cursor.moveTo cursor.byteSize⟩
  | value found start quote =>
      (cursor.sliceFrom? start).map fun text =>
        ⟨.startTag
            { name := tag.name
              attributes := tag.attributes.insert found (.value text)
              current := some found },
          .inAttributeValue quote, cursor.moveTo cursor.byteSize⟩

def slashBefore (cursor : Cursor) (offset : Nat) : Bool :=
  decide (0 < offset) && cursor.byteAt? (offset - 1) == some 0x2F

/-- Scan the bytes from an offset on until the tag closes or the text ends. -/
def scanTag (cursor : Cursor) : List UInt8 → Nat → OpenTag → Scan → Option Pulled
  | [], _, tag, scan => scan.unfinished cursor tag
  | b :: bytes, offset, tag, scan =>
      match scan.turn cursor offset b tag with
      | none => none
      | some .close =>
          some ⟨.startTag
              { name := tag.name
                attributes := tag.attributes
                selfClosing := slashBefore cursor offset },
            .inText, cursor.moveTo (offset + 1)⟩
      | some (.onward tag scan) => scanTag cursor bytes (offset + 1) tag scan

/-! ## Start tags and the next event -/

def pullStartTag (cursor : Cursor) : Option Pulled :=
  match cursor.nameEnd? with
  | none =>
      (cursor.sliceFrom? cursor.offset).map fun name =>
        ⟨.startTag { name }, .inStartName, cursor.moveTo cursor.byteSize⟩
  | some nameEnd =>
      if cursor.byteAt? nameEnd = some 0x3E then
        let selfClosing := decide (cursor.offset < nameEnd) && slashBefore cursor nameEnd
        (cursor.slice? cursor.offset (if selfClosing then nameEnd - 1 else nameEnd)).map fun name =>
          ⟨.startTag { name, selfClosing }, .inText, cursor.moveTo (nameEnd + 1)⟩
      else
        (cursor.slice? cursor.offset nameEnd).bind fun name =>
          scanTag cursor (cursor.bytes.drop nameEnd) nameEnd { name } .between

def pullMarkup (cursor : Cursor) : Option Pulled :=
  match cursor.peek? with
  | none => some ⟨.startTag { name := "" }, .inStartName, cursor⟩
  | some b =>
      if b = 0x3F then some (pullInstruction (cursor.advance 1))
      else if b = 0x2F then pullEndTag (cursor.advance 1)
      else pullStartTag cursor

structure Reader where
  cursor : Cursor
  caret : Caret := .atStart

namespace Reader

def ofText (text : String) : Reader :=
  { cursor := { text } }

/-- Read the next event; at the end of the text there is none.  The answer is `none` where a
cut misses. -/
def next (reader : Reader) : Option (Option Event × Reader) :=
  if reader.cursor.atEnd then some (none, reader)
  else
    let pulled :=
      if reader.cursor.peek? = some 0x3C then pullMarkup (reader.cursor.advance 1)
      else pullText reader.cursor
    pulled.map fun pulled => (some pulled.event, { cursor := pulled.cursor, caret := pulled.caret })

/-- Make some calls, and collect what they read with where the typing and the cursor stand after
each. -/
def calls : Nat → Reader → Option (List Token × Reader)
  | 0, reader => some ([], reader)
  | count + 1, reader =>
      match reader.next with
      | none => none
      | some (none, after) => calls count after
      | some (some event, after) =>
          (calls count after).map fun (tokens, last) =>
            (⟨event, after.caret, after.cursor.offset⟩ :: tokens, last)

end Reader

end ContentAssist.Markup
