/-
# ContentAssist.Text.Cursor -- a byte position in UTF-8 text

The finders look for the delimiters of markup from the cursor on and answer with absolute
offsets.  Cutting is by offset and can miss: `slice?` answers only at character boundaries.
-/
import ContentAssist.Text.Bytes

namespace ContentAssist.Text

set_option autoImplicit false

structure Cursor where
  text : String
  offset : Nat := 0

namespace Cursor

def bytes (cursor : Cursor) : List UInt8 :=
  cursor.text.toList.flatMap String.utf8EncodeChar

def byteSize (cursor : Cursor) : Nat :=
  cursor.bytes.length

def atEnd (cursor : Cursor) : Bool :=
  cursor.byteSize ≤ cursor.offset

/-- The cursor at byte `n`, or at the end when `n` is past it. -/
def moveTo (cursor : Cursor) (n : Nat) : Cursor :=
  { cursor with offset := min n cursor.byteSize }

def advance (cursor : Cursor) (n : Nat) : Cursor :=
  cursor.moveTo (cursor.offset + n)

def byteAt? (cursor : Cursor) (n : Nat) : Option UInt8 :=
  cursor.bytes[n]?

def peek? (cursor : Cursor) : Option UInt8 :=
  cursor.byteAt? cursor.offset

/-- None unless both offsets are character boundaries, in order. -/
def slice? (cursor : Cursor) (start stop : Nat) : Option String :=
  if start ≤ stop then
    ((dropBytes? cursor.text.toList start).bind (takeBytes? · (stop - start))).map String.ofList
  else none

def sliceFrom? (cursor : Cursor) (start : Nat) : Option String :=
  (dropBytes? cursor.text.toList start).map String.ofList

/-! ## Finding delimiters -/

def isSpaceByte (b : UInt8) : Bool :=
  b == 0x20 || b == 0x09 || b == 0x0A || b == 0x0D

/-- The offset of the first byte from the cursor on that is as wanted. -/
def find? (cursor : Cursor) (wanted : UInt8 → Bool) : Option Nat :=
  ((cursor.bytes.drop cursor.offset).findIdx? wanted).map (cursor.offset + ·)

def tagStart? (cursor : Cursor) : Option Nat :=
  cursor.find? (· == 0x3C) -- `<`

def tagEnd? (cursor : Cursor) : Option Nat :=
  cursor.find? (· == 0x3E) -- `>`

def nameEnd? (cursor : Cursor) : Option Nat :=
  cursor.find? fun b => b == 0x3E || isSpaceByte b

/-- The next closing bracket with a question mark right before it. -/
def instructionEnd? (cursor : Cursor) : Option Nat :=
  -- the question mark may stand before the cursor
  let pairs := cursor.bytes.zip (0 :: cursor.bytes)
  ((pairs.drop cursor.offset).findIdx? fun (b, before) => b == 0x3E && before == 0x3F).map
    (cursor.offset + ·)

end Cursor

end ContentAssist.Text
