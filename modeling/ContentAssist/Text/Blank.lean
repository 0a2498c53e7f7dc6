/-
# ContentAssist.Text.Blank -- blank characters and trimming

`isSpace` is the markup's own notion and ends names.  `isBlank` is the Unicode property
White_Space, which decides whether text says anything.
-/

namespace ContentAssist.Text

set_option autoImplicit false

def isSpace (c : Char) : Bool :=
  c == ' ' || c == '\t' || c == '\n' || c == '\r'

def blankPoints : List Nat :=
  [0x09, 0x0A, 0x0B, 0x0C, 0x0D, 0x20, 0x85, 0xA0, 0x1680,
   0x2000, 0x2001, 0x2002, 0x2003, 0x2004, 0x2005, 0x2006, 0x2007, 0x2008, 0x2009, 0x200A,
   0x2028, 0x2029, 0x202F, 0x205F, 0x3000]

def isBlank (c : Char) : Bool :=
  blankPoints.contains c.toNat

def trimChars (cs : List Char) : List Char :=
  ((cs.dropWhile isBlank).reverse.dropWhile isBlank).reverse

def trim (text : String) : String :=
  String.ofList (trimChars text.toList)

def isAllBlank (text : String) : Bool :=
  text.toList.all isBlank

def startsWith (word typed : String) : Bool :=
  typed.toList.isPrefixOf word.toList

/-- The text as it stood after each keystroke, from empty to whole. -/
def keystrokes (text : String) : List String :=
  (List.range (text.toList.length + 1)).map fun n => String.ofList (text.toList.take n)

end ContentAssist.Text
