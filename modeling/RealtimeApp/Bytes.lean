/-!
# Texts as byte strings

Descriptions, names and messages are sequences of bytes: columns count bytes, a
character literal holds one byte, and names are ordered by their unsigned bytes.
Letters, digits and blanks are the ASCII ones; every other byte belongs to no class.
-/

namespace RealtimeApp

/-- A text as the bytes it is stored in. -/
abbrev Bytes := List UInt8

/-- The byte of an ASCII character. -/
def ascii (c : Char) : UInt8 := c.toNat.toUInt8

namespace Byte

/-- The double quote, which opens and closes a string literal. -/
def quote : UInt8 := 34

/-- The single quote, which opens character literals and lifetimes. -/
def apostrophe : UInt8 := 39

/-- The backslash, which opens an escape. -/
def backslash : UInt8 := 92

/-- The backtick, which stands around names in messages. -/
def backtick : UInt8 := 96

/-- The space, which separates printed tokens. -/
def space : UInt8 := 32

/-- The newline, which ends a line and a line comment. -/
def newline : UInt8 := 10

/-- The horizontal tab. -/
def tab : UInt8 := 9

/-- The carriage return. -/
def carriageReturn : UInt8 := 13

/-- Bytes that separate tokens without standing for anything. -/
def isBlank (b : UInt8) : Bool :=
  b == space || b == tab || b == carriageReturn || b == newline

/-- The decimal digits. -/
def isDigit (b : UInt8) : Bool := ascii '0' ≤ b && b ≤ ascii '9'

/-- The letters of both cases. -/
def isLetter (b : UInt8) : Bool :=
  (ascii 'a' ≤ b && b ≤ ascii 'z') || (ascii 'A' ≤ b && b ≤ ascii 'Z')

/-- Bytes that may begin a name. -/
def isNameStart (b : UInt8) : Bool := isLetter b || b == ascii '_'

/-- Bytes that may continue a name. -/
def isNamePart (b : UInt8) : Bool := isLetter b || isDigit b || b == ascii '_'

/-- What a digit of base sixteen or less counts; letters of both cases count from ten. -/
def digitValue (b : UInt8) : UInt8 :=
  if isDigit b then b - ascii '0'
  else if ascii 'a' ≤ b && b ≤ ascii 'f' then b - ascii 'a' + 10
  else b - ascii 'A' + 10

end Byte

namespace Bytes

/-- The UTF-8 bytes of a text. -/
def ofString (text : String) : Bytes := text.toUTF8.data.toList

/-- The decimal digits of a natural number. -/
def ofNat (n : Nat) : Bytes := (Nat.toDigits 10 n).map ascii

/-- The decimal digits of an integer, behind a minus sign when it is negative. -/
def ofInt : Int → Bytes
  | .ofNat n => ofNat n
  | .negSucc n => ascii '-' :: ofNat (n + 1)

/-- A text between backticks, the way messages quote names. -/
def backticked (name : Bytes) : Bytes := Byte.backtick :: name ++ [Byte.backtick]

end Bytes

end RealtimeApp
