import RealtimeApp.Bytes

/-!
# JSON values

A JSON value keeps the text of its numbers and the order of its entries.  Writing puts no
spaces between the parts; a caller who wants entries in the order of their keys gives them in
that order.
-/

namespace RealtimeApp

/-- A JSON value. -/
inductive Json where
  | null
  | bool (value : Bool)
  /-- A number as it is written. -/
  | number (text : Bytes)
  | string (value : Bytes)
  | array (items : List Json)
  | object (entries : List (Bytes × Json))
  deriving Repr

namespace Json

/-- The integer as a JSON number. -/
def ofInt (n : Int) : Json := number (Bytes.ofInt n)

/-- The text of a value that has no parts; a string stands for itself. -/
def scalar? : Json → Option Bytes
  | bool true => some (Bytes.ofString "true")
  | bool false => some (Bytes.ofString "false")
  | number text => some text
  | string value => some value
  | null => none
  | array _ => none
  | object _ => none

/-- The digit for a number below sixteen. -/
def hexDigit (n : UInt8) : UInt8 := if n < 10 then ascii '0' + n else ascii 'a' + (n - 10)

/-- How a byte is written inside a string.  Quotes, backslashes and the bytes below the space
are escaped; all others stand for themselves. -/
def escape (b : UInt8) : Bytes :=
  if b = Byte.quote then [Byte.backslash, Byte.quote]
  else if b = Byte.backslash then [Byte.backslash, Byte.backslash]
  else if b = 8 then [Byte.backslash, ascii 'b']
  else if b = 12 then [Byte.backslash, ascii 'f']
  else if b = Byte.newline then [Byte.backslash, ascii 'n']
  else if b = Byte.carriageReturn then [Byte.backslash, ascii 'r']
  else if b = Byte.tab then [Byte.backslash, ascii 't']
  else if b < Byte.space then
    [Byte.backslash, ascii 'u', ascii '0', ascii '0', hexDigit (b / 16), hexDigit (b % 16)]
  else [b]

/-- A string in quotes. -/
def quoted (value : Bytes) : Bytes := Byte.quote :: (value.flatMap escape ++ [Byte.quote])

mutual

/-- The text of a value. -/
def text : Json → Bytes
  | null => Bytes.ofString "null"
  | bool true => Bytes.ofString "true"
  | bool false => Bytes.ofString "false"
  | number written => written
  | string value => quoted value
  | array [] => [ascii '[', ascii ']']
  | array (item :: items) => ascii '[' :: (text item ++ itemsTail items)
  | object [] => [ascii '{', ascii '}']
  | object ((key, value) :: entries) =>
    ascii '{' :: (quoted key ++ ascii ':' :: (text value ++ entriesTail entries))

/-- The text of the items behind another one, up to the end of the array. -/
def itemsTail : List Json → Bytes
  | [] => [ascii ']']
  | item :: items => ascii ',' :: (text item ++ itemsTail items)

/-- The text of the entries behind another one, up to the end of the object. -/
def entriesTail : List (Bytes × Json) → Bytes
  | [] => [ascii '}']
  | (key, value) :: entries =>
    ascii ',' :: (quoted key ++ ascii ':' :: (text value ++ entriesTail entries))

end

end Json

end RealtimeApp
