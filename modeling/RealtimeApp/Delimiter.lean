import RealtimeApp.Bytes

/-!
# Delimiters

The three pairs of bytes that group tokens.  The byte of an opener or closer tells its
delimiter (`ofOpening?_opening`, `ofClosing?_closing`).
-/

namespace RealtimeApp

/-- The shape of a group of tokens. -/
inductive Delimiter where
  | paren
  | brace
  | bracket
  deriving DecidableEq, Repr

namespace Delimiter

/-- The delimiters in their fixed order. -/
def all : List Delimiter := [paren, brace, bracket]

/-- The name that messages use. -/
def name : Delimiter → Bytes
  | paren => Bytes.ofString "Paren"
  | brace => Bytes.ofString "Brace"
  | bracket => Bytes.ofString "Bracket"

/-- The byte that opens a group. -/
def opening : Delimiter → UInt8
  | paren => ascii '('
  | brace => ascii '{'
  | bracket => ascii '['

/-- The byte that closes a group. -/
def closing : Delimiter → UInt8
  | paren => ascii ')'
  | brace => ascii '}'
  | bracket => ascii ']'

/-- The delimiter that a byte opens. -/
def ofOpening? (b : UInt8) : Option Delimiter := all.find? (·.opening == b)

/-- The delimiter that a byte closes. -/
def ofClosing? (b : UInt8) : Option Delimiter := all.find? (·.closing == b)

theorem ofOpening?_opening (d : Delimiter) : ofOpening? d.opening = some d := by
  cases d <;> decide

theorem ofClosing?_closing (d : Delimiter) : ofClosing? d.closing = some d := by
  cases d <;> decide

/-- The delimiter at a place of the fixed order. -/
def at? (index : Int) : Option Delimiter :=
  if index < 0 then none else all[index.toNat]?

/-- The name at a place of the fixed order; a place outside it is `Unknown`. -/
def nameAt (index : Int) : Bytes := ((at? index).map name).getD (Bytes.ofString "Unknown")

/-- The opener at a place of the fixed order; a place outside it opens as a parenthesis. -/
def openingAt (index : Int) : UInt8 := ((at? index).getD paren).opening

/-- The closer at a place of the fixed order; a place outside it closes as a parenthesis. -/
def closingAt (index : Int) : UInt8 := ((at? index).getD paren).closing

end Delimiter

end RealtimeApp
