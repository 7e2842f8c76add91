import RealtimeApp.Binary64
import RealtimeApp.Delimiter

/-!
# Tokens

A description is read as a sequence of tokens.  A token is a leaf, which carries the bytes
it was written with, or a group of tokens between two delimiters.

Two tokens are the same (`Token.same`) when they are written the same way: leaves of one
kind with one lexeme, or groups of one shape whose members are the same.  Positions,
decoded literals and suffixes do not count.
-/

namespace RealtimeApp

/-- What a leaf is. -/
inductive LeafKind where
  | ident
  | lifetime
  | integer
  | float
  | string
  | char
  | bool
  | colon
  | pathSep
  | comma
  | semicolon
  | equal
  | eqEq
  | ne
  | lt
  | le
  | gt
  | ge
  | dot
  | dotDot
  | arrow
  | fatArrow
  | plus
  | minus
  | star
  | slash
  | percent
  | caret
  | not
  | and
  | andAnd
  | or
  | orOr
  | atSign
  | pound
  | dollar
  | question
  deriving DecidableEq, Repr

namespace LeafKind

/-- The name that messages use. -/
def name : LeafKind → Bytes
  | ident => Bytes.ofString "Ident"
  | lifetime => Bytes.ofString "Lifetime"
  | integer => Bytes.ofString "Integer"
  | float => Bytes.ofString "Float"
  | string => Bytes.ofString "String"
  | char => Bytes.ofString "Char"
  | bool => Bytes.ofString "Bool"
  | colon => Bytes.ofString "Colon"
  | pathSep => Bytes.ofString "PathSep"
  | comma => Bytes.ofString "Comma"
  | semicolon => Bytes.ofString "Semicolon"
  | equal => Bytes.ofString "Equal"
  | eqEq => Bytes.ofString "EqEq"
  | ne => Bytes.ofString "Ne"
  | lt => Bytes.ofString "Lt"
  | le => Bytes.ofString "Le"
  | gt => Bytes.ofString "Gt"
  | ge => Bytes.ofString "Ge"
  | dot => Bytes.ofString "Dot"
  | dotDot => Bytes.ofString "DotDot"
  | arrow => Bytes.ofString "Arrow"
  | fatArrow => Bytes.ofString "FatArrow"
  | plus => Bytes.ofString "Plus"
  | minus => Bytes.ofString "Minus"
  | star => Bytes.ofString "Star"
  | slash => Bytes.ofString "Slash"
  | percent => Bytes.ofString "Percent"
  | caret => Bytes.ofString "Caret"
  | not => Bytes.ofString "Not"
  | and => Bytes.ofString "And"
  | andAnd => Bytes.ofString "AndAnd"
  | or => Bytes.ofString "Or"
  | orOr => Bytes.ofString "OrOr"
  | atSign => Bytes.ofString "At"
  | pound => Bytes.ofString "Pound"
  | dollar => Bytes.ofString "Dollar"
  | question => Bytes.ofString "Question"

/-- The leaf kinds in their fixed order. -/
def all : List LeafKind :=
  [ident, lifetime, integer, float, string, char, bool, colon, pathSep, comma, semicolon,
    equal, eqEq, ne, lt, le, gt, ge, dot, dotDot, arrow, fatArrow, plus, minus, star, slash,
    percent, caret, not, and, andAnd, or, orOr, atSign, pound, dollar, question]

end LeafKind

/-- What a token is: a leaf of some kind, or a group. -/
inductive TokenKind where
  | leaf (kind : LeafKind)
  | group
  deriving DecidableEq, Repr

namespace TokenKind

/-- The name that messages use. -/
def name : TokenKind → Bytes
  | leaf kind => kind.name
  | group => Bytes.ofString "Group"

/-- The token kinds in their fixed order, groups last. -/
def all : List TokenKind := LeafKind.all.map leaf ++ [group]

/-- The kind that a name stands for. -/
def ofName? (name : Bytes) : Option TokenKind := all.find? (·.name == name)

/-- The name at a place of the fixed order; a place outside it is `Unknown`. -/
def nameAt (index : Int) : Bytes :=
  if index < 0 then Bytes.ofString "Unknown"
  else (all[index.toNat]?.map name).getD (Bytes.ofString "Unknown")

end TokenKind

/-- The value that a leaf was decoded to. -/
inductive Literal where
  | integer (value : UInt64)
  | float (value : Binary64)
  | bool (value : Bool)
  | text (value : Bytes)
  deriving DecidableEq, Repr

/-- A place in a source.  Lines and columns count from one in a source that was read, and
are zero or less in a token that stands in no source. -/
structure Position where
  line : Int
  column : Int
  deriving DecidableEq, Repr

namespace Position

/-- The place of the first byte of a source. -/
def start : Position := ⟨1, 1⟩

/-- The place behind one byte. -/
def next (position : Position) (b : UInt8) : Position :=
  if b = Byte.newline then ⟨position.line + 1, 1⟩ else ⟨position.line, position.column + 1⟩

/-- The place behind a run of bytes. -/
def after (position : Position) (text : Bytes) : Position := text.foldl next position

@[simp] theorem after_nil (position : Position) : position.after [] = position := rfl

@[simp] theorem after_append (position : Position) (first second : Bytes) :
    position.after (first ++ second) = (position.after first).after second := by
  simp [after]

end Position

/-- A token without members. -/
structure Leaf where
  kind : LeafKind
  /-- The bytes it is written with. -/
  lexeme : Bytes
  /-- Its decoded value, if its kind has one. -/
  literal : Option Literal
  /-- The letters and digits behind a number, such as a width. -/
  suffix : Bytes
  position : Position
  deriving DecidableEq, Repr

/-- A leaf, or a group of tokens between an opener, whose place is kept, and its closer. -/
inductive Token where
  | leaf (leaf : Leaf)
  | group (delimiter : Delimiter) (position : Position) (members : List Token)
  deriving Repr

namespace Token

/-- What a token is. -/
def kind : Token → TokenKind
  | leaf l => .leaf l.kind
  | group .. => .group

/-- Where a token begins. -/
def position : Token → Position
  | leaf l => l.position
  | group _ position _ => position

/-- Is the token a leaf of this kind? -/
def isLeaf (kind : LeafKind) : Token → Bool
  | leaf l => l.kind == kind
  | group .. => false

/-- Is the token of this kind? -/
def hasKind (kind : TokenKind) (token : Token) : Bool := token.kind == kind

/-- The leaf that a token is, if it is an identifier. -/
def ident? : Token → Option Leaf
  | leaf l => if l.kind = .ident then some l else none
  | group .. => none

mutual

/-- Are two tokens written the same way? -/
def same : Token → Token → Bool
  | leaf a, leaf b => a.kind == b.kind && a.lexeme == b.lexeme
  | group d _ members, group e _ others => d == e && sameAll members others
  | leaf _, group .. => false
  | group .., leaf _ => false

/-- Are two sequences of tokens written the same way, token by token? -/
def sameAll : List Token → List Token → Bool
  | [], [] => true
  | a :: as, b :: bs => same a b && sameAll as bs
  | [], _ :: _ => false
  | _ :: _, [] => false

end

mutual

/-- A token followed by everything inside it, a group before its members. -/
def preorder : Token → List Token
  | leaf l => [leaf l]
  | group d position members => group d position members :: preorderAll members

/-- The tokens of a sequence, each followed by everything inside it. -/
def preorderAll : List Token → List Token
  | [] => []
  | t :: ts => preorder t ++ preorderAll ts

end

mutual

/-- How many groups lie around the innermost part of a token, itself included. -/
def depth : Token → Nat
  | leaf _ => 0
  | group _ _ members => depthAll members + 1

/-- The depth of the deepest token of a sequence. -/
def depthAll : List Token → Nat
  | [] => 0
  | t :: ts => max (depth t) (depthAll ts)

end

end Token

end RealtimeApp
