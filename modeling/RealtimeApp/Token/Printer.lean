import RealtimeApp.Token

/-!
# Tokens as text

Printing joins tokens by single spaces and writes the members of a group between its
opener and its closer.  A description of a token names it inside an error message.
-/

namespace RealtimeApp

namespace Token

mutual

/-- The text of a token. -/
def text : Token → Bytes
  | leaf l => l.lexeme
  | group d _ members => d.opening :: (textAll members ++ [d.closing])

/-- The text of a sequence of tokens. -/
def textAll : List Token → Bytes
  | [] => []
  | t :: ts => text t ++ textTail ts

/-- The text of the tokens behind another one, each behind a space. -/
def textTail : List Token → Bytes
  | [] => []
  | t :: ts => Byte.space :: (text t ++ textTail ts)

end

/-- The place of a token as messages give it; a token outside every source has none. -/
def placeText (position : Position) : Bytes :=
  if 0 < position.line then
    Bytes.ofString " at " ++ Bytes.ofInt position.line ++ Bytes.ofString ":"
      ++ Bytes.ofInt position.column
  else []

/-- How a message names the next token, or the end where there is none. -/
def describe : Option Token → Bytes
  | none => Bytes.ofString "end of input"
  | some (leaf l) =>
    Bytes.backticked l.lexeme ++ Bytes.ofString " (" ++ l.kind.name ++ Bytes.ofString ")"
      ++ placeText l.position
  | some (group d position _) => d.name ++ Bytes.ofString " group" ++ placeText position

end Token

end RealtimeApp
