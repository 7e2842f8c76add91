import RealtimeApp.Json.Reader

/-!
# Documents

A document is a tree of nodes.  A format says how a text is read as a document, and what a node
tells: what stands in it under a key, and the text or the integer that it is.  Nothing that
reads documents depends on one format, nor on what it says about a fault.  JSON is such a format,
in which a scalar may not be asked for a key.
-/

namespace RealtimeApp

/-- Why a format gives no answer, with what it says about that. -/
inductive DocumentFault where
  /-- The text is no document, or a node was asked for a key that cannot be. -/
  | malformed (text : Bytes)
  /-- Something else stood in the way. -/
  | failed (text : Bytes)
  deriving DecidableEq, Repr

/-- A format of documents. -/
structure DocumentFormat where
  /-- The parts of a document, and the document as a whole. -/
  Node : Type
  /-- What is said about the path of a file that cannot be opened. -/
  unopenedText : Bytes → Bytes
  /-- The document that a text is written for. -/
  read : Bytes → Except DocumentFault Node
  /-- What stands in a node under a key, if anything does. -/
  entry? : Node → Bytes → Except DocumentFault (Option Node)
  /-- The text that a node is. -/
  text? : Node → Option Bytes
  /-- The integer that a node is written for. -/
  int? : Node → Option Int

/-- What is read from the node under a key, or the fallback where nothing there can be read. -/
def DocumentFormat.valueAt (format : DocumentFormat) {α : Type} (read? : format.Node → Option α)
    (node : format.Node) (key : Bytes) (fallback : α) : Except DocumentFault α := do
  return ((← format.entry? node key).bind read?).getD fallback

namespace Json

/-- The document that a text is written for.  A text of blanks is the document null. -/
def document (text : Bytes) : Except DocumentFault Json :=
  if text.all Byte.isBlank then .ok .null
  else
    match read? text with
    | some document => .ok document
    | none => .error (.malformed [])

/-- The entry of a section under a key, the first one where there are several.  What is
neither an object nor a scalar has no entries; a scalar cannot be asked. -/
def entry? (node : Json) (key : Bytes) : Except DocumentFault (Option Json) :=
  match node with
  | .object entries => .ok ((entries.find? (·.1 == key)).map Prod.snd)
  | .null => .ok none
  | .array _ => .ok none
  | .bool _ => .error (.malformed [])
  | .number _ => .error (.malformed [])
  | .string _ => .error (.malformed [])

/-- The integer that a whole text is written for: decimal digits behind an optional minus
sign, within 32 bits. -/
def int32? (text : Bytes) : Option Int :=
  let magnitude := if text.head? = some (ascii '-') then text.tail else text
  if magnitude.isEmpty || !magnitude.all Byte.isDigit then none
  else
    let n : Int := Decimal.ofDigits magnitude
    let value := if text.head? = some (ascii '-') then -n else n
    if -2147483648 ≤ value ∧ value ≤ 2147483647 then some value else none

end Json

/-- Documents written in JSON.  An integer may stand in quotes.  Faults of a text have no
wording. -/
def DocumentFormat.json : DocumentFormat where
  Node := Json
  unopenedText path := Bytes.ofString "bad file: " ++ path
  read := Json.document
  entry? := Json.entry?
  text? := Json.scalar?
  int? node := node.scalar?.bind Json.int32?

end RealtimeApp
