import RealtimeApp.Span

/-!
# Reading a source as tokens

The spans of a source are read one after another into a nest: the tokens of the innermost
open group so far, and the groups around it.  A closer that fits no opener is dropped with a
fault, and a group without a closer ends at the end of the source with a fault.  An opener
beyond the limit on nesting ends the reading at once; a later call goes on behind it.

A lexer keeps what is left of its source, the place of its next byte, and every fault so far.
-/

namespace RealtimeApp

/-- An open group: the place of its opener, and the tokens before it in the group around it,
last one first. -/
structure Frame where
  delimiter : Delimiter
  position : Position
  before : List Token
  deriving Repr

namespace Frame

/-- The tokens of the group around, last one first, when a group ends with these members,
last one first. -/
def close (frame : Frame) (members : List Token) : List Token :=
  .group frame.delimiter frame.position members.reverse :: frame.before

/-- The fault of a group that is never closed. -/
def unclosed (frame : Frame) : Fault := ⟨frame.position.line, .unclosed frame.delimiter⟩

end Frame

/-- The tokens of the innermost open group so far, last one first, and the open groups from
the innermost outwards. -/
structure Nest where
  members : List Token
  around : List Frame
  deriving Repr

namespace Nest

/-- Nothing read and no group open. -/
def empty : Nest := ⟨[], []⟩

/-- One more token in the innermost open group. -/
def push (nest : Nest) (token : Token) : Nest := { nest with members := token :: nest.members }

/-- A new innermost group. -/
def enter (nest : Nest) (delimiter : Delimiter) (position : Position) : Nest :=
  ⟨[], ⟨delimiter, position, nest.members⟩ :: nest.around⟩

/-- How many groups are open. -/
def depth (nest : Nest) : Nat := nest.around.length

/-- The innermost group ended by a closer, or what is wrong with the closer. -/
def leave (nest : Nest) (closer : Delimiter) : Except Complaint Nest :=
  match nest.around with
  | [] => .error (.strayCloser closer)
  | frame :: outer =>
    if frame.delimiter = closer then .ok ⟨frame.close nest.members, outer⟩
    else .error (.mismatchedCloser closer frame.delimiter frame.position.line)

/-- The tokens read, with every open group ended where it stands. -/
def tokens (nest : Nest) : List Token :=
  (nest.around.foldl (fun members frame => frame.close members) nest.members).reverse

/-- The faults of the groups that are open, innermost first. -/
def unclosed (nest : Nest) : List Fault := nest.around.map Frame.unclosed

end Nest

/-- How far the reading of a sequence of spans came. -/
structure Reading where
  nest : Nest
  faults : List Fault
  /-- The place behind the last span that was read. -/
  position : Position
  /-- The spans that were not read. -/
  rest : List Span
  /-- Whether an opener beyond the limit ended the reading. -/
  tooDeep : Bool
  deriving Repr

namespace Reading

/-- A reading with more faults before its own. -/
def withFaults (faults : List Fault) (r : Reading) : Reading :=
  { r with faults := faults ++ r.faults }

/-- The faults of the groups left open, none where the limit on nesting ended the reading. -/
def unclosed (r : Reading) : List Fault := if r.tooDeep then [] else r.nest.unclosed

end Reading

namespace Nest

/-- Read spans into a nest, from a place on and under a limit on the number of open groups. -/
def read (limit : Int) (nest : Nest) (position : Position) : List Span → Reading
  | [] => ⟨nest, [], position, [], false⟩
  | span :: rest =>
    let behind := position.after span.text
    let faults := span.complaints.map (Fault.mk position.line)
    match span.content with
    | .skipped => (read limit nest behind rest).withFaults faults
    | .leaf kind literal suffix =>
      let leaf : Leaf := ⟨kind, span.text, literal, suffix, position⟩
      (read limit (nest.push (.leaf leaf)) behind rest).withFaults faults
    | .opener delimiter =>
      if limit ≤ nest.depth then
        ⟨nest, faults ++ [⟨position.line, .tooDeep limit⟩], behind, rest, true⟩
      else (read limit (nest.enter delimiter position) behind rest).withFaults faults
    | .closer delimiter =>
      match nest.leave delimiter with
      | .ok outer => (read limit outer behind rest).withFaults faults
      | .error complaint =>
        (read limit nest behind rest).withFaults (faults ++ [⟨position.line, complaint⟩])

end Nest

/-- What is left of a source, the place of its next byte, the limit on nesting, and the faults
found so far. -/
structure Lexer where
  rest : Bytes
  position : Position
  limit : Int
  faults : List Fault
  deriving Repr

namespace Lexer

/-- The limit on nesting where none is given. -/
def defaultLimit : Int := 64

/-- A lexer at the beginning of a source. -/
def ofSource (source : Bytes) (limit : Int) : Lexer := ⟨source, .start, limit, []⟩

/-- The tokens up to the end of the source, or up to an opener beyond the limit, and the lexer
that goes on from there. -/
def tokenize (lexer : Lexer) : List Token × Lexer :=
  let r := Nest.empty.read lexer.limit lexer.position (Span.all lexer.rest)
  (r.nest.tokens,
    { lexer with
      rest := Span.textOf r.rest
      position := r.position
      faults := lexer.faults ++ (r.faults ++ r.unclosed) })

/-- Did any call find a fault? -/
def hasFaults (lexer : Lexer) : Bool := !lexer.faults.isEmpty

end Lexer

/-- The tokens and the faults of a source that is read once from its beginning. -/
def lex (source : Bytes) (limit : Int) : List Token × List Fault :=
  let (tokens, lexer) := (Lexer.ofSource source limit).tokenize
  (tokens, lexer.faults)

end RealtimeApp
