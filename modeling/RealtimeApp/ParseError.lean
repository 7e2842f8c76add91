import RealtimeApp.Token.Printer

/-!
# Errors of the grammar

A parse error is the first thing that does not fit, its cause, under notes that name the
constructs around it from the outermost inwards.
-/

namespace RealtimeApp

/-- What does not fit.  A token that was found instead of the wanted one is kept; there is
none at the end of the input. -/
inductive Cause where
  | wantedGroup (delimiter : Delimiter) (found : Option Token)
  | wantedDelimiter (delimiter : Delimiter) (found : Token)
  | wanted (kind : LeafKind) (found : Option Token)
  | wantedPath (found : Option Token)
  | wantedBoolean (found : Option Token)
  | wantedInteger (found : Option Token)
  | endedBefore (stop : TokenKind)
  | trailing (found : Token)
  | duplicateField (name : Bytes)
  | unknownField (name : Bytes)
  | missingField (name : Bytes)
  | duplicateTask (name : Bytes)
  | duplicateResource (name : Bytes)
  | duplicateIdent (name : Bytes)
  | outsideByte (value : UInt64)
  | missingType
  | missingInitialValue
  | other (text : Bytes)
  deriving Repr

/-- The wording of a token that was found instead of the wanted one. -/
def foundText (found : Option Token) : Bytes := Bytes.ofString ", found " ++ Token.describe found

/-- The wording of a cause. -/
def Cause.message : Cause → Bytes
  | wantedGroup delimiter found =>
    Bytes.ofString "expected a " ++ delimiter.name ++ Bytes.ofString " group" ++ foundText found
  | wantedDelimiter delimiter found =>
    Bytes.ofString "expected " ++ delimiter.name ++ foundText (some found)
  | wanted kind found => Bytes.ofString "expected " ++ kind.name ++ foundText found
  | wantedPath found => Bytes.ofString "expected path" ++ foundText found
  | wantedBoolean found => Bytes.ofString "expected boolean" ++ foundText found
  | wantedInteger found => Bytes.ofString "expected integer" ++ foundText found
  | endedBefore stop => Bytes.ofString "expected " ++ stop.name ++ foundText none
  | trailing found =>
    Bytes.ofString "unexpected token after application block: " ++ Token.describe (some found)
  | duplicateField name =>
    Bytes.ofString "duplicated " ++ Bytes.backticked name ++ Bytes.ofString " field"
  | unknownField name => Bytes.ofString "unknown field: " ++ Bytes.backticked name
  | missingField name => Bytes.backticked name ++ Bytes.ofString " field is missing"
  | duplicateTask name =>
    Bytes.ofString "task " ++ Bytes.backticked name ++ Bytes.ofString " listed more than once"
  | duplicateResource name =>
    Bytes.ofString "resource " ++ Bytes.backticked name ++ Bytes.ofString " listed more than once"
  | duplicateIdent name =>
    Bytes.ofString "ident " ++ Bytes.backticked name ++ Bytes.ofString " listed more than once"
  | outsideByte value =>
    Bytes.ofNat value.toNat ++ Bytes.ofString " is out of the "
      ++ Bytes.backticked (Bytes.ofString "u8") ++ Bytes.ofString " range"
  | missingType => Bytes.ofString "type is missing"
  | missingInitialValue => Bytes.ofString "initial value is missing"
  | other text => text

/-- A construct that was being read. -/
inductive Note where
  /-- The value of a field or the entry of a resource. -/
  | entry (name : Bytes)
  | task (name : Bytes)
  | other (text : Bytes)
  deriving DecidableEq, Repr

/-- The wording of a note. -/
def Note.message : Note → Bytes
  | entry name => Bytes.ofString "parsing " ++ Bytes.backticked name
  | task name => Bytes.ofString "parsing task " ++ Bytes.backticked name
  | other text => text

/-- A cause under the notes of the constructs around it, outermost first. -/
structure ParseError where
  notes : List Note
  cause : Cause
  deriving Repr

namespace ParseError

/-- A cause outside every construct. -/
def ofCause (cause : Cause) : ParseError := ⟨[], cause⟩

/-- An error inside one more construct. -/
def within (note : Note) (error : ParseError) : ParseError :=
  { error with notes := note :: error.notes }

/-- The wording of the cause. -/
def message (error : ParseError) : Bytes := error.cause.message

/-- The wordings of the notes, outermost first, and then of the cause. -/
def chain (error : ParseError) : List Bytes := error.notes.map Note.message ++ [error.message]

/-- The chain on one line, its parts joined by a colon and a space.  The line is a text that
a zero byte ends. -/
def line (error : ParseError) : Bytes :=
  ((Bytes.ofString ": ").intercalate error.chain).takeWhile (· != 0)

@[simp] theorem message_within (note : Note) (error : ParseError) :
    (error.within note).message = error.message := rfl

@[simp] theorem chain_within (note : Note) (error : ParseError) :
    (error.within note).chain = note.message :: error.chain := rfl

end ParseError

end RealtimeApp
