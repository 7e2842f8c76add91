import RealtimeApp.Binary64
import RealtimeApp.Delimiter

/-!
# Faults of a source

A complaint says what is wrong with a piece of a source, and a fault adds the line that the
piece begins on.  Faults never end the reading of a source, except for a group that lies too
deep.
-/

namespace RealtimeApp

/-- What is wrong with a piece of a source. -/
inductive Complaint where
  | unexpectedByte (b : UInt8)
  | missingDigits
  | misplacedFloatSuffix
  | integerTooLarge
  | float (fault : Binary64.ReadFault)
  | unknownEscape (b : UInt8)
  | unterminatedString
  | unterminatedCharacter
  | invalidCharacter
  | unterminatedComment
  | tooDeep (limit : Int)
  | strayCloser (closer : Delimiter)
  | mismatchedCloser (closer opener : Delimiter) (openerLine : Int)
  | unclosed (opener : Delimiter)
  deriving DecidableEq, Repr

/-- The wording of a complaint.  A malformed float has none: no literal is read as one. -/
def Complaint.message : Complaint → Bytes
  | unexpectedByte b => Bytes.ofString "Unexpected character: " ++ [b]
  | missingDigits => Bytes.ofString "Missing digits after integer base prefix"
  | misplacedFloatSuffix => Bytes.ofString "Float suffix on non-decimal literal"
  | integerTooLarge => Bytes.ofString "Integer literal is too large"
  | float .malformed => []
  | float .outOfRange => Bytes.ofString "Float literal is out of range"
  | unknownEscape b => Bytes.ofString "Unknown escape sequence: " ++ [Byte.backslash, b]
  | unterminatedString => Bytes.ofString "Unterminated string"
  | unterminatedCharacter => Bytes.ofString "Unterminated character literal"
  | invalidCharacter => Bytes.ofString "Invalid character literal"
  | unterminatedComment => Bytes.ofString "Unterminated block comment"
  | tooDeep limit => Bytes.ofString "Nesting depth exceeds limit of " ++ Bytes.ofInt limit
  | strayCloser closer =>
    Bytes.ofString "Unexpected closing delimiter '" ++ closer.closing :: Bytes.ofString "'"
  | mismatchedCloser closer opener openerLine =>
    Bytes.ofString "Mismatched closing delimiter '" ++ closer.closing ::
      Bytes.ofString "', expected '" ++ opener.closing ::
      Bytes.ofString "' to close '" ++ opener.opening ::
      Bytes.ofString "' opened at line " ++ Bytes.ofInt openerLine
  | unclosed opener => Bytes.ofString "Unclosed delimiter '" ++ opener.opening :: Bytes.ofString "'"

/-- A complaint about a piece of a source, and the line that the piece begins on. -/
structure Fault where
  line : Int
  complaint : Complaint
  deriving DecidableEq, Repr

/-- The wording of a fault. -/
def Fault.message (fault : Fault) : Bytes :=
  Bytes.ofString "Line " ++ Bytes.ofInt fault.line ++ Bytes.ofString ": "
    ++ fault.complaint.message

end RealtimeApp
