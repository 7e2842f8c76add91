import RealtimeApp.App
import RealtimeApp.Rule

/-!
# Values of fields

Truth values and bytes are one token.  Paths, types and initial values are runs of tokens that
end before a comma, an equal sign or a semicolon; a group is one token of a run, whatever it
holds.
-/

namespace RealtimeApp

namespace Grammar

/-- The truth value that a token stands for. -/
def readBool (found : Option Token) : Except ParseError Bool :=
  match found with
  | some (.leaf ⟨.bool, _, some (.bool value), _, _⟩) => .ok value
  | _ => .error (.ofCause (.wantedBoolean found))

/-- The number that a token stands for, if it is an integer without a suffix. -/
def plainInteger? (found : Option Token) : Option UInt64 :=
  match found with
  | some (.leaf ⟨.integer, _, some (.integer value), [], _⟩) => some value
  | _ => none

/-- The number below 256 that a token stands for. -/
def readByte (found : Option Token) : Except ParseError UInt8 :=
  match plainInteger? found with
  | none => .error (.ofCause (.wantedInteger found))
  | some value =>
    if 256 ≤ value then .error (.ofCause (.outsideByte value)) else .ok value.toUInt8

/-- A truth value. -/
def bool : Rule Bool := .ofNext readBool

/-- A number below 256. -/
def byte : Rule UInt8 := .ofNext readByte

/-- A run of tokens up to a comma, which stays, or to the end.  A path has at least one
token. -/
def path : Rule Fragment where
  run tokens :=
    match tokens.takeWhile (!·.isLeaf .comma) with
    | [] => (.error (.ofCause (.wantedPath tokens.head?)), tokens)
    | first :: more => (.ok (first :: more), tokens.dropWhile (!·.isLeaf .comma))
  forward tokens := by
    split
    · exact List.suffix_rfl
    · exact List.dropWhile_suffix _

/-- A run of tokens up to one of the kind `stop`, which is taken but not kept. -/
def upTo (stop : TokenKind) : Rule Fragment where
  run tokens :=
    match tokens.dropWhile (!·.hasKind stop) with
    | [] => (.error (.ofCause (.endedBefore stop)), [])
    | _ :: rest => (.ok (tokens.takeWhile (!·.hasKind stop)), rest)
  forward tokens := by
    split
    · exact List.nil_suffix
    · rename_i token rest h
      exact (List.suffix_cons token rest).trans (h ▸ List.dropWhile_suffix _)

/-- A run of tokens up to one of the kind `stop`, with an error of its own when it is empty. -/
def filledUpTo (stop : TokenKind) (ifEmpty : Cause) : Rule Fragment := do
  let fragment ← upTo stop
  if fragment.isEmpty then .fail ifEmpty else return fragment

/-- A type and an initial value: `type = initial ;`. -/
def static : Rule Static := do
  let type ← filledUpTo (.leaf .equal) .missingType
  let initial ← filledUpTo (.leaf .semicolon) .missingInitialValue
  return ⟨type, initial⟩

end Grammar

end RealtimeApp
