import RealtimeApp.Bytes

/-!
# Decimal numbers

A decimal number is written as digits, an optional point with digits behind it, and an
optional exponent: `digits[.digits][(e|E)[+|-]digits]`.  Reading takes a whole text of this
form to an integer times a power of ten, exactly.
-/

namespace RealtimeApp

/-- The number `digits * 10 ^ exponent`. -/
structure Decimal where
  digits : Nat
  exponent : Int
  deriving DecidableEq, Repr

namespace Decimal

/-- The number that a run of decimal digits stands for. -/
def ofDigits (run : Bytes) : Nat :=
  run.foldl (fun value b => value * 10 + (Byte.digitValue b).toNat) 0

/-- A run of one or more digits, and what follows it. -/
def digitRun? (text : Bytes) : Option (Bytes × Bytes) :=
  match text.takeWhile Byte.isDigit with
  | [] => none
  | d :: run => some (d :: run, text.dropWhile Byte.isDigit)

/-- The digits behind a point, none where there is no point, and what follows them. -/
def fraction? (text : Bytes) : Option (Bytes × Bytes) :=
  match text with
  | [] => some ([], [])
  | b :: rest => if b = ascii '.' then digitRun? rest else some ([], b :: rest)

/-- A run of digits that is the whole text. -/
def magnitude? (text : Bytes) : Option Nat :=
  match digitRun? text with
  | some (run, []) => some (ofDigits run)
  | _ => none

/-- An exponent that is the whole text; an empty text stands for zero. -/
def exponent? (text : Bytes) : Option Int :=
  match text with
  | [] => some 0
  | e :: rest =>
    if e = ascii 'e' || e = ascii 'E' then
      match rest with
      | [] => none
      | s :: more =>
        if s = ascii '-' then (magnitude? more).map fun n => -(n : Int)
        else if s = ascii '+' then (magnitude? more).map fun n => (n : Int)
        else (magnitude? rest).map fun n => (n : Int)
    else none

/-- The number that a text is written for, if it has the form of a decimal number. -/
def read? (text : Bytes) : Option Decimal := do
  let (whole, rest) ← digitRun? text
  let (fraction, rest) ← fraction? rest
  let exponent ← exponent? rest
  return ⟨ofDigits (whole ++ fraction), exponent - fraction.length⟩

end Decimal

end RealtimeApp
