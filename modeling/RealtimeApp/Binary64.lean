import RealtimeApp.Decimal

/-!
# Binary floating-point numbers of 64 bits

A decimal number is rounded to the nearest binary number with 53 significant digits and
exponents from -1074 up, a tie going to the even neighbour.  It is out of range when it
rounds beyond the largest finite number, and when it is not zero, stays below the smallest
normal number after rounding to 53 digits, and is not a multiple of `2 ^ -1074`.

The bits of a positive number are its place among the positive numbers: the number
`m * 2 ^ q`, with `q = -1074` or `2 ^ 52 ≤ m`, has the bits `(q + 1074) * 2 ^ 52 + m`.
-/

namespace RealtimeApp

/-- A binary floating-point number, given by its bits. -/
structure Binary64 where
  bits : UInt64
  deriving DecidableEq, Repr

namespace Binary64

/-- Why a text has no floating-point value. -/
inductive ReadFault where
  | malformed
  | outOfRange
  deriving DecidableEq, Repr

/-- The integer nearest to a ratio, a half going to the even neighbour. -/
def roundRatio (num den : Nat) : Nat :=
  let quotient := num / den
  let twice := 2 * (num % den)
  if den < twice || (twice == den && quotient % 2 == 1) then quotient + 1 else quotient

/-- The numerator of a ratio counted in units of `2 ^ q`. -/
def scaledNum (num : Nat) (q : Int) : Nat := num * Nat.pow 2 (-q).toNat

/-- The denominator of a ratio counted in units of `2 ^ q`. -/
def scaledDen (den : Nat) (q : Int) : Nat := den * Nat.pow 2 q.toNat

/-- The number of units of `2 ^ q` nearest to a ratio. -/
def roundAt (q : Int) (num den : Nat) : Nat :=
  roundRatio (scaledNum num q) (scaledDen den q)

/-- The place of the leading binary digit of a positive ratio: the greatest `e` with
`2 ^ e ≤ num / den`. -/
def leadingPlace (num den : Nat) : Int :=
  let e := (num.log2 : Int) - (den.log2 : Int)
  if scaledNum num e < scaledDen den e then e - 1 else e

/-- The least exponent of a unit. -/
def leastUnit : Int := -1074

/-- The bits of positive infinity, which are above those of every finite number. -/
def infinityBits : Nat := 2047 * Nat.pow 2 52

/-- Does a ratio stay below the least normal number when it is rounded to 53 digits? -/
def isTiny (num den : Nat) : Bool :=
  let e := leadingPlace num den
  e < -1022 && !(e == -1023 && roundAt (e - 52) num den == Nat.pow 2 53)

/-- The number nearest to a positive ratio, unless it is out of range. -/
def ofRatio? (num den : Nat) : Option Binary64 :=
  let q := max (leadingPlace num den - 52) leastUnit
  let m := roundAt q num den
  let bits := (q - leastUnit).toNat * Nat.pow 2 52 + m
  if infinityBits ≤ bits then none
  else if isTiny num den && m * scaledDen den q != scaledNum num q then none
  else some ⟨bits.toUInt64⟩

/-- The number of decimal digits of a positive number. -/
def decimalLength (n : Nat) : Nat := (Nat.toDigits 10 n).length

/-- The number nearest to a decimal number, unless it is out of range.  A number of
`10 ^ 310` or more is above, and one below `10 ^ -330` beneath, all numbers in range. -/
def ofDecimal? (x : Decimal) : Option Binary64 :=
  if x.digits = 0 then some ⟨0⟩
  else
    let top := x.exponent + decimalLength x.digits
    if 310 < top || top < -330 then none
    else ofRatio? (x.digits * Nat.pow 10 x.exponent.toNat) (Nat.pow 10 (-x.exponent).toNat)

/-- The number that a whole text is written for. -/
def read (text : Bytes) : Except ReadFault Binary64 :=
  match Decimal.read? text with
  | none => .error .malformed
  | some x =>
    match ofDecimal? x with
    | none => .error .outOfRange
    | some value => .ok value

end Binary64

end RealtimeApp
