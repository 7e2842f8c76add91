import RealtimeApp.Fault
import RealtimeApp.Token

/-!
# Numerals

A numeral is a base mark (`0x`, `0o`, `0b`, or none for base ten), a run of digits of its base
and underscores, in base ten an optional fraction and an optional exponent, and a suffix of
letters, digits and underscores.  Scanning splits the text of a numeral off an input
(`text_scan`); decoding finds the number it stands for.

A numeral is a float when it has a fraction, an exponent, or the suffix `f32` or `f64`.  All
others are integers, whose value must fit in 64 bits.
-/

namespace RealtimeApp

/-- The base of a numeral. -/
inductive Radix where
  | binary
  | octal
  | decimal
  | hexadecimal
  deriving DecidableEq, Repr

namespace Radix

/-- How many digits the base has. -/
def base : Radix → UInt64
  | binary => 2
  | octal => 8
  | decimal => 10
  | hexadecimal => 16

/-- Is the byte a digit of this base? -/
def hasDigit : Radix → UInt8 → Bool
  | binary, b => b == ascii '0' || b == ascii '1'
  | octal, b => ascii '0' ≤ b && b ≤ ascii '7'
  | decimal, b => Byte.isDigit b
  | hexadecimal, b =>
    Byte.isDigit b || (ascii 'a' ≤ b && b ≤ ascii 'f') || (ascii 'A' ≤ b && b ≤ ascii 'F')

/-- The base that a letter behind a leading zero marks. -/
def ofMark? (b : UInt8) : Option Radix :=
  if b = ascii 'x' || b = ascii 'X' then some hexadecimal
  else if b = ascii 'o' || b = ascii 'O' then some octal
  else if b = ascii 'b' || b = ascii 'B' then some binary
  else none

/-- A number with one more digit behind it, unless that takes more than 64 bits.  The test
comes first, so that neither side of it and no result wraps around. -/
def push? (radix : Radix) (value digit : UInt64) : Option UInt64 :=
  if (18446744073709551615 - digit) / radix.base < value then none
  else some (value * radix.base + digit)

/-- The number that a run of digits stands for, unless it takes more than 64 bits. -/
def value? (radix : Radix) (digits : Bytes) : Option UInt64 :=
  digits.foldlM (fun value b => radix.push? value (Byte.digitValue b).toUInt64) 0

end Radix

/-- The parts of a numeral as they are written. -/
structure Numeral where
  radix : Radix
  /-- The base mark; empty in base ten. -/
  mark : Bytes
  /-- The digits of the base, with underscores. -/
  whole : Bytes
  /-- The point and the digits behind it, with underscores, or nothing. -/
  fraction : Bytes
  /-- The exponent with its letter and sign, with underscores, or nothing. -/
  exponent : Bytes
  suffix : Bytes
  deriving DecidableEq, Repr

namespace Numeral

/-- The text of a numeral. -/
def text (n : Numeral) : Bytes :=
  n.mark ++ (n.whole ++ (n.fraction ++ (n.exponent ++ n.suffix)))

/-- A run of digits without its underscores. -/
def digitsOf (run : Bytes) : Bytes := run.filter (· != ascii '_')

/-- May the byte stand in a run of digits of this base? -/
def inRun (radix : Radix) (b : UInt8) : Bool := radix.hasDigit b || b == ascii '_'

/-- The base mark at the beginning of an input: its base, its text, and what follows it. -/
def scanMark (input : Bytes) : Radix × Bytes × Bytes :=
  match input with
  | zero :: letter :: rest =>
    match (if zero = ascii '0' then Radix.ofMark? letter else none) with
    | some radix => (radix, [zero, letter], rest)
    | none => (.decimal, [], input)
  | _ => (.decimal, [], input)

/-- The fraction at the beginning of an input, and what follows it.  A point begins a
fraction only before a digit. -/
def scanFraction (input : Bytes) : Bytes × Bytes :=
  match input with
  | point :: d :: rest =>
    if point = ascii '.' && Byte.isDigit d then
      (point :: (d :: rest).takeWhile (inRun .decimal), (d :: rest).dropWhile (inRun .decimal))
    else ([], input)
  | _ => ([], input)

/-- The sign at the beginning of an input, and what follows it. -/
def scanSign (input : Bytes) : Bytes × Bytes :=
  match input with
  | s :: rest => if s = ascii '+' || s = ascii '-' then ([s], rest) else ([], input)
  | [] => ([], [])

/-- The exponent at the beginning of an input, and what follows it.  A letter begins an
exponent only before a digit, or before a sign and a digit. -/
def scanExponent (input : Bytes) : Bytes × Bytes :=
  match input with
  | [] => ([], [])
  | e :: rest =>
    let (sign, digits) := scanSign rest
    if (e = ascii 'e' || e = ascii 'E') && digits.head?.any Byte.isDigit then
      (e :: (sign ++ digits.takeWhile (inRun .decimal)), digits.dropWhile (inRun .decimal))
    else ([], input)

/-- The numeral at the beginning of an input, and what follows it.  A base mark without
digits ends the numeral. -/
def scan (input : Bytes) : Numeral × Bytes :=
  let (radix, mark, rest) := scanMark input
  let whole := rest.takeWhile (inRun radix)
  let rest := rest.dropWhile (inRun radix)
  if digitsOf whole = [] then (⟨radix, mark, whole, [], [], []⟩, rest)
  else
    let (fraction, rest) := if radix = .decimal then scanFraction rest else ([], rest)
    let (exponent, rest) := if radix = .decimal then scanExponent rest else ([], rest)
    (⟨radix, mark, whole, fraction, exponent, rest.takeWhile Byte.isNamePart⟩,
      rest.dropWhile Byte.isNamePart)

theorem scanMark_append (input : Bytes) :
    (scanMark input).2.1 ++ (scanMark input).2.2 = input := by
  unfold scanMark
  split
  · split <;> rfl
  · rfl

theorem scanFraction_append (input : Bytes) :
    (scanFraction input).1 ++ (scanFraction input).2 = input := by
  unfold scanFraction
  split
  · split
    · simp [List.takeWhile_append_dropWhile]
    · rfl
  · rfl

theorem scanSign_append (input : Bytes) : (scanSign input).1 ++ (scanSign input).2 = input := by
  unfold scanSign
  split
  · split <;> rfl
  · rfl

theorem scanExponent_append (input : Bytes) :
    (scanExponent input).1 ++ (scanExponent input).2 = input := by
  unfold scanExponent
  split
  · rfl
  · rename_i e rest
    have sign := scanSign_append rest
    simp only
    split
    · simp [List.takeWhile_append_dropWhile, sign]
    · rfl

/-- Scanning splits an input into the text of the numeral and what follows it. -/
theorem text_scan (input : Bytes) : (scan input).1.text ++ (scan input).2 = input := by
  have mark := scanMark_append input
  generalize hmark : scanMark input = m at mark
  obtain ⟨radix, written, rest⟩ := m
  have whole := List.takeWhile_append_dropWhile (p := inRun radix) (l := rest)
  generalize hrun : rest.takeWhile (inRun radix) = run at whole
  generalize hbehind : rest.dropWhile (inRun radix) = behind at whole
  simp only [scan, hmark, hrun, hbehind]
  split
  · simp [text, ← mark, whole]
  · by_cases hr : radix = .decimal
    · have fraction := scanFraction_append behind
      generalize scanFraction behind = f at fraction
      obtain ⟨f, afterFraction⟩ := f
      have exponent := scanExponent_append afterFraction
      generalize hexp : scanExponent afterFraction = e at exponent
      obtain ⟨e, afterExponent⟩ := e
      simp only at fraction exponent
      simp only [hr, if_true, hexp, text]
      rw [← mark, ← whole, hr, ← fraction, ← exponent]
      simp [List.takeWhile_append_dropWhile]
    · simp only [hr, if_false, text]
      rw [← mark, ← whole]
      simp [List.takeWhile_append_dropWhile]

theorem scanMark_eq (input : Bytes) :
    (scanMark input).2.1 ≠ [] ∨ scanMark input = (.decimal, [], input) := by
  unfold scanMark
  split
  · split
    · exact .inl (List.cons_ne_nil _ _)
    · exact .inr rfl
  · exact .inr rfl

/-- A numeral that begins with a digit is written with at least one byte. -/
theorem text_scan_ne_nil (b : UInt8) (rest : Bytes) (h : Byte.isDigit b = true) :
    (scan (b :: rest)).1.text ≠ [] := by
  rcases scanMark_eq (b :: rest) with hmark | hmark
  · simp only [scan]
    split <;> simp [text, hmark]
  · have hrun : inRun .decimal b = true := by simp [inRun, Radix.hasDigit, h]
    simp only [scan, hmark]
    split <;> simp [text, hrun]

/-- Does the suffix name a float type? -/
def hasFloatSuffix (n : Numeral) : Bool :=
  n.suffix == Bytes.ofString "f32" || n.suffix == Bytes.ofString "f64"

/-- Is the numeral a float? -/
def isFloat (n : Numeral) : Bool :=
  n.radix == .decimal && (n.fraction != [] || n.exponent != [] || n.hasFloatSuffix)

/-- The text that the value of a float is read from: the numeral without its suffix and
without underscores. -/
def decimalText (n : Numeral) : Bytes := digitsOf (n.whole ++ (n.fraction ++ n.exponent))

/-- The kind of leaf that a numeral makes. -/
def kind (n : Numeral) : LeafKind := if n.isFloat then .float else .integer

/-- The number that a numeral stands for. -/
def decode (n : Numeral) : Except Complaint Literal :=
  if digitsOf n.whole = [] then .error .missingDigits
  else if n.isFloat then
    match Binary64.read n.decimalText with
    | .error fault => .error (.float fault)
    | .ok value => .ok (.float value)
  else if n.hasFloatSuffix then .error .misplacedFloatSuffix
  else
    match n.radix.value? (digitsOf n.whole) with
    | none => .error .integerTooLarge
    | some value => .ok (.integer value)

end Numeral

end RealtimeApp
