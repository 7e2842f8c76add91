import RealtimeApp.Decimal
import RealtimeApp.Json

/-!
# Reading JSON

A whole text is read as one value with blanks around its parts.  Escapes in strings stand for
the UTF-8 bytes of their characters; two escapes that are the halves of one character stand
for it together.
-/

namespace RealtimeApp

namespace Json

/-- The text behind its leading blanks. -/
def skipBlanks (input : Bytes) : Bytes := input.dropWhile Byte.isBlank

/-- Is the text a JSON number?  It is a decimal number without superfluous zeros in front,
behind an optional minus sign. -/
def isNumber (text : Bytes) : Bool :=
  let magnitude := if text.head? = some (ascii '-') then text.tail else text
  let padded :=
    match magnitude with
    | zero :: d :: _ => zero == ascii '0' && Byte.isDigit d
    | _ => false
  (Decimal.read? magnitude).isSome && !padded

/-- Bytes of which numbers consist. -/
def inNumber (b : UInt8) : Bool :=
  Byte.isDigit b || b == ascii '+' || b == ascii '-' || b == ascii '.' || b == ascii 'e'
    || b == ascii 'E'

/-- The number that four hexadecimal digits stand for. -/
def hexQuad? : Bytes → Option (Nat × Bytes)
  | a :: b :: c :: d :: rest =>
    let isHex (x : UInt8) : Bool :=
      Byte.isDigit x || (ascii 'a' ≤ x && x ≤ ascii 'f') || (ascii 'A' ≤ x && x ≤ ascii 'F')
    if isHex a && isHex b && isHex c && isHex d then
      some ([a, b, c, d].foldl (fun n x => n * 16 + (Byte.digitValue x).toNat) 0, rest)
    else none
  | _ => none

/-- The UTF-8 bytes of a character. -/
def utf8 (code : Nat) : Bytes := String.utf8EncodeChar (Char.ofNat code)

/-- The bytes that an escape by number stands for, given what stands behind its letter. -/
def unicodeEscape? (input : Bytes) : Option (Bytes × Bytes) := do
  let (first, rest) ← hexQuad? input
  if first < 0xD800 || 0xE000 ≤ first then return (utf8 first, rest)
  else if 0xDC00 ≤ first then none
  else
    match rest with
    | slash :: letter :: behind =>
      let (second, left) ← hexQuad? behind
      if slash = Byte.backslash && letter = ascii 'u' && 0xDC00 ≤ second && second < 0xE000 then
        return (utf8 (0x10000 + (first - 0xD800) * 0x400 + (second - 0xDC00)), left)
      else none
    | _ => none

/-- The byte that an escape of one letter stands for. -/
def letterEscape? (b : UInt8) : Option UInt8 :=
  if b = Byte.quote || b = Byte.backslash || b = ascii '/' then some b
  else if b = ascii 'b' then some 8
  else if b = ascii 'f' then some 12
  else if b = ascii 'n' then some Byte.newline
  else if b = ascii 'r' then some Byte.carriageReturn
  else if b = ascii 't' then some Byte.tab
  else none

/-- The string behind an opening quote, and what follows it.  Every step takes at least one
byte, so the length of the input is fuel enough. -/
def readString : Nat → Bytes → Option (Bytes × Bytes)
  | 0, _ => none
  | fuel + 1, input =>
    match input with
    | [] => none
    | b :: rest =>
      if b = Byte.quote then some ([], rest)
      else if b = Byte.backslash then
        match rest with
        | [] => none
        | e :: behind =>
          if e = ascii 'u' then do
            let (bytes, left) ← unicodeEscape? behind
            let (value, left) ← readString fuel left
            return (bytes ++ value, left)
          else do
            let meant ← letterEscape? e
            let (value, left) ← readString fuel behind
            return (meant :: value, left)
      else if b < Byte.space then none
      else do
        let (value, left) ← readString fuel rest
        return (b :: value, left)

/-- The string at the beginning of an input, and what follows it. -/
def string? (input : Bytes) : Option (Bytes × Bytes) :=
  match input with
  | b :: rest => if b = Byte.quote then readString input.length rest else none
  | [] => none

/-- The word or number at the beginning of an input, and what follows it. -/
def plain? (input : Bytes) : Option (Json × Bytes) :=
  let word := input.takeWhile fun b => Byte.isLetter b || inNumber b
  let rest := input.dropWhile fun b => Byte.isLetter b || inNumber b
  if word = Bytes.ofString "null" then some (null, rest)
  else if word = Bytes.ofString "true" then some (bool true, rest)
  else if word = Bytes.ofString "false" then some (bool false, rest)
  else if isNumber word then some (number word, rest)
  else none

mutual

/-- The value at the beginning of an input, and what follows it. -/
def readValue : Nat → Bytes → Option (Json × Bytes)
  | 0, _ => none
  | fuel + 1, input =>
    match skipBlanks input with
    | [] => none
    | b :: rest =>
      if b = Byte.quote then (string? (b :: rest)).map fun (value, left) => (string value, left)
      else if b = ascii '[' then
        match skipBlanks rest with
        | [] => none
        | c :: left =>
          if c = ascii ']' then some (array [], left)
          else (readItems fuel rest).map fun (items, left) => (array items, left)
      else if b = ascii '{' then
        match skipBlanks rest with
        | [] => none
        | c :: left =>
          if c = ascii '}' then some (object [], left)
          else (readEntries fuel rest).map fun (entries, left) => (object entries, left)
      else plain? (b :: rest)

/-- One or more items up to the end of an array, and what follows it. -/
def readItems : Nat → Bytes → Option (List Json × Bytes)
  | 0, _ => none
  | fuel + 1, input => do
    let (item, rest) ← readValue fuel input
    match skipBlanks rest with
    | [] => none
    | b :: left =>
      if b = ascii ']' then return ([item], left)
      else if b = ascii ',' then
        let (items, left) ← readItems fuel left
        return (item :: items, left)
      else none

/-- One or more entries up to the end of an object, and what follows it. -/
def readEntries : Nat → Bytes → Option (List (Bytes × Json) × Bytes)
  | 0, _ => none
  | fuel + 1, input => do
    let (key, rest) ← string? (skipBlanks input)
    match skipBlanks rest with
    | [] => none
    | colon :: behind =>
      if colon = ascii ':' then
        let (value, rest) ← readValue fuel behind
        match skipBlanks rest with
        | [] => none
        | b :: left =>
          if b = ascii '}' then return ([(key, value)], left)
          else if b = ascii ',' then
            let (entries, left) ← readEntries fuel left
            return ((key, value) :: entries, left)
          else none
      else none

end

/-- The value that a whole text is written for.  Nested calls take at least one byte for every
two units of fuel. -/
def read? (text : Bytes) : Option Json :=
  match readValue (2 * text.length + 2) text with
  | some (value, rest) => if skipBlanks rest = [] then some value else none
  | none => none

end Json

end RealtimeApp
