import RealtimeApp.Bytes

/-!
# Quoted text

Inside quotes a backslash and the byte behind it stand for one byte.  A backslash before any
other byte than the seven of `unescape?` stands for nothing and is remembered.
-/

namespace RealtimeApp

/-- The byte that a backslash and this byte stand for. -/
def unescape? (b : UInt8) : Option UInt8 :=
  if b = ascii 'n' then some Byte.newline
  else if b = ascii 't' then some Byte.tab
  else if b = ascii 'r' then some Byte.carriageReturn
  else if b = ascii '0' then some 0
  else if b = Byte.backslash then some Byte.backslash
  else if b = Byte.apostrophe then some Byte.apostrophe
  else if b = Byte.quote then some Byte.quote
  else none

/-- A string literal behind its opening quote, or as much of one as there is. -/
structure Quoted where
  /-- The bytes up to the closing quote and with it. -/
  text : Bytes
  /-- The bytes that the literal stands for. -/
  value : Bytes
  /-- The bytes behind backslashes that stand for nothing. -/
  unknown : List UInt8
  closed : Bool
  deriving DecidableEq, Repr

namespace Quoted

/-- A literal with one more byte in front, which stands for itself. -/
def consByte (b : UInt8) (q : Quoted) : Quoted :=
  { q with text := b :: q.text, value := b :: q.value }

/-- A literal with one more escape in front. -/
def consEscape (b : UInt8) (q : Quoted) : Quoted :=
  match unescape? b with
  | some meant => { q with text := Byte.backslash :: b :: q.text, value := meant :: q.value }
  | none => { q with text := Byte.backslash :: b :: q.text, unknown := b :: q.unknown }

/-- The literal at the beginning of an input, and what follows it. -/
def scan : Bytes → Quoted × Bytes
  | [] => (⟨[], [], [], false⟩, [])
  | b :: rest =>
    if b = Byte.quote then (⟨[b], [], [], true⟩, rest)
    else if b = Byte.backslash then
      match rest with
      | [] => (⟨[b], [], [], false⟩, [])
      | e :: behind => (scan behind).map (consEscape e) id
    else (scan rest).map (consByte b) id

@[simp] theorem text_consByte (b : UInt8) (q : Quoted) :
    (q.consByte b).text = b :: q.text := rfl

@[simp] theorem text_consEscape (b : UInt8) (q : Quoted) :
    (q.consEscape b).text = Byte.backslash :: b :: q.text := by
  unfold consEscape
  split <;> rfl

/-- Scanning splits an input into the text of the literal and what follows it. -/
theorem text_scan (input : Bytes) : (scan input).1.text ++ (scan input).2 = input := by
  fun_induction scan input with
  | case1 => rfl
  | case2 => simp
  | case3 => simp
  | case4 => simp_all
  | case5 => simp_all

end Quoted

end RealtimeApp
