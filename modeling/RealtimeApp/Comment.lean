import RealtimeApp.Bytes

/-!
# Comments

A line comment runs from `//` to the end of its line, a block comment from a slash and a star
to the star and slash that close it.  Block comments nest.
-/

namespace RealtimeApp

/-- A block comment behind its opening mark, or as much of one as there is. -/
structure BlockComment where
  /-- The bytes up to the closing mark and with it. -/
  text : Bytes
  closed : Bool
  deriving DecidableEq, Repr

namespace BlockComment

/-- A comment with more bytes in front. -/
def append (front : Bytes) (c : BlockComment) : BlockComment := { c with text := front ++ c.text }

/-- The comment at the beginning of an input, and what follows it; `around` counts the
comments that lie around the innermost open one. -/
def scan (around : Nat) : Bytes → BlockComment × Bytes
  | [] => (⟨[], false⟩, [])
  | [b] => (⟨[b], false⟩, [])
  | b :: c :: rest =>
    if b = ascii '/' && c = ascii '*' then
      (scan (around + 1) rest).map (append [b, c]) id
    else if b = ascii '*' && c = ascii '/' then
      match around with
      | 0 => (⟨[b, c], true⟩, rest)
      | outer + 1 => (scan outer rest).map (append [b, c]) id
    else (scan around (c :: rest)).map (append [b]) id

@[simp] theorem text_append (front : Bytes) (c : BlockComment) :
    (c.append front).text = front ++ c.text := rfl

/-- Scanning splits an input into the text of the comment and what follows it. -/
theorem text_scan (around : Nat) (input : Bytes) :
    (scan around input).1.text ++ (scan around input).2 = input := by
  fun_induction scan around input with
  | case1 => rfl
  | case2 => rfl
  | case3 => simp_all
  | case4 => rfl
  | case5 => simp_all
  | case6 => simp_all

end BlockComment

end RealtimeApp
