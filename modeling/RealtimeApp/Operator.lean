import RealtimeApp.Token

/-!
# Operators

Punctuation is written with one byte or two.  An input begins with the longest operator
that it can, so the operators of two bytes are tried first.
-/

namespace RealtimeApp

/-- An operator: how it is written and the kind of leaf it makes. -/
structure Operator where
  text : Bytes
  kind : LeafKind
  deriving DecidableEq, Repr

namespace Operator

/-- The operators, longer ones first. -/
def all : List Operator :=
  [⟨Bytes.ofString "::", .pathSep⟩,
    ⟨Bytes.ofString "==", .eqEq⟩,
    ⟨Bytes.ofString "=>", .fatArrow⟩,
    ⟨Bytes.ofString "!=", .ne⟩,
    ⟨Bytes.ofString "<=", .le⟩,
    ⟨Bytes.ofString ">=", .ge⟩,
    ⟨Bytes.ofString "..", .dotDot⟩,
    ⟨Bytes.ofString "->", .arrow⟩,
    ⟨Bytes.ofString "&&", .andAnd⟩,
    ⟨Bytes.ofString "||", .orOr⟩,
    ⟨Bytes.ofString ":", .colon⟩,
    ⟨Bytes.ofString ",", .comma⟩,
    ⟨Bytes.ofString ";", .semicolon⟩,
    ⟨Bytes.ofString "=", .equal⟩,
    ⟨Bytes.ofString "<", .lt⟩,
    ⟨Bytes.ofString ">", .gt⟩,
    ⟨Bytes.ofString ".", .dot⟩,
    ⟨Bytes.ofString "+", .plus⟩,
    ⟨Bytes.ofString "-", .minus⟩,
    ⟨Bytes.ofString "*", .star⟩,
    ⟨Bytes.ofString "/", .slash⟩,
    ⟨Bytes.ofString "%", .percent⟩,
    ⟨Bytes.ofString "^", .caret⟩,
    ⟨Bytes.ofString "!", .not⟩,
    ⟨Bytes.ofString "&", .and⟩,
    ⟨Bytes.ofString "|", .or⟩,
    ⟨Bytes.ofString "@", .atSign⟩,
    ⟨Bytes.ofString "#", .pound⟩,
    ⟨Bytes.ofString "$", .dollar⟩,
    ⟨Bytes.ofString "?", .question⟩]

/-- The longest operator that an input begins with, and what follows it. -/
def scan? (input : Bytes) : Option (Operator × Bytes) :=
  (all.find? (·.text.isPrefixOf input)).map fun op => (op, input.drop op.text.length)

/-- Scanning splits an input into the text of the operator and what follows it. -/
theorem text_scan? {input rest : Bytes} {op : Operator} (h : scan? input = some (op, rest)) :
    op.text ++ rest = input := by
  obtain ⟨found, hfound, heq⟩ := Option.map_eq_some_iff.1 h
  obtain ⟨rfl, rfl⟩ := Prod.mk.inj heq
  have hprefix := List.find?_some hfound
  exact List.prefix_iff_eq_append.1 (List.isPrefixOf_iff_prefix.1 hprefix)

end Operator

end RealtimeApp
