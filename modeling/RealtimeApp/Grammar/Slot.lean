import RealtimeApp.Fields

/-!
# Fields with fixed keys

A group with fixed keys is read into one slot per key.  A slot is filled at most once, and
some slots must be filled in the end.
-/

namespace RealtimeApp

namespace Grammar

/-- The value of a slot that `key` fills, which must still be empty. -/
def fill {α : Type} (key : Leaf) (slot : Option α) (rule : Rule α) : Rule α :=
  match slot with
  | some _ => .fail (.duplicateField key.lexeme)
  | none => rule.within (.entry key.lexeme)

/-- The value of a slot that must be filled in the end. -/
def filled {α : Type} (name : Bytes) (slot : Option α) : Except ParseError α :=
  match slot with
  | some value => .ok value
  | none => .error (.ofCause (.missingField name))

/-- A key that no slot has. -/
def unknown {σ : Type} (key : Leaf) : Rule σ := .fail (.unknownField key.lexeme)

end Grammar

end RealtimeApp
