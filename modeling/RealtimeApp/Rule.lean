import RealtimeApp.ParseError

/-!
# Rules on a sequence of tokens

A rule takes tokens from the front of a sequence and makes a value or an error of them.  It
says what is left in both cases, and what is left is always a suffix of what it was given: a
rule only moves forward.
-/

namespace RealtimeApp

/-- A step that only moves forward in a sequence of tokens. -/
structure Rule (α : Type) where
  /-- The value or error, and the tokens that are left. -/
  run : List Token → Except ParseError α × List Token
  forward : ∀ tokens, (run tokens).2 <:+ tokens

namespace Rule

variable {α β : Type}

/-- The value of a rule, or its error, on a whole sequence. -/
def value (rule : Rule α) (tokens : List Token) : Except ParseError α := (rule.run tokens).1

/-- The tokens that a rule leaves. -/
def rest (rule : Rule α) (tokens : List Token) : List Token := (rule.run tokens).2

theorem length_rest_le (rule : Rule α) (tokens : List Token) :
    (rule.run tokens).2.length ≤ tokens.length :=
  (rule.forward tokens).length_le

/-- A rule that takes nothing and has a value. -/
def pure (a : α) : Rule α := ⟨fun tokens => (.ok a, tokens), fun _ => List.suffix_rfl⟩

/-- A rule that takes nothing and fails. -/
def fail (cause : Cause) : Rule α :=
  ⟨fun tokens => (.error (.ofCause cause), tokens), fun _ => List.suffix_rfl⟩

/-- One rule and then another, which may depend on the value of the first. -/
def bind (rule : Rule α) (next : α → Rule β) : Rule β where
  run tokens :=
    match rule.run tokens with
    | (.ok a, rest) => (next a).run rest
    | (.error e, rest) => (.error e, rest)
  forward tokens := by
    have first := rule.forward tokens
    split
    · rename_i a rest h
      rw [h] at first
      exact ((next a).forward rest).trans first
    · rename_i e rest h
      rw [h] at first
      exact first

instance : Monad Rule where
  pure := pure
  bind := bind

/-- The next token, which stays. -/
def peek : Rule (Option Token) :=
  ⟨fun tokens => (.ok tokens.head?, tokens), fun _ => List.suffix_rfl⟩

/-- The next token, which is taken; at the end there is none. -/
def advance : Rule (Option Token) :=
  ⟨fun tokens => (.ok tokens.head?, tokens.tail), fun tokens => tokens.tail_suffix⟩

/-- A rule inside a construct that its errors name. -/
def within (note : Note) (rule : Rule α) : Rule α :=
  ⟨fun tokens => ((rule.run tokens).1.mapError (·.within note), (rule.run tokens).2),
    rule.forward⟩

/-- What is read from the next token, or from the end of the sequence.  The token is taken
whether it fits or not. -/
def ofNext (read : Option Token → Except ParseError α) : Rule α :=
  ⟨fun tokens => (read tokens.head?, tokens.tail), fun tokens => tokens.tail_suffix⟩

/-- What is read from the members of a group, if a token is one of the wanted shape. -/
def readGroup (delimiter : Delimiter) (body : List Token → Except ParseError α)
    (found : Option Token) : Except ParseError α :=
  match found with
  | some (.group d position members) =>
    if d = delimiter then body members
    else .error (.ofCause (.wantedDelimiter delimiter (.group d position members)))
  | found => .error (.ofCause (.wantedGroup delimiter found))

/-- A group of the wanted shape, whose members are read on their own. -/
def delimited (delimiter : Delimiter) (body : List Token → Except ParseError α) : Rule α :=
  ofNext (readGroup delimiter body)

/-! ### What the rules do to a sequence -/

@[simp] theorem run_pure (a : α) (tokens : List Token) :
    (Pure.pure a : Rule α).run tokens = (.ok a, tokens) := rfl

@[simp] theorem run_fail (cause : Cause) (tokens : List Token) :
    (fail cause : Rule α).run tokens = (.error (.ofCause cause), tokens) := rfl

theorem run_bind (rule : Rule α) (next : α → Rule β) (tokens : List Token) :
    (rule >>= next).run tokens =
      match rule.run tokens with
      | (.ok a, rest) => (next a).run rest
      | (.error e, rest) => (.error e, rest) := rfl

theorem run_bind_of_ok {rule : Rule α} {next : α → Rule β} {tokens rest : List Token} {a : α}
    (h : rule.run tokens = (.ok a, rest)) :
    (rule >>= next).run tokens = (next a).run rest := by
  rw [run_bind, h]

theorem run_bind_of_error {rule : Rule α} {next : α → Rule β} {tokens rest : List Token}
    {e : ParseError} (h : rule.run tokens = (.error e, rest)) :
    (rule >>= next).run tokens = (.error e, rest) := by
  rw [run_bind, h]

@[simp] theorem run_peek (tokens : List Token) : peek.run tokens = (.ok tokens.head?, tokens) :=
  rfl

@[simp] theorem run_advance (tokens : List Token) :
    advance.run tokens = (.ok tokens.head?, tokens.tail) := rfl

@[simp] theorem run_within (note : Note) (rule : Rule α) (tokens : List Token) :
    (rule.within note).run tokens =
      ((rule.run tokens).1.mapError (·.within note), (rule.run tokens).2) := rfl

@[simp] theorem run_delimited (delimiter : Delimiter) (body : List Token → Except ParseError α)
    (tokens : List Token) :
    (delimited delimiter body).run tokens =
      (readGroup delimiter body tokens.head?, tokens.tail) := rfl

end Rule

end RealtimeApp
