import RealtimeApp.Grammar.Value

/-!
# Reading changed tokens

A change of tokens commutes with a rule when the changed tokens are read as the tokens are: the
value, the tokens that an error names, and the tokens that are left are changed alike
(`Rule.Commutes`).

Runs of tokens are cut off at the next token of some kind, with no look at lexemes or into
groups, so the rules for paths and storage commute with every change that keeps the kinds of
tokens.
-/

namespace RealtimeApp

/-! ## Changed results -/

namespace Cause

/-- The cause with the tokens that it names changed. -/
def mapTokens (f : Token → Token) : Cause → Cause
  | wantedGroup delimiter found => wantedGroup delimiter (found.map f)
  | wantedDelimiter delimiter found => wantedDelimiter delimiter (f found)
  | wanted kind found => wanted kind (found.map f)
  | wantedPath found => wantedPath (found.map f)
  | wantedBoolean found => wantedBoolean (found.map f)
  | wantedInteger found => wantedInteger (found.map f)
  | trailing found => trailing (f found)
  -- the other causes name no token
  | cause => cause

end Cause

namespace ParseError

/-- The error with the tokens that its cause names changed. -/
def mapTokens (f : Token → Token) (error : ParseError) : ParseError :=
  { error with cause := error.cause.mapTokens f }

end ParseError

section Carry

variable {α β γ : Type} (f : Token → Token) (g : α → β)

/-- A result with its value changed by `g`, or with the tokens of its error changed by `f`. -/
def carry : Except ParseError α → Except ParseError β
  | .ok a => .ok (g a)
  | .error e => .error (e.mapTokens f)

@[simp] theorem carry_ok (a : α) : carry f g (.ok a) = .ok (g a) := rfl

@[simp] theorem carry_error (e : ParseError) : carry f g (.error e) = .error (e.mapTokens f) := rfl

@[simp] theorem carry_mapError_within (note : Note) (result : Except ParseError α) :
    carry f g (result.mapError (·.within note)) = (carry f g result).mapError (·.within note) := by
  cases result <;> rfl

variable {f g} in
/-- A second step on changed values gives the changed result when it does so on every value. -/
theorem carry_bind {δ : Type} {h : γ → δ} {next : α → Except ParseError γ}
    {next' : β → Except ParseError δ} (hnext : ∀ a, next' (g a) = carry f h (next a))
    (result : Except ParseError α) : carry f g result >>= next' = carry f h (result >>= next) := by
  cases result with
  | ok a => exact hnext a
  | error e => rfl

variable {f g} in
/-- Results that are changed to the same are both values or both errors. -/
theorem carry_eq_carry {first second : Except ParseError α}
    (h : carry f g first = carry f g second) :
    (∃ a a', first = .ok a ∧ second = .ok a' ∧ g a = g a') ∨
      ∃ e e', first = .error e ∧ second = .error e' ∧ e.mapTokens f = e'.mapTokens f := by
  cases first with
  | ok a =>
      cases second with
      | ok a' => exact .inl ⟨a, a', rfl, rfl, Except.ok.inj h⟩
      | error e' => cases h
  | error e =>
      cases second with
      | ok a' => cases h
      | error e' => exact .inr ⟨e, e', rfl, rfl, Except.error.inj h⟩

end Carry

/-! ## Rules -/

namespace Rule

variable {α β γ δ : Type} {f : Token → Token} {g : α → β} {h : γ → δ}

/-- The second rule reads changed tokens as the first reads the tokens themselves. -/
def Commutes (f : Token → Token) (g : α → β) (rule : Rule α) (rule' : Rule β) : Prop :=
  ∀ tokens, rule'.run (tokens.map f) = (carry f g (rule.run tokens).1, (rule.run tokens).2.map f)

theorem commutes_pure (a : α) :
    Commutes f g (Pure.pure a : Rule α) (Pure.pure (g a) : Rule β) := fun _ => rfl

theorem commutes_fail {cause cause' : Cause} (hcause : cause' = cause.mapTokens f) :
    Commutes f g (fail cause) (fail cause') := by
  intro tokens
  rw [hcause]
  rfl

theorem Commutes.bind {rule : Rule α} {rule' : Rule β} {next : α → Rule γ} {next' : β → Rule δ}
    (hfirst : Commutes f g rule rule') (hnext : ∀ a, Commutes f h (next a) (next' (g a))) :
    Commutes f h (rule >>= next) (rule' >>= next') := by
  intro tokens
  have hrun := hfirst tokens
  rcases hread : rule.run tokens with ⟨result, rest⟩
  rw [hread] at hrun
  cases result with
  | ok a => rw [run_bind_of_ok hread, run_bind_of_ok hrun, hnext a rest]
  | error e =>
      rw [run_bind_of_error hread, run_bind_of_error hrun]
      rfl

theorem Commutes.within {rule : Rule α} {rule' : Rule β} (hrule : Commutes f g rule rule')
    (note : Note) : Commutes f g (rule.within note) (rule'.within note) := by
  intro tokens
  rw [run_within, hrule tokens, run_within, carry_mapError_within]

theorem commutes_ofNext {read : Option Token → Except ParseError α}
    {read' : Option Token → Except ParseError β}
    (hread : ∀ found, read' (found.map f) = carry f g (read found)) :
    Commutes f g (ofNext read) (ofNext read') := by
  intro tokens
  show (read' (tokens.map f).head?, (tokens.map f).tail) = (carry f g (read tokens.head?), _)
  rw [List.head?_map, hread, ← List.map_tail]
  rfl

theorem commutes_ite {p : Prop} [Decidable p] {rule other : Rule α} {rule' other' : Rule β}
    (hyes : Commutes f g rule rule') (hno : Commutes f g other other') :
    Commutes f g (if p then rule else other) (if p then rule' else other') := by
  by_cases hp : p
  · rw [if_pos hp, if_pos hp]
    exact hyes
  · rw [if_neg hp, if_neg hp]
    exact hno

end Rule

/-! ## Runs of tokens -/

/-- The storage with the tokens of its type and initial value changed. -/
def Static.mapTokens (f : Token → Token) (static : Static) : Static :=
  ⟨static.type.map f, static.initial.map f⟩

namespace Grammar

open Rule

section Runs

variable {f : Token → Token}

theorem takeWhile_map_stop {p : Token → Bool} (hp : ∀ t, p (f t) = p t) (tokens : List Token) :
    (tokens.map f).takeWhile p = (tokens.takeWhile p).map f := by
  have hcomp : p ∘ f = p := funext hp
  rw [List.takeWhile_map, hcomp]

theorem dropWhile_map_stop {p : Token → Bool} (hp : ∀ t, p (f t) = p t) (tokens : List Token) :
    (tokens.map f).dropWhile p = (tokens.dropWhile p).map f := by
  have hcomp : p ∘ f = p := funext hp
  rw [List.dropWhile_map, hcomp]

theorem commutes_path (hf : ∀ t, (f t).isLeaf .comma = t.isLeaf .comma) :
    Commutes f (List.map f) path path := by
  have hp : ∀ t, (!(f t).isLeaf .comma) = !t.isLeaf .comma := fun t => by rw [hf]
  intro tokens
  simp only [path]
  rw [takeWhile_map_stop hp, dropWhile_map_stop hp]
  cases htake : tokens.takeWhile (!·.isLeaf .comma) with
  | nil =>
      rw [List.head?_map]
      rfl
  | cons first more => rfl

theorem commutes_upTo {stop : TokenKind} (hf : ∀ t, (f t).hasKind stop = t.hasKind stop) :
    Commutes f (List.map f) (upTo stop) (upTo stop) := by
  have hp : ∀ t, (!(f t).hasKind stop) = !t.hasKind stop := fun t => by rw [hf]
  intro tokens
  simp only [upTo]
  rw [takeWhile_map_stop hp, dropWhile_map_stop hp]
  cases hdrop : tokens.dropWhile (!·.hasKind stop) with
  | nil => rfl
  | cons first more => rfl

theorem commutes_filledUpTo {stop : TokenKind} {ifEmpty : Cause}
    (hf : ∀ t, (f t).hasKind stop = t.hasKind stop) (hcause : ifEmpty = ifEmpty.mapTokens f) :
    Commutes f (List.map f) (filledUpTo stop ifEmpty) (filledUpTo stop ifEmpty) := by
  apply (commutes_upTo hf).bind
  intro fragment
  rw [List.isEmpty_map]
  exact commutes_ite (commutes_fail hcause) (commutes_pure fragment)

/-- Storage is read without a look at anything but the kinds of tokens. -/
theorem commutes_static (hf : ∀ kind t, (f t).hasKind kind = t.hasKind kind) :
    Commutes f (Static.mapTokens f) static static := by
  apply (commutes_filledUpTo (hf _) rfl).bind
  intro type
  apply (commutes_filledUpTo (hf _) rfl).bind
  intro initial
  exact commutes_pure (Static.mk type initial)

end Runs

end Grammar

end RealtimeApp
