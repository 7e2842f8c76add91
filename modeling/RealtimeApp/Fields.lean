import RealtimeApp.Rule

/-!
# Fields

The members of many groups are fields `key : value` between commas, with an optional comma
behind the last one.  The keys are identifiers; how a value is read depends on its key and on
the fields before it, which a state carries along.
-/

namespace RealtimeApp

namespace Fields

/-- Why the reading of fields stopped before the end. -/
inductive Stop where
  /-- A token does not fit between the values. -/
  | layout (cause : Cause)
  /-- The value under this key was refused. -/
  | value (key : Leaf) (error : ParseError)
  deriving Repr

/-- The error of a stop. -/
def Stop.error : Stop → ParseError
  | layout cause => .ofCause cause
  | value _ error => error

/-- The state behind the last value that was read or refused, and why no further one was. -/
structure Outcome (σ : Type) where
  state : σ
  stop : Option Stop

/-- The state behind all fields, or the error that stopped them. -/
def Outcome.result {σ : Type} (outcome : Outcome σ) : Except ParseError σ :=
  match outcome.stop with
  | none => .ok outcome.state
  | some stop => .error stop.error

/-- How a value was handled: whether it was refused, and in both cases the state and the tokens
that are left. -/
structure Handled (σ : Type) where
  result : Except ParseError Unit
  state : σ
  rest : List Token

/-- A handler of values, which changes the state as it goes and only moves forward. -/
structure Handler (σ : Type) where
  /-- Handle the value under a key. -/
  handle : Leaf → σ → List Token → Handled σ
  forward : ∀ key state tokens, (handle key state tokens).rest <:+ tokens

variable {σ : Type}

/-- The handler that reads the value under `key` with the rule `visit key state` and takes its
value for the next state.  A refused value leaves the state as it was. -/
def Handler.ofRules (visit : Leaf → σ → Rule σ) : Handler σ where
  handle key state tokens :=
    match (visit key state).run tokens with
    | (.ok next, rest) => ⟨.ok (), next, rest⟩
    | (.error e, rest) => ⟨.error e, state, rest⟩
  forward key state tokens := by
    have forward := (visit key state).forward tokens
    split
    all_goals
      rename_i h
      rwa [h] at forward

/-- Read fields to the end of a sequence, each value with the handler. -/
def read (handler : Handler σ) (state : σ) : List Token → Outcome σ
  | [] => ⟨state, none⟩
  | first :: afterKey =>
    match first.ident? with
    | none => ⟨state, some (.layout (.wanted .ident (some first)))⟩
    | some key =>
      match afterKey with
      | [] => ⟨state, some (.layout (.wanted .colon none))⟩
      | second :: tokens =>
        if second.isLeaf .colon then
          match _h : handler.handle key state tokens with
          | ⟨.error e, next, _⟩ => ⟨next, some (.value key e)⟩
          | ⟨.ok (), next, []⟩ => ⟨next, none⟩
          | ⟨.ok (), next, separator :: rest⟩ =>
            if separator.isLeaf .comma then read handler next rest
            else ⟨next, some (.layout (.wanted .comma (some separator)))⟩
        else ⟨state, some (.layout (.wanted .colon (some second)))⟩
termination_by tokens => tokens.length
decreasing_by
  have shorter := (handler.forward key state tokens).length_le
  rw [_h] at shorter
  simp only [List.length_cons] at shorter ⊢
  omega

end Fields

end RealtimeApp
