/-!
# When something is made

A value that is made in steps, each of which may fail, is there exactly when every step makes
its part.
-/

namespace RealtimeApp

/-- A value made in two steps is made by both. -/
theorem bind_eq_ok_iff {ε α β : Type} {first : Except ε α} {next : α → Except ε β} {b : β} :
    first >>= next = .ok b ↔ ∃ a, first = .ok a ∧ next a = .ok b := by
  cases first with
  | error e =>
      constructor
      · intro h
        cases h
      · rintro ⟨a, h, -⟩
        cases h
  | ok a =>
      constructor
      · intro h
        exact ⟨a, rfl, h⟩
      · rintro ⟨a', h, hnext⟩
        cases h
        exact hnext

/-- A value is not changed with the error beside it. -/
theorem mapError_eq_ok_iff {ε ε' α : Type} {made : Except ε α} {f : ε → ε'} {a : α} :
    made.mapError f = .ok a ↔ made = .ok a := by
  cases made with
  | error e =>
      constructor
      · intro h
        cases h
      · intro h
        cases h
  | ok b =>
      constructor
      · intro h
        cases h
        rfl
      · intro h
        cases h
        rfl

end RealtimeApp
