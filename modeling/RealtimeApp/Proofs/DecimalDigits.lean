import RealtimeApp.Json.Reader
import RealtimeApp.Proofs.Boundary

/-!
# Written integers

The decimal digits of a number are read back as this number (`ofDigits_ofNat`), and written
integers have the form of numbers in JSON (`isNumber_ofInt`).
-/

namespace RealtimeApp

namespace Bytes

/-- The digit of a number below ten. -/
def digit (d : Nat) : UInt8 := ascii d.digitChar

theorem isDigit_digit {d : Nat} (h : d < 10) : Byte.isDigit (digit d) = true := by
  have hall : ∀ d < 10, Byte.isDigit (digit d) = true := by decide
  exact hall d h

theorem digitValue_digit {d : Nat} (h : d < 10) : (Byte.digitValue (digit d)).toNat = d := by
  have hall : ∀ d < 10, (Byte.digitValue (digit d)).toNat = d := by decide
  exact hall d h

theorem digit_ne_zero {d : Nat} (h : d < 10) (hpos : 0 < d) : digit d ≠ ascii '0' := by
  have hall : ∀ d < 10, 0 < d → digit d ≠ ascii '0' := by decide
  exact hall d h hpos

theorem ofNat_of_lt {n : Nat} (h : n < 10) : ofNat n = [digit n] := by
  rw [ofNat, Nat.toDigits_of_lt_base h]
  rfl

theorem ofNat_of_le {n : Nat} (h : 10 ≤ n) : ofNat n = ofNat (n / 10) ++ [digit (n % 10)] := by
  rw [ofNat, Nat.toDigits_of_base_le (by decide) h, List.map_append]
  rfl

/-- Induction on the digits of a number, the last one taken off first. -/
theorem ofNat_induction {P : Nat → Bytes → Prop} (hdigit : ∀ d < 10, P d [digit d])
    (hmore : ∀ n d, 0 < n → d < 10 → P n (ofNat n) → P (10 * n + d) (ofNat n ++ [digit d])) :
    ∀ n, P n (ofNat n) := by
  intro n
  induction n using Nat.strongRecOn with
  | ind n ih =>
      by_cases hn : n < 10
      · rw [ofNat_of_lt hn]
        exact hdigit n hn
      · have hstep := hmore (n / 10) (n % 10) (by omega) (by omega) (ih (n / 10) (by omega))
        rw [Nat.div_add_mod] at hstep
        rw [ofNat_of_le (by omega)]
        exact hstep

theorem isDigit_of_mem_ofNat (n : Nat) : ∀ b ∈ ofNat n, Byte.isDigit b = true := by
  apply ofNat_induction (P := fun _ text => ∀ b ∈ text, Byte.isDigit b = true)
  · intro d hd b hb
    obtain rfl := List.mem_singleton.1 hb
    exact isDigit_digit hd
  · intro n d _ hd hdigits b hb
    rcases List.mem_append.1 hb with hb | hb
    · exact hdigits b hb
    · obtain rfl := List.mem_singleton.1 hb
      exact isDigit_digit hd

/-- The digits of a number are read back as the number. -/
theorem ofDigits_ofNat (n : Nat) : Decimal.ofDigits (ofNat n) = n := by
  apply ofNat_induction (P := fun n text => Decimal.ofDigits text = n)
  · intro d hd
    simp [Decimal.ofDigits, digitValue_digit hd]
  · intro n d _ hd hdigits
    have hlast : Decimal.ofDigits (ofNat n ++ [digit d]) =
        Decimal.ofDigits (ofNat n) * 10 + (Byte.digitValue (digit d)).toNat := by
      simp [Decimal.ofDigits]
    rw [hlast, hdigits, digitValue_digit hd]
    omega

theorem ofNat_ne_nil (n : Nat) : ofNat n ≠ [] := by
  apply ofNat_induction (P := fun _ text => text ≠ [])
  · intro d _
    simp
  · intro n d _ _ _
    simp

/-- Only zero itself begins with a zero. -/
theorem head?_ofNat (n : Nat) : 0 < n → (ofNat n).head? ≠ some (ascii '0') := by
  apply ofNat_induction (P := fun n text => 0 < n → text.head? ≠ some (ascii '0'))
  · intro d hd hpos
    simpa using digit_ne_zero hd hpos
  · intro n d hpos _ hhead _
    cases htext : ofNat n with
    | nil => exact absurd htext (ofNat_ne_nil n)
    | cons first more => simpa [htext] using hhead hpos

end Bytes

/-- A run of digits is read as a decimal number without a fraction. -/
theorem Decimal.read?_of_digits {text : Bytes} (hne : text ≠ [])
    (hdigits : ∀ b ∈ text, Byte.isDigit b = true) :
    Decimal.read? text = some ⟨Decimal.ofDigits text, 0⟩ := by
  obtain ⟨htake, hdrop⟩ := takeWhile_run hdigits stops_nil
  rw [List.append_nil] at htake hdrop
  have hrun : Decimal.digitRun? text = some (text, []) := by
    rw [Decimal.digitRun?, htake, hdrop]
    cases text with
    | nil => exact absurd rfl hne
    | cons d run => rfl
  simp [Decimal.read?, hrun, Decimal.fraction?, Decimal.exponent?]

namespace Json

theorem isNumber_of_digits {text : Bytes} (hne : text ≠ [])
    (hdigits : ∀ b ∈ text, Byte.isDigit b = true)
    (hfirst : text.length = 1 ∨ text.head? ≠ some (ascii '0')) :
    isNumber text = true ∧ isNumber (ascii '-' :: text) = true := by
  have hread := Decimal.read?_of_digits hne hdigits
  match text, hfirst with
  | [], _ => exact absurd rfl hne
  | [d], _ =>
      have hminus : d ≠ ascii '-' := by
        rintro rfl
        exact absurd (hdigits _ List.mem_cons_self) (by decide)
      simp [isNumber, hread, hminus]
  | first :: second :: more, hfirst =>
      have hminus : first ≠ ascii '-' := by
        rintro rfl
        exact absurd (hdigits _ List.mem_cons_self) (by decide)
      have hzero : first ≠ ascii '0' := by simpa using hfirst
      simp [isNumber, hread, hminus, hzero]

theorem isNumber_ofNat (n : Nat) :
    isNumber (Bytes.ofNat n) = true ∧ isNumber (ascii '-' :: Bytes.ofNat n) = true := by
  apply isNumber_of_digits (Bytes.ofNat_ne_nil n) (Bytes.isDigit_of_mem_ofNat n)
  by_cases hn : n < 10
  · rw [Bytes.ofNat_of_lt hn]
    exact .inl rfl
  · exact .inr (Bytes.head?_ofNat n (by omega))

/-- A written integer has the form of a number. -/
theorem isNumber_ofInt (n : Int) : isNumber (Bytes.ofInt n) = true := by
  cases n with
  | ofNat n => exact (isNumber_ofNat n).1
  | negSucc n => exact (isNumber_ofNat (n + 1)).2

/-- A written integer holds only bytes of numbers. -/
theorem inNumber_of_mem_ofInt (n : Int) : ∀ b ∈ Bytes.ofInt n, inNumber b = true := by
  have hdigits : ∀ n, ∀ b ∈ Bytes.ofNat n, inNumber b = true := by
    intro n b hb
    simp [inNumber, Bytes.isDigit_of_mem_ofNat n b hb]
  cases n with
  | ofNat n => exact hdigits n
  | negSucc n =>
      intro b hb
      rcases List.mem_cons.1 hb with rfl | hb
      · decide
      · exact hdigits (n + 1) b hb

end Json
end RealtimeApp
