import Mathlib.Data.List.Induction
import Mathlib.Data.Nat.Digits.Defs
import RealtimeApp.Proofs.WrittenNumerals

/-!
# Integer literals are decoded exactly

The digits of a literal stand for a natural number by their places (`Radix.valueOf`).  Decoding
takes one digit after the other into 64 bits, and tests before each one whether the number still
fits.  The test is exact and nothing in it wraps around (`Radix.inRange`), so the number that comes
out is the one that the digits stand for, and there is none exactly when that one does not fit
(`Radix.value?_exact`).
-/

namespace RealtimeApp

namespace Radix

theorem base_toNat_le (radix : Radix) : radix.base.toNat ≤ 16 := by
  cases radix <;> decide

theorem base_toNat_pos (radix : Radix) : 0 < radix.base.toNat := by
  cases radix <;> decide

theorem toNat_digitValue {radix : Radix} {b : UInt8} (h : radix.hasDigit b = true) :
    (Byte.digitValue b).toNat = Byte.figure b := by
  have hfirst := hasDigit_iff.1 h
  have hbase := radix.base_toNat_le
  rw [Byte.figure_eq] at hfirst ⊢
  split at hfirst
  · rename_i hhex
    rw [if_pos hhex]
  · omega

/-! ## One more digit -/

/-- The number that digits stand for by their places. -/
def valueOf (radix : Radix) (digits : Bytes) : Nat :=
  Nat.ofDigits radix.base.toNat (digits.reverse.map Byte.figure)

theorem valueOf_concat (radix : Radix) (digits : Bytes) (b : UInt8) :
    radix.valueOf (digits ++ [b]) =
      radix.valueOf digits * radix.base.toNat + Byte.figure b := by
  rw [valueOf, valueOf, List.reverse_concat, List.map_cons, Nat.ofDigits_cons, Nat.mul_comm]
  omega

/-- No step of the test for a digit and of what it guards leaves the range of 64 bits: each comes
out as it does among the natural numbers. -/
structure InRange (radix : Radix) (value : UInt64) (b : UInt8) : Prop where
  difference : (18446744073709551615 - (Byte.digitValue b).toUInt64).toNat =
    2 ^ 64 - 1 - Byte.figure b
  sum : ¬(18446744073709551615 - (Byte.digitValue b).toUInt64) / radix.base < value →
    (value * radix.base + (Byte.digitValue b).toUInt64).toNat =
      value.toNat * radix.base.toNat + Byte.figure b

section Push

variable {radix : Radix} {value : UInt64} {b : UInt8}

theorem toNat_toUInt64_digitValue (h : radix.hasDigit b = true) :
    (Byte.digitValue b).toUInt64.toNat = Byte.figure b := by
  rw [UInt8.toNat_toUInt64, toNat_digitValue h]

theorem toNat_difference (h : radix.hasDigit b = true) :
    (18446744073709551615 - (Byte.digitValue b).toUInt64).toNat = 2 ^ 64 - 1 - Byte.figure b := by
  have hdigit := toNat_toUInt64_digitValue h
  have hsmall := hasDigit_iff.1 h
  have hbase := radix.base_toNat_le
  have hle : (Byte.digitValue b).toUInt64 ≤ 18446744073709551615 := by
    rw [UInt64.le_iff_toNat_le, hdigit]
    show Byte.figure b ≤ 18446744073709551615
    omega
  rw [UInt64.toNat_sub_of_le _ _ hle, hdigit]
  rfl

/-- The test passes exactly when the number with one more digit fits. -/
theorem fits_iff (h : radix.hasDigit b = true) :
    ¬(18446744073709551615 - (Byte.digitValue b).toUInt64) / radix.base < value ↔
      value.toNat * radix.base.toNat + Byte.figure b < 2 ^ 64 := by
  have hsmall := hasDigit_iff.1 h
  have hbase := radix.base_toNat_le
  rw [UInt64.lt_iff_toNat_lt, UInt64.toNat_div, toNat_difference h, not_lt,
    Nat.le_div_iff_mul_le radix.base_toNat_pos]
  omega

theorem inRange (h : radix.hasDigit b = true) : InRange radix value b where
  difference := toNat_difference h
  sum := by
    intro hfits
    have hbound := (fits_iff h).1 hfits
    have hproduct : (value * radix.base).toNat = value.toNat * radix.base.toNat := by
      rw [UInt64.toNat_mul]
      exact Nat.mod_eq_of_lt (by omega)
    rw [UInt64.toNat_add, hproduct, toNat_toUInt64_digitValue h]
    exact Nat.mod_eq_of_lt hbound

end Push

/-! ## All digits -/

theorem value?_concat (radix : Radix) (digits : Bytes) (b : UInt8) :
    radix.value? (digits ++ [b]) =
      (radix.value? digits).bind fun value => radix.push? value (Byte.digitValue b).toUInt64 := by
  simp [value?, List.foldlM_append]

/-- What has been decoded of digits that stand for a number: that number, or nothing where it takes
more than 64 bits. -/
inductive Decoded (n : Nat) : Option UInt64 → Prop
  | exact {value : UInt64} (h : value.toNat = n) : Decoded n (some value)
  | tooLarge (h : 2 ^ 64 ≤ n) : Decoded n none

/-- One more digit keeps the number that was decoded exact. -/
theorem Decoded.concat {radix : Radix} {digits : Bytes} {b : UInt8}
    (h : Decoded (radix.valueOf digits) (radix.value? digits)) (hb : radix.hasDigit b = true) :
    Decoded (radix.valueOf (digits ++ [b])) (radix.value? (digits ++ [b])) := by
  rw [value?_concat, valueOf_concat]
  generalize radix.value? digits = decoded at h
  cases h with
  | tooLarge h =>
      have hbase := Nat.le_mul_of_pos_right (radix.valueOf digits) radix.base_toNat_pos
      exact .tooLarge (by omega)
  | @exact value h =>
      rw [← h, Option.bind_some, push?]
      split
      · rename_i hguard
        refine .tooLarge ?_
        rw [← not_lt, ← fits_iff hb, not_not]
        exact hguard
      · rename_i hguard
        exact .exact ((inRange hb).sum hguard)

/-- Digits are decoded to the number that they stand for, or to none where it does not fit. -/
theorem value?_exact {radix : Radix} (digits : Bytes)
    (h : ∀ b ∈ digits, radix.hasDigit b = true) :
    Decoded (radix.valueOf digits) (radix.value? digits) := by
  induction digits using List.reverseRecOn with
  | nil => exact .exact rfl
  | append_singleton digits b ih =>
      obtain ⟨hdigits, hb⟩ := List.forall_mem_append.1 h
      exact (ih hdigits).concat (hb b (List.mem_singleton_self b))

end Radix

/-! ## Whole literals -/

namespace Numeral

/-- An integer: no fraction, no exponent, and no suffix that names a float type. -/
structure IsInteger (n : Numeral) : Prop where
  fraction : n.fraction = []
  exponent : n.exponent = []
  suffix : n.suffix ≠ Bytes.ofString "f32" ∧ n.suffix ≠ Bytes.ofString "f64"

/-- The number that the digits of an integer stand for in its base. -/
def value (n : Numeral) : Nat := n.radix.valueOf (digitsOf n.whole)

section IsInteger

variable {n : Numeral} {behind : Bytes}

theorem IsInteger.text_eq (h : n.IsInteger) : n.text = n.mark ++ (n.whole ++ n.suffix) := by
  rw [text, h.fraction, h.exponent, List.nil_append, List.nil_append]

theorem IsInteger.hasFloatSuffix_eq (h : n.IsInteger) : n.hasFloatSuffix = false := by
  simp [hasFloatSuffix, h.suffix]

theorem IsInteger.isFloat_eq (h : n.IsInteger) : n.isFloat = false := by
  simp [isFloat, h.fraction, h.exponent, h.hasFloatSuffix_eq]

theorem IsInteger.decode_eq (h : n.IsInteger) (hwritten : n.Written behind) :
    (∃ value : UInt64, value.toNat = n.value ∧ n.decode = .ok (.integer value)) ∨
      2 ^ 64 ≤ n.value ∧ n.decode = .error .integerTooLarge := by
  have hdecoded := Radix.value?_exact (digitsOf n.whole)
    (hasDigit_of_mem_digitsOf hwritten.whole)
  simp only [decode, if_neg hwritten.digits, h.isFloat_eq, h.hasFloatSuffix_eq,
    Bool.false_eq_true, if_false]
  generalize n.radix.value? (digitsOf n.whole) = decoded at hdecoded
  cases hdecoded with
  | exact hvalue => exact .inl ⟨_, hvalue, rfl⟩
  | tooLarge hvalue => exact .inr ⟨hvalue, rfl⟩

end IsInteger
end Numeral

namespace Lexer

/-- Every integer that a call comes to is decoded exactly, whatever was read before it and whatever
follows it: it makes a leaf with the number that its digits stand for in its base, or, where that
number takes more than 64 bits, no leaf and one complaint.  The lexeme is the mark, the digits and
the suffix as they are written, and no step on the way leaves the range of 64 bits. -/
theorem Reaches.integer_exact {lexer : Lexer} {state : State} {n : Numeral} {behind : Bytes}
    (hreach : lexer.Reaches state) (hinput : state.input = n.text ++ behind)
    (hwritten : n.Written behind) (hinteger : n.IsInteger) :
    n.text = n.mark ++ (n.whole ++ n.suffix) ∧
      (∀ b ∈ Numeral.digitsOf n.whole, ∀ value, n.radix.InRange value b) ∧
      (n.value < 2 ^ 64 → ∃ value : UInt64, value.toNat = n.value ∧
        lexer.Emits state ⟨.integer, n.text, some (.integer value), n.suffix, state.position⟩ []
          behind) ∧
      (2 ^ 64 ≤ n.value → lexer.GivesUp state n.text [.integerTooLarge] behind) := by
  have hscan := hwritten.scan_eq
  obtain ⟨b, rest, hfirst, hb⟩ := hwritten.exists_cons
  rw [hfirst] at hinput hscan
  have hkind : n.kind = .integer := by simp [Numeral.kind, hinteger.isFloat_eq]
  have hdigits := Numeral.hasDigit_of_mem_digitsOf hwritten.whole
  refine ⟨hinteger.text_eq, fun d hd value => Radix.inRange (hdigits d hd), ?_⟩
  rcases hinteger.decode_eq hwritten with ⟨value, hvalue, hdecode⟩ | ⟨hlarge, hdecode⟩
  · have hbound := value.toNat_lt
    have hemits := hreach.emits_numeral hinput hb hscan hdecode
    rw [hkind] at hemits
    exact ⟨fun _ => ⟨value, hvalue, hemits⟩, fun hlarge => by omega⟩
  · exact ⟨fun hsmall => by omega, fun _ => hreach.givesUp_numeral hinput hb hscan hdecode⟩

/-- A number in base sixteen with an underscore and a suffix, behind an opener. -/
theorem Reaches.integer_exact_hexadecimal :
    ∃ state, (ofSource (Bytes.ofString "(0xFf_u8)") defaultLimit).Reaches state ∧
      (ofSource (Bytes.ofString "(0xFf_u8)") defaultLimit).Emits state
        ⟨.integer, Bytes.ofString "0xFf_u8", some (.integer 255), Bytes.ofString "u8", ⟨1, 2⟩⟩ []
        (Bytes.ofString ")") := by
  let n : Numeral := ⟨.hexadecimal, Bytes.ofString "0x", Bytes.ofString "Ff_", [], [],
    Bytes.ofString "u8"⟩
  have hscan : Numeral.scan (ascii '0' :: Bytes.ofString "xFf_u8)") =
      (n, Bytes.ofString ")") := by decide
  have hwritten := Numeral.written_of_scan hscan (by decide) (by decide)
  have hreach : (ofSource (Bytes.ofString "(0xFf_u8)") defaultLimit).Reaches
      ⟨Nest.empty.enter .paren .start, [], ⟨1, 2⟩, Bytes.ofString "0xFf_u8)"⟩ :=
    .single (.take [] (.opener rfl (by decide)))
  obtain ⟨-, -, hfits, -⟩ :=
    hreach.integer_exact (by decide) hwritten ⟨rfl, rfl, by decide, by decide⟩
  obtain ⟨value, hvalue, hemits⟩ := hfits (by decide)
  obtain rfl : value = 255 := UInt64.toNat_inj.1 (hvalue.trans (by decide))
  exact ⟨_, hreach, hemits⟩

end Lexer
end RealtimeApp
