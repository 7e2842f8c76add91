import RealtimeApp.Proofs.DecimalDigits

/-!
# Texts in UTF-8

A byte string is in UTF-8 when it holds the bytes of characters (`Bytes.IsUtf8`).  JSON escapes
single bytes, which are ASCII, and no byte of another character; so strings in UTF-8 are written
in UTF-8, and so are the objects that hold them.
-/

namespace RealtimeApp

namespace Bytes

/-- The bytes are those of a text. -/
def IsUtf8 (bytes : Bytes) : Prop := ∃ text : String, ofString text = bytes

theorem ofString_eq_flatMap (text : String) :
    ofString text = text.toList.flatMap String.utf8EncodeChar := by
  rw [ofString, String.toUTF8_eq_toByteArray]
  conv => lhs; rw [← String.ofList_toList (s := text), String.toByteArray_ofList]
  exact List.toList_data_toByteArray

theorem isUtf8_iff {bytes : Bytes} :
    IsUtf8 bytes ↔ ∃ characters : List Char, bytes = characters.flatMap String.utf8EncodeChar := by
  constructor
  · rintro ⟨text, rfl⟩
    exact ⟨text.toList, ofString_eq_flatMap text⟩
  · rintro ⟨characters, rfl⟩
    refine ⟨String.ofList characters, ?_⟩
    rw [ofString_eq_flatMap, String.toList_ofList]

theorem IsUtf8.append {first second : Bytes} (h : IsUtf8 first) (h' : IsUtf8 second) :
    IsUtf8 (first ++ second) := by
  rw [isUtf8_iff] at h h' ⊢
  obtain ⟨characters, rfl⟩ := h
  obtain ⟨characters', rfl⟩ := h'
  exact ⟨characters ++ characters', List.flatMap_append.symm⟩

theorem IsUtf8.flatMap {α : Type} {items : List α} {text : α → Bytes}
    (h : ∀ item ∈ items, IsUtf8 (text item)) : IsUtf8 (items.flatMap text) := by
  induction items with
  | nil => exact ⟨"", rfl⟩
  | cons item items ih =>
      rw [List.flatMap_cons]
      refine (h item List.mem_cons_self).append (ih ?_)
      exact fun other hother => h other (List.mem_cons_of_mem _ hother)

/-! ## Single bytes -/

theorem isUtf8_singleton {b : UInt8} (h : b < 128) : IsUtf8 [b] := by
  have hall : ∀ n < 128, String.utf8EncodeChar (Char.ofNat n) = [UInt8.ofNat n] := by
    decide +kernel
  rw [isUtf8_iff]
  refine ⟨[Char.ofNat b.toNat], ?_⟩
  rw [List.flatMap_singleton, hall b.toNat (UInt8.lt_iff_toNat_lt.1 h), UInt8.ofNat_toNat]

theorem IsUtf8.cons {b : UInt8} {bytes : Bytes} (hb : b < 128) (h : IsUtf8 bytes) :
    IsUtf8 (b :: bytes) :=
  (isUtf8_singleton hb).append h

theorem isUtf8_of_ascii {bytes : Bytes} (h : ∀ b ∈ bytes, b < 128) : IsUtf8 bytes := by
  have hflat : bytes.flatMap (fun b => [b]) = bytes := by simp
  rw [← hflat]
  exact .flatMap fun b hb => isUtf8_singleton (h b hb)

/-- A character is one byte, or it has no byte that is a character of its own. -/
theorem utf8EncodeChar_cases (c : Char) :
    (∃ b, String.utf8EncodeChar c = [b] ∧ b < 128) ∨
      ∀ b ∈ String.utf8EncodeChar c, 128 ≤ b := by
  have hhigh : ∀ n, 128 ≤ n → n < 256 → 128 ≤ UInt8.ofNat n := by
    intro n hle hlt
    rw [UInt8.le_iff_toNat_le, UInt8.toNat_ofNat_of_lt' hlt]
    exact hle
  unfold String.utf8EncodeChar
  simp only
  split
  · rename_i hsmall
    left
    refine ⟨_, rfl, ?_⟩
    rw [UInt8.lt_iff_toNat_lt, UInt8.toNat_ofNat_of_lt' (by simp only [UInt8.size]; omega)]
    exact Nat.lt_succ_of_le hsmall
  all_goals right
  split
  · simp only [List.forall_mem_cons]
    exact ⟨hhigh _ (by omega) (by omega), hhigh _ (by omega) (by omega), by simp⟩
  split
  · simp only [List.forall_mem_cons]
    exact ⟨hhigh _ (by omega) (by omega), hhigh _ (by omega) (by omega),
      hhigh _ (by omega) (by omega), by simp⟩
  · simp only [List.forall_mem_cons]
    exact ⟨hhigh _ (by omega) (by omega), hhigh _ (by omega) (by omega),
      hhigh _ (by omega) (by omega), hhigh _ (by omega) (by omega), by simp⟩

end Bytes

/-! ## JSON -/

namespace Json

open Bytes (IsUtf8)

theorem escape_of_le {b : UInt8} (h : 128 ≤ b) : escape b = [b] := by
  have hne : ∀ c < 128, b ≠ c := by
    rintro c hc rfl
    exact absurd hc (UInt8.not_lt.2 h)
  have hspace : ¬ b < Byte.space := by
    intro hlt
    exact hne b (UInt8.lt_trans hlt (by decide)) rfl
  rw [escape, if_neg (hne _ (by decide)), if_neg (hne _ (by decide)), if_neg (hne _ (by decide)),
    if_neg (hne _ (by decide)), if_neg (hne _ (by decide)), if_neg (hne _ (by decide)),
    if_neg (hne _ (by decide)), if_neg hspace]

theorem ascii_escape {b : UInt8} (h : b < 128) : ∀ c ∈ escape b, c < 128 := by
  have hall : ∀ n < 128, ∀ c ∈ escape (UInt8.ofNat n), c < 128 := by decide +kernel
  have hb := hall b.toNat (UInt8.lt_iff_toNat_lt.1 h)
  rwa [UInt8.ofNat_toNat] at hb

/-- A string in UTF-8 is written in UTF-8. -/
theorem isUtf8_quoted {value : Bytes} (h : IsUtf8 value) : IsUtf8 (quoted value) := by
  obtain ⟨characters, rfl⟩ := Bytes.isUtf8_iff.1 h
  refine .cons (by decide) (.append ?_ (Bytes.isUtf8_singleton (by decide)))
  rw [List.flatMap_assoc]
  apply Bytes.IsUtf8.flatMap
  intro c _
  -- escapes are ASCII, and of other characters no byte is escaped
  rcases Bytes.utf8EncodeChar_cases c with ⟨b, hc, hb⟩ | hhigh
  · rw [hc, List.flatMap_singleton]
    exact Bytes.isUtf8_of_ascii (ascii_escape hb)
  · have hsame : (String.utf8EncodeChar c).flatMap escape = String.utf8EncodeChar c := by
      rw [List.flatMap_def, List.map_congr_left fun b hb => escape_of_le (hhigh b hb),
        ← List.flatMap_def, List.flatMap_singleton']
    rw [hsame]
    exact Bytes.isUtf8_iff.2 ⟨[c], by simp⟩

theorem isUtf8_text_ofInt (n : Int) : IsUtf8 (ofInt n).text := by
  apply Bytes.isUtf8_of_ascii
  intro b hb
  have hnumber := inNumber_of_mem_ofInt n b hb
  simp only [inNumber, Byte.isDigit, Bool.or_eq_true, Bool.and_eq_true, decide_eq_true_eq,
    beq_iff_eq] at hnumber
  rcases hnumber with ((((⟨-, hnine⟩ | rfl) | rfl) | rfl) | rfl) | rfl
  · exact UInt8.lt_of_le_of_lt hnine (by decide)
  all_goals decide

theorem isUtf8_entriesTail {entries : List (Bytes × Json)}
    (h : ∀ entry ∈ entries, IsUtf8 entry.1 ∧ IsUtf8 entry.2.text) :
    IsUtf8 (entriesTail entries) := by
  induction entries with
  | nil => exact Bytes.isUtf8_singleton (by decide)
  | cons entry entries ih =>
      obtain ⟨⟨hkey, hvalue⟩, hentries⟩ := List.forall_mem_cons.1 h
      refine .cons (by decide) (.append (isUtf8_quoted hkey) (.cons (by decide) ?_))
      exact hvalue.append (ih hentries)

theorem isUtf8_text_object {entries : List (Bytes × Json)}
    (h : ∀ entry ∈ entries, IsUtf8 entry.1 ∧ IsUtf8 entry.2.text) :
    IsUtf8 (object entries).text := by
  cases entries with
  | nil => exact ⟨"\x7b\x7d", by decide⟩
  | cons entry entries =>
      obtain ⟨⟨hkey, hvalue⟩, hentries⟩ := List.forall_mem_cons.1 h
      refine .cons (by decide) (.append (isUtf8_quoted hkey) (.cons (by decide) ?_))
      exact hvalue.append (isUtf8_entriesTail hentries)

end Json

end RealtimeApp
