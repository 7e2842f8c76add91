import Mathlib.Data.List.Induction
import RealtimeApp.Token

/-!
# Offsets in a source

The place at an offset is counted from the bytes before it: one line more than there are newlines,
one column more than there are bytes behind the last newline (`placeAt`).  Moving on over a text
that stands at an offset leads to the place behind that text (`Stands.after_placeAt`).
-/

namespace RealtimeApp

/-- The place at an offset of a source. -/
def placeAt (source : Bytes) (offset : Nat) : Position :=
  ⟨1 + (source.take offset).count Byte.newline,
    1 + ((source.take offset).reverse.takeWhile (· != Byte.newline)).length⟩

/-- The source goes on with this text at an offset. -/
def Stands (source : Bytes) (offset : Nat) (text : Bytes) : Prop := text <+: source.drop offset

namespace Position

theorem after_concat (position : Position) (text : Bytes) (b : UInt8) :
    position.after (text ++ [b]) = (position.after text).next b := by
  simp [after]

/-- Counting byte by byte gives as many lines as there are newlines, and as many columns as there
are bytes behind the last of them. -/
theorem after_start (text : Bytes) :
    start.after text =
      ⟨1 + text.count Byte.newline,
        1 + (text.reverse.takeWhile (· != Byte.newline)).length⟩ := by
  induction text using List.reverseRecOn with
  | nil => rfl
  | append_singleton text b ih =>
      rw [after_concat, ih]
      by_cases hb : b = Byte.newline
      · subst hb
        simp [next, Int.add_assoc]
      · simp [next, hb, Int.add_assoc]

theorem after_start_take (source : Bytes) (offset : Nat) :
    start.after (source.take offset) = placeAt source offset :=
  after_start _

end Position

theorem placeAt_zero (source : Bytes) : placeAt source 0 = .start := rfl

namespace Stands

variable {source text more : Bytes} {offset : Nat}

theorem left (h : Stands source offset (text ++ more)) : Stands source offset text :=
  (List.prefix_append text more).trans h

theorem right (h : Stands source offset (text ++ more)) :
    Stands source (offset + text.length) more := by
  obtain ⟨back, hback⟩ := h
  refine ⟨back, ?_⟩
  rw [← List.drop_drop, ← hback, List.append_assoc, List.drop_left]

/-- The place behind a text is where the source goes on behind it. -/
theorem after_placeAt (h : Stands source offset text) :
    (placeAt source offset).after text = placeAt source (offset + text.length) := by
  obtain ⟨back, hback⟩ := h
  have htake : source.take (offset + text.length) = source.take offset ++ text := by
    rw [List.take_add, ← hback, List.take_left]
  rw [← Position.after_start_take, ← Position.after_start_take, htake, Position.after_append]

end Stands

theorem stands_zero (source : Bytes) : Stands source 0 source := List.prefix_refl source

end RealtimeApp
