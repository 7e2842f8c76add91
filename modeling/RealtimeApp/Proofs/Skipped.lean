import RealtimeApp.Comment
import RealtimeApp.Proofs.Boundary

/-!
# Blanks and comments

The pieces of a source that stand for nothing.  A block comment ends where its marks are balanced
for the first time (`BlockComment.balanced_scan`).
-/

namespace RealtimeApp

namespace BlockComment

/-- The mark that opens a block comment. -/
def opening : Bytes := [ascii '/', ascii '*']

/-- The mark that closes a block comment. -/
def closing : Bytes := [ascii '*', ascii '/']

/-- A mark stands at the beginning of a text. -/
def Marked (text : Bytes) : Prop := opening <+: text ∨ closing <+: text

/-- The text behind an opening mark, up to the closing mark that fits it and with that mark:
every mark in between belongs to a comment inside. -/
inductive Balanced : Bytes → Prop
  | close : Balanced closing
  | byte {b : UInt8} {text : Bytes} :
      ¬Marked (b :: text) → Balanced text → Balanced (b :: text)
  | comment {inner text : Bytes} :
      Balanced inner → Balanced text → Balanced (opening ++ (inner ++ text))

theorem Balanced.ne_nil {text : Bytes} (h : Balanced text) : text ≠ [] := by
  cases h with
  | close => exact List.cons_ne_nil _ _
  | byte _ _ => exact List.cons_ne_nil _ _
  | comment _ _ => exact List.cons_ne_nil _ _

theorem not_marked {b c : UInt8} {text : Bytes}
    (hopening : ¬(b = ascii '/' ∧ c = ascii '*')) (hclosing : ¬(b = ascii '*' ∧ c = ascii '/')) :
    ¬Marked (b :: c :: text) := by
  rintro (h | h)
  · simp only [opening, List.cons_prefix_cons, List.nil_prefix, and_true] at h
    exact hopening ⟨h.1.symm, h.2.symm⟩
  · simp only [closing, List.cons_prefix_cons, List.nil_prefix, and_true] at h
    exact hclosing ⟨h.1.symm, h.2.symm⟩

/-- A scan inside `around` further comments that comes to an end has closed the innermost one
and each of those around it, one behind the other. -/
theorem balanced_of_closed (around : Nat) (input : Bytes) :
    (scan around input).1.closed = true →
      ∃ pieces : List Bytes, pieces.length = around + 1 ∧ (∀ p ∈ pieces, Balanced p) ∧
        (scan around input).1.text = pieces.flatten := by
  fun_induction scan around input with
  | case1 => simp
  | case2 => simp
  | case3 around b c rest hmark ih =>
      intro hclosed
      obtain ⟨pieces, hlength, hpieces, htext⟩ := ih hclosed
      obtain ⟨rfl, rfl⟩ : b = ascii '/' ∧ c = ascii '*' := by simpa using hmark
      -- the innermost comment ends first, and belongs to the one that is scanned
      obtain ⟨inner, behind, rfl⟩ := List.exists_cons_of_length_eq_add_one hlength
      obtain ⟨text, others, rfl⟩ :=
        List.exists_cons_of_length_eq_add_one (Nat.succ.inj hlength)
      have hinner := hpieces inner (by simp)
      have htail := hpieces text (by simp)
      refine ⟨(opening ++ (inner ++ text)) :: others, by simpa using hlength, ?_, ?_⟩
      · intro p hp
        rcases List.mem_cons.1 hp with rfl | hp
        · exact Balanced.comment hinner htail
        · exact hpieces p (by simp [hp])
      · show opening ++ (scan (around + 1) rest).1.text = _
        simp [htext]
  | case4 b c rest hmark hclose =>
      intro _
      obtain ⟨rfl, rfl⟩ : b = ascii '*' ∧ c = ascii '/' := by simpa using hclose
      exact ⟨[closing], rfl, by simpa using Balanced.close, rfl⟩
  | case5 b c rest hmark hclose outer ih =>
      intro hclosed
      obtain ⟨pieces, hlength, hpieces, htext⟩ := ih hclosed
      obtain ⟨rfl, rfl⟩ : b = ascii '*' ∧ c = ascii '/' := by simpa using hclose
      refine ⟨closing :: pieces, by simp [hlength], ?_, ?_⟩
      · exact List.forall_mem_cons.2 ⟨Balanced.close, hpieces⟩
      · show closing ++ (scan outer rest).1.text = _
        simp [htext]
  | case6 around b c rest hmark hclose ih =>
      intro hclosed
      obtain ⟨pieces, hlength, hpieces, htext⟩ := ih hclosed
      obtain ⟨text, others, rfl⟩ := List.exists_cons_of_length_eq_add_one hlength
      have hinner := hpieces text (by simp)
      -- the text goes on with `c`, so that no mark begins with `b`
      obtain ⟨more, rfl⟩ : ∃ more, text = c :: more := by
        have hsplit := text_scan around (c :: rest)
        rw [htext] at hsplit
        cases text with
        | nil => exact absurd rfl hinner.ne_nil
        | cons first more =>
            simp only [List.flatten_cons, List.cons_append, List.cons.injEq] at hsplit
            exact ⟨more, by rw [hsplit.1]⟩
      have hnot : ¬Marked (b :: c :: more) :=
        not_marked (by simpa using hmark) (by simpa using hclose)
      refine ⟨(b :: c :: more) :: others, by simpa using hlength, ?_, ?_⟩
      · intro p hp
        rcases List.mem_cons.1 hp with rfl | hp
        · exact Balanced.byte hnot hinner
        · exact hpieces p (by simp [hp])
      · show [b] ++ (scan around (c :: rest)).1.text = _
        simp [htext]

/-- The text of a closed comment is balanced. -/
theorem balanced_scan (input : Bytes) (h : (scan 0 input).1.closed = true) :
    Balanced (scan 0 input).1.text := by
  obtain ⟨pieces, hlength, hpieces, htext⟩ := balanced_of_closed 0 input h
  obtain ⟨text, rfl⟩ := List.length_eq_one_iff.1 hlength
  rw [htext, List.flatten_singleton]
  exact hpieces text (by simp)

end BlockComment

/-- A piece of a source before `behind` is a blank or a comment; a line comment leaves the newline
behind it. -/
inductive Skipped (behind : Bytes) : Bytes → Prop
  | blank {b : UInt8} : Byte.isBlank b = true → Skipped behind [b]
  | line {text : Bytes} : Byte.newline ∉ text → Stops (· != Byte.newline) behind →
      Skipped behind (ascii '/' :: ascii '/' :: text)
  | block {text : Bytes} : BlockComment.Balanced text →
      Skipped behind (BlockComment.opening ++ text)

/-- A line comment goes on up to the end of its line. -/
theorem skipped_line (behind : Bytes) :
    Skipped (behind.dropWhile (· != Byte.newline))
      (ascii '/' :: ascii '/' :: behind.takeWhile (· != Byte.newline)) := by
  constructor
  · intro hmem
    have hall := List.all_eq_true.1 (List.all_takeWhile (p := (· != Byte.newline)) (l := behind))
    simpa using hall _ hmem
  · intro b hb
    have hhead := List.head?_dropWhile_not (· != Byte.newline) behind
    rw [Option.mem_def.1 hb] at hhead
    exact hhead

end RealtimeApp
