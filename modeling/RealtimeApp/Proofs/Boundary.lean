import RealtimeApp.Delimiter

/-!
# Boundaries of lexemes

A lexeme ends at the latest before a blank, before a closer, or at the end of the source.  Every
scanner looks a few bytes ahead, and none of them mistakes such a boundary for a continuation.
-/

namespace RealtimeApp

namespace Byte

/-- Bytes that continue no lexeme: blanks and closers. -/
def isBoundary (b : UInt8) : Bool := isBlank b || (Delimiter.ofClosing? b).isSome

/-- The boundary bytes, written out. -/
def boundaries : List UInt8 :=
  [space, tab, carriageReturn, newline, ascii ')', ascii '}', ascii ']']

theorem mem_boundaries {b : UInt8} (h : isBoundary b = true) : b ∈ boundaries := by
  rw [isBoundary, Bool.or_eq_true] at h
  rcases h with hblank | hcloser
  · simp only [isBlank, Bool.or_eq_true, beq_iff_eq] at hblank
    rcases hblank with ((rfl | rfl) | rfl) | rfl <;> decide
  · rw [Delimiter.ofClosing?, List.find?_isSome] at hcloser
    obtain ⟨delimiter, -, hclosing⟩ := hcloser
    have hb : delimiter.closing = b := by simpa using hclosing
    subst hb
    cases delimiter <;> decide

/-- A property of the seven boundary bytes holds of every boundary. -/
theorem forall_boundary {p : UInt8 → Bool} (h : boundaries.all p = true) {b : UInt8}
    (hb : isBoundary b = true) : p b = true :=
  List.all_eq_true.1 h b (mem_boundaries hb)

theorem isBoundary_space : isBoundary space = true := by decide

theorem isBoundary_closing (delimiter : Delimiter) : isBoundary delimiter.closing = true := by
  cases delimiter <;> decide

end Byte

/-- The sequence ends or goes on with something outside the class `p`. -/
def Stops {α : Type} (p : α → Bool) (rest : List α) : Prop := ∀ b ∈ rest.head?, p b = false

/-- The text ends or goes on with a boundary. -/
def Bounded (rest : Bytes) : Prop := ∀ b ∈ rest.head?, Byte.isBoundary b = true

theorem bounded_nil : Bounded [] := by
  intro b hb
  cases hb

theorem bounded_cons {b : UInt8} {rest : Bytes} :
    Bounded (b :: rest) ↔ Byte.isBoundary b = true := by
  simp [Bounded]

theorem stops_nil {α : Type} {p : α → Bool} : Stops p [] := by
  intro b hb
  cases hb

theorem stops_cons {α : Type} {p : α → Bool} {b : α} {rest : List α} :
    Stops p (b :: rest) ↔ p b = false := by
  simp [Stops]

/-- A class without boundary bytes stops at every boundary. -/
theorem Bounded.stops {rest : Bytes} (h : Bounded rest) {p : UInt8 → Bool}
    (hp : Byte.boundaries.all (fun b => !p b) = true) : Stops p rest := by
  intro b hb
  have hout := Byte.forall_boundary hp (h b hb)
  simpa using hout

/-! ## Texts that agree up to a boundary -/

/-- The second text goes on like the first one until a boundary in it, or its end. -/
def LikeToBoundary (first second : Bytes) : Prop :=
  ∃ shared behind rest, first = shared ++ behind ∧ second = shared ++ rest ∧ Bounded rest

theorem Bounded.likeToBoundary {rest : Bytes} (h : Bounded rest) (behind : Bytes) :
    LikeToBoundary behind rest :=
  ⟨[], behind, rest, rfl, rfl, h⟩

theorem LikeToBoundary.append {first second : Bytes} (h : LikeToBoundary first second)
    (text : Bytes) : LikeToBoundary (text ++ first) (text ++ second) := by
  obtain ⟨shared, behind, rest, rfl, rfl, hrest⟩ := h
  exact ⟨text ++ shared, behind, rest, by simp, by simp, hrest⟩

/-- A class without boundary bytes that stops at the first text stops at the second one. -/
theorem LikeToBoundary.stops {first second : Bytes} (h : LikeToBoundary first second)
    {p : UInt8 → Bool} (hp : Byte.boundaries.all (fun b => !p b) = true)
    (hfirst : Stops p first) : Stops p second := by
  obtain ⟨shared, behind, rest, rfl, rfl, hrest⟩ := h
  cases shared with
  | nil => exact hrest.stops hp
  | cons b shared => exact hfirst

/-! ## Runs -/

/-- A run inside the class is taken whole where the class stops behind it. -/
theorem takeWhile_run {α : Type} {p : α → Bool} {run rest : List α}
    (hrun : ∀ b ∈ run, p b = true) (hrest : Stops p rest) :
    (run ++ rest).takeWhile p = run ∧ (run ++ rest).dropWhile p = rest := by
  have hnone : rest.takeWhile p = [] ∧ rest.dropWhile p = rest := by
    cases rest with
    | nil => exact ⟨rfl, rfl⟩
    | cons b rest => simp [stops_cons.1 hrest]
  rw [List.takeWhile_append_of_pos hrun, List.dropWhile_append_of_pos hrun, hnone.1, hnone.2,
    List.append_nil]
  exact ⟨rfl, rfl⟩

/-- Where a run inside a longer text ended before `behind`, it ends as well before a text that
the class stops at. -/
theorem takeWhile_append_swap {p : UInt8 → Bool} {rest : Bytes} (text behind : Bytes)
    (hrest : Stops p rest) :
    ∀ run : Bytes, (run ++ (text ++ behind)).takeWhile p = run →
      (run ++ (text ++ rest)).takeWhile p = run := by
  intro run
  induction run with
  | nil =>
      intro hrun
      cases text with
      | nil =>
          cases rest with
          | nil => rfl
          | cons b more => simp [stops_cons.1 hrest]
      | cons b more =>
          have hb : p b = false := by
            cases hpb : p b with
            | false => rfl
            | true => simp [hpb] at hrun
          simp [hb]
  | cons b more ih =>
      intro hrun
      cases hpb : p b with
      | false => simp [hpb] at hrun
      | true =>
          have htail : (more ++ (text ++ behind)).takeWhile p = more := by
            simpa [hpb] using hrun
          simp [hpb, ih htail]

/-- Where a run ended, it ends as well when what follows it is replaced by a text that goes on
alike up to a boundary. -/
theorem LikeToBoundary.takeWhile_eq {p : UInt8 → Bool} {run behind rest : Bytes}
    (h : LikeToBoundary behind rest) (hp : Byte.boundaries.all (fun b => !p b) = true)
    (hrun : (run ++ behind).takeWhile p = run) : (run ++ rest).takeWhile p = run := by
  obtain ⟨shared, behind, rest, rfl, rfl, hrest⟩ := h
  exact takeWhile_append_swap shared behind (hrest.stops hp) run hrun

theorem dropWhile_eq_of_takeWhile_eq {p : UInt8 → Bool} {run tail : Bytes}
    (h : (run ++ tail).takeWhile p = run) : (run ++ tail).dropWhile p = tail := by
  have hsplit := List.takeWhile_append_dropWhile (p := p) (l := run ++ tail)
  rw [h] at hsplit
  exact List.append_cancel_left hsplit

end RealtimeApp
