import Mathlib.Data.List.Forall2
import RealtimeApp.Proofs.NestRuns
import RealtimeApp.Proofs.Offsets

/-!
# Open groups

Which groups are open behind spans is a matter of their openers and closers alone: an opener opens
a group, and a closer ends the innermost group if it fits (`Span.openBehind`).  A nest has the same
groups open, each at the place of its opener (`Nest.RunAt.opensAt`).
-/

namespace RealtimeApp

/-- An opener of a source, and the offset that it stands at. -/
structure Opener where
  delimiter : Delimiter
  offset : Nat
  deriving DecidableEq, Repr

namespace Span

/-- Does a closer end the innermost of the open groups? -/
def fits (opened : List Opener) (closer : Delimiter) : Bool :=
  opened.head?.any (·.delimiter == closer)

/-- The groups that are open behind a span at an offset, innermost first. -/
def openBy (offset : Nat) (opened : List Opener) (span : Span) : List Opener :=
  match span.content with
  | .opener d => ⟨d, offset⟩ :: opened
  | .closer d => if fits opened d then opened.tail else opened
  | .leaf .. | .skipped => opened

/-- The groups that are open behind spans from an offset on, innermost first. -/
def openBehind (offset : Nat) (opened : List Opener) : List Span → List Opener
  | [] => opened
  | span :: rest => openBehind (offset + span.text.length) (span.openBy offset opened) rest

theorem openBehind_append (offset : Nat) (opened : List Opener) (before after : List Span) :
    openBehind offset opened (before ++ after) =
      openBehind (offset + (textOf before).length) (openBehind offset opened before) after := by
  induction before generalizing offset opened with
  | nil => rfl
  | cons span before ih =>
      rw [List.cons_append, openBehind, openBehind, ih, textOf_cons, List.length_append,
        Nat.add_assoc]

end Span

/-- The spans of a source stand at its beginning. -/
theorem stands_all (source : Bytes) : Stands source 0 (Span.textOf (Span.all source)) := by
  rw [Span.textOf_all]
  exact stands_zero source

namespace Nest

/-! ## Runs over spans of a source -/

/-- Spans that stand in a source from an offset on are all taken, each at the place of its own
offset. -/
inductive RunAt (source : Bytes) (limit : Int) :
    Nat → Nest → List Span → Nest → List Fault → Prop
  | done (offset : Nat) (nest : Nest) : RunAt source limit offset nest [] nest []
  | next {offset : Nat} {nest next last : Nest} {span : Span} {rest : List Span}
      {complaints : List Complaint} {faults : List Fault}
      (first : Takes limit nest (placeAt source offset) span next complaints)
      (stands : Stands source offset span.text)
      (others : RunAt source limit (offset + span.text.length) next rest last faults) :
      RunAt source limit offset nest (span :: rest) last
        (complaints.map (Fault.mk (placeAt source offset).line) ++ faults)

/-- A run that begins at the place of an offset goes from offset to offset. -/
theorem Run.runAt {source : Bytes} {limit : Int} {nest last : Nest} {position : Position}
    {spans : List Span} {faults : List Fault} {offset : Nat}
    (h : Run limit nest position spans last faults) (hposition : position = placeAt source offset)
    (hstands : Stands source offset (Span.textOf spans)) :
    RunAt source limit offset nest spans last faults := by
  induction h generalizing offset with
  | done nest position => exact .done offset nest
  | next first _ ih =>
      subst hposition
      rw [Span.textOf_cons] at hstands
      exact .next first hstands.left (ih hstands.left.after_placeAt hstands.right)

/-! ## The open groups of a nest -/

/-- These are the open groups of a nest, innermost first. -/
def OpensAt (source : Bytes) (nest : Nest) (opened : List Opener) : Prop :=
  List.Forall₂ (fun frame opener => frame.delimiter = opener.delimiter ∧
    frame.position = placeAt source opener.offset) nest.around opened

section OpensAt

variable {source : Bytes} {limit : Int} {nest next last : Nest} {span : Span} {spans : List Span}
  {opened : List Opener} {offset : Nat} {complaints : List Complaint} {faults : List Fault}

theorem opensAt_empty : OpensAt source empty [] := .nil

theorem OpensAt.length_eq (h : nest.OpensAt source opened) : nest.depth = opened.length :=
  List.Forall₂.length_eq h

/-- A closer that a nest takes ends its innermost open group. -/
theorem OpensAt.leave_ok {d : Delimiter} {outer : Nest} (h : nest.OpensAt source opened)
    (hleave : nest.leave d = .ok outer) :
    Span.fits opened d = true ∧ outer.OpensAt source opened.tail := by
  obtain ⟨frame, haround, hdelimiter, -⟩ := leave_eq_ok hleave
  rw [OpensAt, haround] at h
  cases h with
  | cons hframe houter => exact ⟨by simp [Span.fits, ← hframe.1, hdelimiter], houter⟩

theorem OpensAt.leave_error {d : Delimiter} {complaint : Complaint}
    (h : nest.OpensAt source opened) (hleave : nest.leave d = .error complaint) :
    Span.fits opened d = false := by
  obtain ⟨members, around⟩ := nest
  cases h with
  | nil => rfl
  | @cons frame opener outer _ hframe _ =>
      by_cases hcloser : frame.delimiter = d
      · simp [leave, hcloser] at hleave
      · simpa [Span.fits, ← hframe.1] using hcloser

theorem Takes.opensAt (h : Takes limit nest (placeAt source offset) span next complaints)
    (hopened : nest.OpensAt source opened) :
    next.OpensAt source (span.openBy offset opened) := by
  cases h with
  | skipped h | leaf h =>
      rw [Span.openBy, h]
      exact hopened
  | opener h _ =>
      rw [Span.openBy, h]
      exact .cons ⟨rfl, rfl⟩ hopened
  | closer h hleave =>
      obtain ⟨hfits, houter⟩ := hopened.leave_ok hleave
      rw [Span.openBy, h]
      simp only [hfits, if_true]
      exact houter
  | dropped h hleave =>
      have hfits := hopened.leave_error hleave
      rw [Span.openBy, h]
      simpa only [hfits, Bool.false_eq_true, if_false] using hopened

/-- A run leaves the groups open that the openers and closers among its spans leave open. -/
theorem RunAt.opensAt (h : RunAt source limit offset nest spans last faults)
    (hopened : nest.OpensAt source opened) :
    last.OpensAt source (Span.openBehind offset opened spans) := by
  induction h generalizing opened with
  | done offset nest => exact hopened
  | next first _ _ ih => exact ih (first.opensAt hopened)

end OpensAt
end Nest
end RealtimeApp
