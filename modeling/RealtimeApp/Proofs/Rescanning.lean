import RealtimeApp.Proofs.Layout
import RealtimeApp.Proofs.NestRuns

/-!
# Scanning edited sources

Spans without complaints are found again when what follows them is replaced by a text that goes on
alike up to a boundary (`Span.all_append_swap`); behind a line comment that text has to begin with
the end of the line as well.  Blanks and complete comments are scanned as spans of their own,
whatever follows them (`Span.all_gap`).
-/

namespace RealtimeApp

namespace BlockComment

theorem scan_opening (around : Nat) (rest : Bytes) :
    scan around (opening ++ rest) = (scan (around + 1) rest).map (append opening) id := by
  rw [opening, List.cons_append, List.cons_append, List.nil_append, scan.eq_def]
  rfl

theorem scan_byte {b : UInt8} {text : Bytes} (hnot : ¬Marked (b :: text)) (hne : text ≠ [])
    (around : Nat) (rest : Bytes) :
    scan around (b :: (text ++ rest)) = (scan around (text ++ rest)).map (append [b]) id := by
  obtain ⟨c, more, rfl⟩ := List.exists_cons_of_ne_nil hne
  have hopening : ¬(b = ascii '/' ∧ c = ascii '*') := by
    rintro ⟨rfl, rfl⟩
    exact hnot (.inl (List.prefix_append opening more))
  have hclosing : ¬(b = ascii '*' ∧ c = ascii '/') := by
    rintro ⟨rfl, rfl⟩
    exact hnot (.inr (List.prefix_append closing more))
  rw [List.cons_append, scan.eq_def]
  simp [hopening, hclosing]

/-- A balanced text closes the innermost comment: the outermost one ends behind it, and inside
another one the scan goes on there. -/
theorem scan_balanced {text : Bytes} (h : Balanced text) (rest : Bytes) :
    scan 0 (text ++ rest) = (⟨text, true⟩, rest) ∧
      ∀ outer, scan (outer + 1) (text ++ rest) = (scan outer rest).map (append text) id := by
  induction h generalizing rest with
  | close =>
      refine ⟨rfl, ?_⟩
      intro outer
      rw [closing, List.cons_append, List.cons_append, List.nil_append, scan.eq_def]
      rfl
  | byte hnot hrest ih =>
      obtain ⟨hlast, hinside⟩ := ih rest
      refine ⟨?_, ?_⟩
      · rw [List.cons_append, scan_byte hnot hrest.ne_nil, hlast]
        rfl
      · intro outer
        rw [List.cons_append, scan_byte hnot hrest.ne_nil, hinside]
        rfl
  | @comment inner text hinner _ ihinner ih =>
      obtain ⟨hlast, hinside⟩ := ih rest
      have hcomment : ∀ around, scan around (opening ++ (inner ++ text) ++ rest) =
          (scan around (text ++ rest)).map (append (opening ++ inner)) id := by
        intro around
        rw [List.append_assoc, List.append_assoc, scan_opening, (ihinner (text ++ rest)).2 around]
        simp [append, Prod.map]
      refine ⟨?_, ?_⟩
      · rw [hcomment, hlast]
        simp [append]
      · intro outer
        rw [hcomment, hinside]
        simp [append, Prod.map]

end BlockComment

namespace Span

/-! ## Blanks and comments -/

theorem all_blank {b : UInt8} (h : Byte.isBlank b = true) (rest : Bytes) :
    all (b :: rest) = skip b [] :: all rest := by
  rw [all_cons]
  simp only [Byte.isBlank, Bool.or_eq_true, beq_iff_eq] at h
  rcases h with ((rfl | rfl) | rfl) | rfl
  all_goals rfl

theorem all_skipped {behind text : Bytes} (h : Skipped behind text) :
    all (text ++ behind) = ⟨text, .skipped, []⟩ :: all behind := by
  cases h with
  | blank hb => exact all_blank hb behind
  | @line text hline hbehind =>
      have hrun : ∀ b ∈ text, (b != Byte.newline) = true := by
        intro b hb
        rw [bne_iff_ne]
        rintro rfl
        exact hline hb
      obtain ⟨htake, hdrop⟩ := takeWhile_run hrun hbehind
      have hscan : scan (ascii '/') (ascii '/' :: (text ++ behind)) =
          (⟨ascii '/' :: ascii '/' :: text, .skipped, []⟩, behind) := by
        show scanSlash (ascii '/' :: (text ++ behind)) = _
        simp [scanSlash, htake, hdrop]
      rw [List.cons_append, List.cons_append, all_cons, hscan]
  | @block text hblock =>
      obtain ⟨hlast, -⟩ := BlockComment.scan_balanced hblock behind
      have hscan : scan (ascii '/') (ascii '*' :: (text ++ behind)) =
          (⟨ascii '/' :: ascii '*' :: text, .skipped, []⟩, behind) := by
        show scanSlash (ascii '*' :: (text ++ behind)) = _
        simp [scanSlash, hlast, ascii]
      show all (ascii '/' :: ascii '*' :: (text ++ behind)) = _
      rw [all_cons, hscan]
      rfl

/-- A span that stands for nothing, with nothing to complain about. -/
def IsIdle (span : Span) : Prop := span.content = .skipped ∧ span.complaints = []

theorem all_filler {piece : Bytes} (h : Filler piece) (rest : Bytes) :
    ∃ idle, all (piece ++ rest) = idle ++ all rest ∧ ∀ span ∈ idle, span.IsIdle := by
  cases h with
  | @blank b hb => exact ⟨[⟨[b], .skipped, []⟩], all_skipped (.blank hb), by simp [IsIdle]⟩
  | @block text htext =>
      exact ⟨[⟨BlockComment.opening ++ text, .skipped, []⟩], all_skipped (.block htext),
        by simp [IsIdle]⟩
  | @line text htext =>
      -- the newline that ends the comment is a span of its own
      have hends : Stops (· != Byte.newline) (Byte.newline :: rest) := stops_cons.2 rfl
      have hcomment := all_skipped (.line htext hends)
      rw [all_newline] at hcomment
      refine ⟨[⟨ascii '/' :: ascii '/' :: text, .skipped, []⟩, skip Byte.newline []], ?_, ?_⟩
      · simpa using hcomment
      · simp [IsIdle, skip]

/-- A gap is scanned as spans of its own that stand for nothing, whatever follows it. -/
theorem all_gap {gap : Bytes} (h : IsGap gap) (rest : Bytes) :
    ∃ idle, all (gap ++ rest) = idle ++ all rest ∧ ∀ span ∈ idle, span.IsIdle := by
  obtain ⟨pieces, hpieces, rfl⟩ := h
  induction pieces with
  | nil => exact ⟨[], rfl, by simp⟩
  | cons piece pieces ih =>
      obtain ⟨hpiece, hpieces⟩ := List.forall_mem_cons.1 hpieces
      obtain ⟨others, hothers, hidle⟩ := ih hpieces
      obtain ⟨first, hfirst, hfirstIdle⟩ := all_filler hpiece (pieces.flatten ++ rest)
      refine ⟨first ++ others, ?_, ?_⟩
      · rw [List.flatten_cons, List.append_assoc, hfirst, hothers, List.append_assoc]
      · exact fun span hspan => (List.mem_append.1 hspan).elim (hfirstIdle span) (hidle span)

/-! ## Another text behind spans -/

theorem all_textOf_of_cons {source : Bytes} {span : Span} {after : List Span}
    (h : all source = span :: after) : all (textOf after) = after := by
  cases source with
  | nil => simp at h
  | cons b input =>
      rw [all_cons, List.cons.injEq] at h
      rw [← h.2, textOf_all]

/-- The text of the later spans of a source is scanned as those spans. -/
theorem all_textOf_of_append {source : Bytes} {before after : List Span}
    (h : all source = before ++ after) : all (textOf after) = after := by
  induction before generalizing source with
  | nil =>
      rw [List.nil_append] at h
      rw [← h, textOf_all]
  | cons span before ih => exact ih (all_textOf_of_cons h)

/-- The first span of a source is found again when what follows it goes on alike up to a boundary,
and where a comment ended with its line, the line still ends there. -/
theorem all_cons_swap {source left : Bytes} {span : Span} {spans : List Span}
    (h : all source = span :: spans) (hspan : span.complaints = [])
    (hlike : LikeToBoundary (textOf spans) left)
    (hline : span.content = .skipped → Stops (· != Byte.newline) (textOf spans) →
      Stops (· != Byte.newline) left) : all (span.text ++ left) = span :: all left := by
  cases source with
  | nil => simp at h
  | cons b input =>
      rw [all_cons, List.cons.injEq] at h
      obtain ⟨hfirst, hothers⟩ := h
      have houtcome := outcome_scan b input
      have hrereads := rereads_scan b input
      rw [HasOutcome] at houtcome
      rw [← hothers, textOf_all] at hlike hline
      rw [hfirst] at houtcome hrereads
      cases houtcome with
      | leaf _ =>
          obtain ⟨text, htext, hagain⟩ := hrereads rfl
          rw [htext]
          show all (b :: (text ++ left)) = _
          rw [all_cons, hagain left hlike]
      | opener d => exact all_opening d left
      | closer d => exact all_closing d left
      | fault hcomplaints => exact absurd hspan hcomplaints
      | skipped hskipped =>
          apply all_skipped
          cases hskipped with
          | blank hb => exact .blank hb
          | block htext => exact .block htext
          | line htext hbehind => exact .line htext (hline rfl hbehind)

/-- The first spans of a source are found again when what follows the last of them goes on alike up
to a boundary, and where a comment ended with its line, the line still ends there. -/
theorem all_append_swap {source left : Bytes} {before after : List Span}
    (h : all source = before ++ after) (hspans : ∀ span ∈ before, span.complaints = [])
    (hlike : LikeToBoundary (textOf after) left)
    (hline : ∀ span ∈ before.getLast?, span.content = .skipped →
      Stops (· != Byte.newline) (textOf after) → Stops (· != Byte.newline) left) :
    all (textOf before ++ left) = before ++ all left := by
  induction before generalizing source with
  | nil => rfl
  | cons span before ih =>
      obtain ⟨hspan, hbefore⟩ := List.forall_mem_cons.1 hspans
      rw [List.cons_append] at h
      have hrest := all_textOf_of_cons h
      rw [textOf_cons, List.append_assoc, List.cons_append]
      cases before with
      | nil => exact all_cons_swap h hspan hlike (hline span rfl)
      | cons next before =>
          -- the next span begins what follows, before and after
          have hmem : next ∈ all (textOf (next :: before ++ after)) := by
            rw [hrest]
            exact List.mem_cons_self
          obtain ⟨b, more, htext⟩ := List.exists_cons_of_ne_nil (text_ne_nil_of_mem_all hmem)
          rw [List.getLast?_cons_cons] at hline
          rw [all_cons_swap h hspan, ih hrest hbefore hline]
          · rw [textOf_append]
            exact hlike.append _
          · intro _ hstops
            rw [List.cons_append, textOf_cons, htext] at hstops
            rw [textOf_cons, htext]
            exact hstops

end Span
end RealtimeApp
