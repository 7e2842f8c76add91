import RealtimeApp.Proofs.NestRuns

/-!
# Texts at other places

A text that begins at some place of a longer one is read there as it is read on its own, except that
its lines and columns go on from that place.  Spans do not know their places, so it is enough to
follow the nest from span to span (`Nest.Takes.relocate`, `Nest.Run.relocate`); a call of a lexer
then differs in nothing else from a call on what is left of the source alone
(`Lexer.tokenize_eq_relocate`).
-/

namespace RealtimeApp

/-! ## Places -/

namespace Position

/-- Where a place of a text lies when the text begins at `base`.  The first line goes on from
`base`; the columns of the lines below are their own. -/
def relocate (base position : Position) : Position :=
  ⟨base.line + (position.line - 1),
    if position.line = 1 then base.column + (position.column - 1) else position.column⟩

@[simp] theorem relocate_start (base : Position) : relocate base start = base := by
  simp [relocate, start]

theorem one_le_line_next {position : Position} (h : 1 ≤ position.line) (b : UInt8) :
    1 ≤ (position.next b).line := by
  rw [next]
  split
  · exact Int.le_add_one h
  · exact h

theorem relocate_next (base : Position) {position : Position} (h : 1 ≤ position.line) (b : UInt8) :
    relocate base (position.next b) = (relocate base position).next b := by
  by_cases hb : b = Byte.newline
  · -- the next line is not the first one
    have hline : position.line + 1 ≠ 1 := by omega
    simp only [next, hb, if_true, relocate, if_neg hline, Position.mk.injEq, and_true]
    omega
  · by_cases hline : position.line = 1
    · simp only [next, hb, if_false, relocate, hline, if_true, Position.mk.injEq, true_and]
      omega
    · simp only [next, hb, if_false, relocate, hline]

theorem relocate_after (base : Position) {position : Position} (h : 1 ≤ position.line)
    (text : Bytes) :
    relocate base (position.after text) = (relocate base position).after text ∧
      1 ≤ (position.after text).line := by
  induction text generalizing position with
  | nil => exact ⟨rfl, h⟩
  | cons b text ih =>
      have hrest := ih (one_le_line_next h b)
      rw [relocate_next base h] at hrest
      exact hrest

/-- A text that begins at a place ends where the text on its own does, seen from that place. -/
theorem relocate_start_after (base : Position) (text : Bytes) :
    relocate base (start.after text) = base.after text := by
  have hstart : (1 : Int) ≤ start.line := Int.le_refl 1
  rw [(relocate_after base hstart text).1, relocate_start]

end Position

/-! ## Tokens and faults -/

/-- A leaf of a text that begins at `base`. -/
def Leaf.relocate (base : Position) (l : Leaf) : Leaf :=
  { l with position := base.relocate l.position }

namespace Token

mutual

/-- A token of a text that begins at `base`. -/
def relocate (base : Position) : Token → Token
  | leaf l => leaf (l.relocate base)
  | group d position members => group d (base.relocate position) (relocateAll base members)

/-- The tokens of a text that begins at `base`. -/
def relocateAll (base : Position) : List Token → List Token
  | [] => []
  | t :: ts => relocate base t :: relocateAll base ts

end

theorem relocateAll_eq_map (base : Position) (ts : List Token) :
    relocateAll base ts = ts.map (relocate base) := by
  induction ts with
  | nil => rfl
  | cons t ts ih => rw [relocateAll, ih, List.map_cons]

theorem relocateAll_reverse (base : Position) (ts : List Token) :
    relocateAll base ts.reverse = (relocateAll base ts).reverse := by
  rw [relocateAll_eq_map, relocateAll_eq_map, List.map_reverse]

end Token

/-- A complaint about a text that begins at `base`: only a closer that does not fit names a line. -/
def Complaint.relocate (base : Position) : Complaint → Complaint
  | .mismatchedCloser closer opener line =>
    .mismatchedCloser closer opener (base.line + (line - 1))
  | complaint => complaint

/-- A fault of a text that begins at `base`. -/
def Fault.relocate (base : Position) (fault : Fault) : Fault :=
  ⟨base.line + (fault.line - 1), fault.complaint.relocate base⟩

theorem Complaint.relocate_of_isUnmatched_eq_false (base : Position) {complaint : Complaint}
    (h : complaint.isUnmatched = false) : complaint.relocate base = complaint := by
  cases complaint with
  | mismatchedCloser _ _ _ => cases h
  | _ => rfl

theorem Fault.map_relocate (base position : Position) (complaints : List Complaint) :
    (complaints.map (Fault.mk position.line)).map (Fault.relocate base) =
      (complaints.map (Complaint.relocate base)).map (Fault.mk (base.relocate position).line) := by
  rw [List.map_map, List.map_map]
  rfl

/-! ## Nests -/

/-- An open group of a text that begins at `base`. -/
def Frame.relocate (base : Position) (frame : Frame) : Frame :=
  ⟨frame.delimiter, base.relocate frame.position, Token.relocateAll base frame.before⟩

theorem Frame.relocate_close (base : Position) (frame : Frame) (members : List Token) :
    Token.relocateAll base (frame.close members) =
      (frame.relocate base).close (Token.relocateAll base members) := by
  rw [close, close, Token.relocateAll, Token.relocate, Token.relocateAll_reverse]
  rfl

namespace Nest

/-- A nest of a text that begins at `base`. -/
def relocate (base : Position) (nest : Nest) : Nest :=
  ⟨Token.relocateAll base nest.members, nest.around.map (Frame.relocate base)⟩

@[simp] theorem relocate_empty (base : Position) : empty.relocate base = empty := rfl

@[simp] theorem depth_relocate (base : Position) (nest : Nest) :
    (nest.relocate base).depth = nest.depth := by
  simp [depth, relocate]

theorem tokens_relocate (base : Position) (nest : Nest) :
    (nest.relocate base).tokens = Token.relocateAll base nest.tokens := by
  obtain ⟨members, around⟩ := nest
  rw [tokens, tokens, Token.relocateAll_reverse]
  congr 1
  show (around.map (Frame.relocate base)).foldl _ (Token.relocateAll base members) =
    Token.relocateAll base (around.foldl _ members)
  induction around generalizing members with
  | nil => rfl
  | cons frame outer ih =>
      rw [List.map_cons, List.foldl_cons, List.foldl_cons, ← ih, Frame.relocate_close]

theorem unclosed_relocate (base : Position) (nest : Nest) :
    (nest.relocate base).unclosed = nest.unclosed.map (Fault.relocate base) := by
  rw [unclosed, unclosed, relocate, List.map_map, List.map_map]
  rfl

/-- A closer ends the same group, or is complained about in the same way. -/
theorem leave_relocate (base : Position) (nest : Nest) (closer : Delimiter) :
    (nest.relocate base).leave closer =
      match nest.leave closer with
      | .ok outer => .ok (outer.relocate base)
      | .error complaint => .error (complaint.relocate base) := by
  obtain ⟨members, around⟩ := nest
  cases around with
  | nil => rfl
  | cons frame outer =>
      by_cases hcloser : frame.delimiter = closer
      · simp [leave, relocate, Frame.relocate_close, Frame.relocate, hcloser]
      · simp [leave, relocate, Frame.relocate, hcloser, Complaint.relocate, Position.relocate]

section Run

variable {limit : Int} {nest next last : Nest} {position : Position} {span : Span}
  {spans : List Span} {complaints : List Complaint} {faults : List Fault}

/-- The complaints of a span name no line. -/
theorem map_relocate_complaints (base : Position) (h : span.Truthful) :
    span.complaints.map (Complaint.relocate base) = span.complaints := by
  refine (List.map_congr_left ?_).trans (List.map_id _)
  intro complaint hcomplaint
  exact Complaint.relocate_of_isUnmatched_eq_false base (h complaint hcomplaint).matched

/-- A span of a text does the same wherever the text begins. -/
theorem Takes.relocate (h : Takes limit nest position span next complaints)
    (htruthful : span.Truthful) (base : Position) :
    Takes limit (nest.relocate base) (base.relocate position) span (next.relocate base)
      (complaints.map (Complaint.relocate base)) := by
  have hown := map_relocate_complaints base htruthful
  cases h with
  | skipped h => exact hown.symm ▸ .skipped h
  | leaf h => exact hown.symm ▸ .leaf h
  | opener h hdepth =>
      have htakes : Takes limit (nest.relocate base) (base.relocate position) span _ _ :=
        .opener h (by rwa [depth_relocate])
      exact hown.symm ▸ htakes
  | @closer d _ h hleave =>
      have hagain := leave_relocate base nest d
      rw [hleave] at hagain
      exact hown.symm ▸ .closer h hagain
  | @dropped d _ h hleave =>
      have hagain := leave_relocate base nest d
      rw [hleave] at hagain
      rw [List.map_append, hown]
      exact .dropped h hagain

/-- Spans of a text do the same wherever the text begins. -/
theorem Run.relocate (h : Run limit nest position spans last faults)
    (htruthful : ∀ span ∈ spans, span.Truthful) (hline : 1 ≤ position.line) (base : Position) :
    Run limit (nest.relocate base) (base.relocate position) spans (last.relocate base)
      (faults.map (Fault.relocate base)) := by
  induction h with
  | done nest position => exact .done _ _
  | @next _ _ _ position span _ complaints _ first _ ih =>
      obtain ⟨hspan, hrest⟩ := List.forall_mem_cons.1 htruthful
      obtain ⟨hbehind, hline⟩ := Position.relocate_after base hline span.text
      have hothers := ih hrest hline
      rw [hbehind] at hothers
      rw [List.map_append, Fault.map_relocate]
      exact .next (first.relocate hspan base) hothers

/-- A run from the beginning of a text is repeated where the text begins in a longer one. -/
theorem Run.relocate_start (h : Run limit empty .start spans last faults)
    (htruthful : ∀ span ∈ spans, span.Truthful) (base : Position) :
    Run limit empty base spans (last.relocate base) (faults.map (Fault.relocate base)) := by
  have hrun := h.relocate htruthful (Int.le_refl 1) base
  rwa [relocate_empty, Position.relocate_start] at hrun

end Run
end Nest

/-! ## Calls -/

/-- A call reads what is left of the source like a source of its own that begins at its place. -/
theorem Lexer.tokenize_eq_relocate (lexer : Lexer) :
    lexer.tokenize =
      (Token.relocateAll lexer.position (lex lexer.rest lexer.limit).1,
        { lexer with
          rest := (ofSource lexer.rest lexer.limit).tokenize.2.rest
          position :=
            lexer.position.relocate (ofSource lexer.rest lexer.limit).tokenize.2.position
          faults := lexer.faults ++
            (lex lexer.rest lexer.limit).2.map (Fault.relocate lexer.position) }) := by
  have htruthful : ∀ span ∈ Span.all lexer.rest, span.Truthful :=
    fun span hspan => Span.truthful_of_mem_all hspan
  rcases run_or_refused (ofSource lexer.rest lexer.limit) with
    ⟨last, faults, hrun⟩ | ⟨before, d, after, last, faults, hspans, hrun, hdepth⟩
  · have hagain : Nest.Run lexer.limit .empty lexer.position (Span.all lexer.rest) _ _ :=
      hrun.relocate_start htruthful lexer.position
    rw [tokenize_of_run hagain, lex, tokenize_of_run hrun]
    simp [ofSource, Nest.tokens_relocate, Nest.unclosed_relocate, Position.relocate_start_after]
  · have hall : Span.all lexer.rest = before ++ ⟨[d.opening], .opener d, []⟩ :: after := hspans
    have hbefore : ∀ span ∈ before, span.Truthful := by
      intro span hspan
      apply htruthful
      rw [hall]
      exact List.mem_append_left _ hspan
    have hagain : Nest.Run lexer.limit .empty lexer.position before _ _ :=
      hrun.relocate_start hbefore lexer.position
    have hdeep : lexer.limit ≤ (last.relocate lexer.position).depth := by
      rw [Nest.depth_relocate]
      exact hdepth
    rw [tokenize_of_refused hall hagain hdeep, lex, tokenize_of_refused hspans hrun hdepth]
    have hline := congrArg Position.line
      (Position.relocate_start_after lexer.position (Span.textOf before))
    simp [ofSource, Nest.tokens_relocate, ← Position.after_append,
      Position.relocate_start_after, Fault.relocate, Complaint.relocate]
    exact hline.symm

end RealtimeApp
