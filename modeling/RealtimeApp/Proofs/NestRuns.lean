import RealtimeApp.Proofs.Complaints
import RealtimeApp.Proofs.Relexing

/-!
# Runs of a nest

What one span makes of a nest (`Nest.Takes`), and what spans make of it one after another
(`Nest.Run`).  The limit on nesting shows at openers only: everything else is taken under any limit
(`Nest.Takes.under`).  A reading runs over all of its spans, or up to an opener that the limit
refuses, so one call of a lexer ends in one of two ways (`Lexer.run_or_refused`).
-/

namespace RealtimeApp

namespace Span

@[simp] theorem textOf_nil : textOf [] = [] := rfl

@[simp] theorem textOf_cons (span : Span) (rest : List Span) :
    textOf (span :: rest) = span.text ++ textOf rest := rfl

@[simp] theorem textOf_append (before after : List Span) :
    textOf (before ++ after) = textOf before ++ textOf after :=
  List.flatMap_append

end Span

namespace Nest

/-! ## One span -/

/-- What a span makes of a nest, short of an opener beyond the limit, and what there is to complain
about. -/
inductive Takes (limit : Int) (nest : Nest) (position : Position) (span : Span) :
    Nest → List Complaint → Prop
  | skipped (h : span.content = .skipped) : Takes limit nest position span nest span.complaints
  | leaf {kind : LeafKind} {literal : Option Literal} {suffix : Bytes}
      (h : span.content = .leaf kind literal suffix) :
      Takes limit nest position span
        (nest.push (.leaf ⟨kind, span.text, literal, suffix, position⟩)) span.complaints
  | opener {d : Delimiter} (h : span.content = .opener d) (hdepth : nest.depth < limit) :
      Takes limit nest position span (nest.enter d position) span.complaints
  | closer {d : Delimiter} {outer : Nest} (h : span.content = .closer d)
      (hleave : nest.leave d = .ok outer) :
      Takes limit nest position span outer span.complaints
  | dropped {d : Delimiter} {complaint : Complaint} (h : span.content = .closer d)
      (hleave : nest.leave d = .error complaint) :
      Takes limit nest position span nest (span.complaints ++ [complaint])

section Takes

variable {limit other : Int} {nest next : Nest} {position : Position} {span : Span}
  {complaints : List Complaint}

/-- A reading goes on with what the first span makes of the nest. -/
theorem Takes.read_cons (h : Takes limit nest position span next complaints) (rest : List Span) :
    read limit nest position (span :: rest) =
      (read limit next (position.after span.text) rest).withFaults
        (complaints.map (Fault.mk position.line)) := by
  cases h with
  | skipped h => exact read_skipped h
  | leaf h => exact read_leaf h
  | opener h hdepth => exact read_opener h hdepth
  | closer h hleave => exact read_closer h hleave
  | dropped h hleave =>
      rw [read_closer_error h hleave, List.map_append]
      rfl

/-- A span is taken, or it is an opener beyond the limit. -/
theorem takes_or_refused (limit : Int) (nest : Nest) (position : Position) (span : Span) :
    (∃ next complaints, Takes limit nest position span next complaints) ∨
      ∃ d, span.content = .opener d ∧ limit ≤ nest.depth := by
  cases hcontent : span.content with
  | skipped => exact .inl ⟨_, _, .skipped hcontent⟩
  | leaf kind literal suffix => exact .inl ⟨_, _, .leaf hcontent⟩
  | opener d =>
      rcases Int.lt_or_le (nest.depth : Int) limit with hdepth | hdepth
      · exact .inl ⟨_, _, .opener hcontent hdepth⟩
      · exact .inr ⟨d, rfl, hdepth⟩
  | closer d =>
      cases hleave : nest.leave d with
      | ok outer => exact .inl ⟨_, _, .closer hcontent hleave⟩
      | error complaint => exact .inl ⟨_, _, .dropped hcontent hleave⟩

/-- A closer is dropped where no group is open, or where it does not fit the innermost one. -/
theorem leave_eq_error {d : Delimiter} {complaint : Complaint}
    (h : nest.leave d = .error complaint) :
    complaint = .strayCloser d ∨ ∃ frame outer, nest.around = frame :: outer ∧
      complaint = .mismatchedCloser d frame.delimiter frame.position.line := by
  obtain ⟨members, around⟩ := nest
  cases around with
  | nil =>
      cases h
      exact .inl rfl
  | cons frame outer =>
      by_cases hcloser : frame.delimiter = d
      · simp [leave, hcloser] at h
      · simp only [leave, if_neg hcloser, Except.error.injEq] at h
        exact .inr ⟨frame, outer, rfl, h.symm⟩

/-- A closer ends a group as the end of the source would. -/
theorem tokens_leave {nest outer : Nest} {d : Delimiter} (h : nest.leave d = .ok outer) :
    outer.tokens = nest.tokens := by
  obtain ⟨frame, haround, -, hmembers⟩ := leave_eq_ok h
  rw [tokens, tokens, haround, hmembers, List.foldl_cons]

/-- Only an opener feels the limit. -/
theorem Takes.under (h : Takes limit nest position span next complaints)
    (hopener : ∀ d, span.content = .opener d → nest.depth < other) :
    Takes other nest position span next complaints := by
  cases h with
  | skipped h => exact .skipped h
  | leaf h => exact .leaf h
  | opener h _ => exact .opener h (hopener _ h)
  | closer h hleave => exact .closer h hleave
  | dropped h hleave => exact .dropped h hleave

/-- One span opens one group at most. -/
theorem Takes.depth_le (h : Takes limit nest position span next complaints) :
    next.depth ≤ nest.depth + 1 := by
  cases h with
  | skipped _ | leaf _ | dropped _ _ => exact Nat.le_succ _
  | opener _ _ => exact Nat.le_refl _
  | closer _ hleave =>
      have hdepth := depth_leave hleave
      omega

end Takes

/-! ## Spans one after another -/

/-- Spans that are all taken, one after another, and the faults found on the way. -/
inductive Run (limit : Int) : Nest → Position → List Span → Nest → List Fault → Prop
  | done (nest : Nest) (position : Position) : Run limit nest position [] nest []
  | next {nest next last : Nest} {position : Position} {span : Span} {rest : List Span}
      {complaints : List Complaint} {faults : List Fault}
      (first : Takes limit nest position span next complaints)
      (others : Run limit next (position.after span.text) rest last faults) :
      Run limit nest position (span :: rest) last
        (complaints.map (Fault.mk position.line) ++ faults)

section Run

variable {limit other : Int} {nest last : Nest} {position : Position} {spans : List Span}
  {faults : List Fault}

/-- A reading goes on with what a run over its first spans leaves. -/
theorem Run.read_append (h : Run limit nest position spans last faults) (rest : List Span) :
    read limit nest position (spans ++ rest) =
      (read limit last (position.after (Span.textOf spans)) rest).withFaults faults := by
  induction h with
  | done nest position => rfl
  | next first others ih =>
      rw [List.cons_append, first.read_cons, ih, Reading.withFaults_withFaults, Span.textOf_cons,
        Position.after_append]

/-- A reading of spans that are all taken. -/
theorem Run.read_eq (h : Run limit nest position spans last faults) :
    read limit nest position spans =
      ⟨last, faults, position.after (Span.textOf spans), [], false⟩ := by
  have hread := h.read_append []
  rw [List.append_nil, read_nil] at hread
  rw [hread, Reading.withFaults, List.append_nil]

theorem Run.append {mid : Nest} {more : List Span} {others : List Fault}
    (h : Run limit nest position spans mid faults)
    (hmore : Run limit mid (position.after (Span.textOf spans)) more last others) :
    Run limit nest position (spans ++ more) last (faults ++ others) := by
  induction h with
  | done nest position => exact hmore
  | next first _ ih =>
      rw [List.cons_append, List.append_assoc]
      refine .next first (ih ?_)
      rwa [Span.textOf_cons, Position.after_append] at hmore

/-- A run passes every place between its spans. -/
theorem Run.split {before after : List Span}
    (h : Run limit nest position (before ++ after) last faults) :
    ∃ mid early late, Run limit nest position before mid early ∧
      Run limit mid (position.after (Span.textOf before)) after last late ∧
      faults = early ++ late := by
  induction before generalizing nest position faults with
  | nil => exact ⟨nest, [], faults, .done _ _, h, rfl⟩
  | cons span before ih =>
      cases h with
      | next first others =>
          obtain ⟨mid, early, late, hbefore, hafter, rfl⟩ := ih others
          refine ⟨mid, _, late, .next first hbefore, ?_, (List.append_assoc _ _ _).symm⟩
          rwa [Span.textOf_cons, Position.after_append]

theorem Run.depth_le (h : Run limit nest position spans last faults) :
    last.depth ≤ nest.depth + spans.length := by
  induction h with
  | done nest position => exact Nat.le_refl _
  | next first _ ih =>
      have hfirst := first.depth_le
      rw [List.length_cons]
      omega

/-- Spans are all taken, or the first ones up to an opener beyond the limit. -/
theorem run_or_refused (limit : Int) (spans : List Span) : ∀ nest position,
    (∃ last faults, Run limit nest position spans last faults) ∨
      ∃ before span after d last faults, spans = before ++ span :: after ∧
        span.content = .opener d ∧ Run limit nest position before last faults ∧
        limit ≤ last.depth := by
  induction spans with
  | nil =>
      intro nest position
      exact .inl ⟨nest, [], .done nest position⟩
  | cons span rest ih =>
      intro nest position
      rcases takes_or_refused limit nest position span with
        ⟨next, complaints, hfirst⟩ | ⟨d, hopener, hdepth⟩
      · rcases ih next (position.after span.text) with
          ⟨last, faults, hothers⟩ |
            ⟨before, refused, after, d, last, faults, rfl, hopener, hothers, hdepth⟩
        · exact .inl ⟨last, _, .next hfirst hothers⟩
        · exact .inr ⟨span :: before, refused, after, d, last, _, rfl, hopener,
            .next hfirst hothers, hdepth⟩
      · exact .inr ⟨[], span, rest, d, nest, [], rfl, hopener, .done nest position, hdepth⟩

end Run
end Nest

/-! ## One call of a lexer -/

namespace Lexer

section Tokenize

variable {lexer : Lexer} {last : Nest} {faults : List Fault}

/-- A call that takes all spans comes to the end of the source and complains about every group that
is open there. -/
theorem tokenize_of_run
    (run : Nest.Run lexer.limit .empty lexer.position (Span.all lexer.rest) last faults) :
    lexer.tokenize = (last.tokens,
      { lexer with
        rest := []
        position := lexer.position.after lexer.rest
        faults := lexer.faults ++ (faults ++ last.unclosed) }) := by
  rw [tokenize, run.read_eq, Span.textOf_all]
  rfl

/-- A call that meets an opener beyond the limit stops right behind it. -/
theorem tokenize_of_refused {before after : List Span} {d : Delimiter}
    (spans : Span.all lexer.rest = before ++ ⟨[d.opening], .opener d, []⟩ :: after)
    (run : Nest.Run lexer.limit .empty lexer.position before last faults)
    (depth : lexer.limit ≤ last.depth) :
    lexer.tokenize = (last.tokens,
      { lexer with
        rest := Span.textOf after
        position := (lexer.position.after (Span.textOf before)).after [d.opening]
        faults := lexer.faults ++ (faults ++
          [⟨(lexer.position.after (Span.textOf before)).line, .tooDeep lexer.limit⟩]) }) := by
  rw [tokenize, spans, run.read_append, Nest.read_opener_tooDeep rfl depth]
  simp [Reading.withFaults, Reading.unclosed]

/-- A call takes all spans, or those before the first opener that the limit refuses. -/
theorem run_or_refused (lexer : Lexer) :
    (∃ last faults,
      Nest.Run lexer.limit .empty lexer.position (Span.all lexer.rest) last faults) ∨
    ∃ before d after last faults,
      Span.all lexer.rest = before ++ ⟨[d.opening], .opener d, []⟩ :: after ∧
      Nest.Run lexer.limit .empty lexer.position before last faults ∧
      lexer.limit ≤ last.depth := by
  rcases Nest.run_or_refused lexer.limit (Span.all lexer.rest) .empty lexer.position with
    hrun | ⟨before, span, after, d, last, faults, hspans, hopener, hrun, hdepth⟩
  · exact .inl hrun
  · have hmem : span ∈ Span.all lexer.rest := by simp [hspans]
    have hspan := (Span.delimited_of_mem_all hmem).opener d hopener
    exact .inr ⟨before, d, after, last, faults, hspan ▸ hspans, hrun, hdepth⟩

end Tokenize
end Lexer

/-- What a run over all spans of a source says about the source. -/
theorem lex_of_run {source : Bytes} {limit : Int} {last : Nest} {faults : List Fault}
    (run : Nest.Run limit .empty .start (Span.all source) last faults) :
    lex source limit = (last.tokens, faults ++ last.unclosed) := by
  rw [lex, Lexer.tokenize_of_run run]
  rfl

/-- A source without a fault about the limit on nesting has all of its spans taken. -/
theorem exists_run_of_isTooDeep_eq_false {source : Bytes} {limit : Int}
    (h : ∀ fault ∈ (lex source limit).2, fault.complaint.isTooDeep = false) :
    ∃ last faults, Nest.Run limit .empty .start (Span.all source) last faults := by
  rcases Lexer.run_or_refused (.ofSource source limit) with
    hrun | ⟨before, d, after, last, faults, hspans, hrun, hdepth⟩
  · exact hrun
  · have hcall := Lexer.tokenize_of_refused hspans hrun hdepth
    have hdeep := h ⟨((Lexer.ofSource source limit).position.after (Span.textOf before)).line,
      .tooDeep limit⟩ (by rw [lex, hcall]; simp [Lexer.ofSource])
    cases hdeep

end RealtimeApp
