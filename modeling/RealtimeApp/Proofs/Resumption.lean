import RealtimeApp.Proofs.Relocation
import RealtimeApp.Proofs.Rescanning
import RealtimeApp.Proofs.TruthfulPlaces

/-!
# Calls go on where the one before stopped

A call reads the first spans that are left, at least one if there is any, and leaves the others to
the next call (`Lexer.all_rest`).  What it makes of them depends on those spans alone
(`Lexer.tokenize_eq_read`), and it is what a new lexer makes of the bytes that are left, but for the
place that lines and columns are counted from (`Lexer.tokenize_resumes`).
-/

namespace RealtimeApp
namespace Lexer

/-! ## The spans of a call -/

/-- The spans that a call reads, with the opener beyond the limit if one ends it. -/
def readSpans (lexer : Lexer) : List Span :=
  (Span.all lexer.rest).take
    ((Span.all lexer.rest).length - (Span.all lexer.tokenize.2.rest).length)

theorem readSpans_eq {lexer : Lexer} {spans : List Span}
    (h : Span.all lexer.rest = spans ++ Span.all lexer.tokenize.2.rest) :
    lexer.readSpans = spans := by
  rw [readSpans, h]
  simp

/-- A call reads spans, leaves the others, and finds all that it finds in those it reads. -/
structure ReadsOnly (lexer : Lexer) (spans : List Span) : Prop where
  all_rest : Span.all lexer.rest = spans ++ Span.all lexer.tokenize.2.rest
  rest : (Nest.empty.read lexer.limit lexer.position spans).rest = []
  tokens : lexer.tokenize.1 = (Nest.empty.read lexer.limit lexer.position spans).nest.tokens
  position : lexer.tokenize.2.position = lexer.position.after (Span.textOf spans)
  faults : lexer.tokenize.2.faults = lexer.faults ++
    ((Nest.empty.read lexer.limit lexer.position spans).faults ++
      (Nest.empty.read lexer.limit lexer.position spans).unclosed)

theorem readsOnly_readSpans (lexer : Lexer) : lexer.ReadsOnly lexer.readSpans := by
  rcases run_or_refused lexer with
    ⟨last, faults, hrun⟩ | ⟨before, d, after, last, faults, hspans, hrun, hdepth⟩
  · have hcall := tokenize_of_run hrun
    have hall : Span.all lexer.rest = Span.all lexer.rest ++ Span.all lexer.tokenize.2.rest := by
      rw [hcall, Span.all_nil, List.append_nil]
    rw [readSpans_eq hall]
    constructor
    case all_rest => exact hall
    case position => rw [hcall, Span.textOf_all]
    all_goals rw [hrun.read_eq]
    case tokens => rw [hcall]
    case faults =>
      rw [hcall]
      rfl
  · -- the opener beyond the limit is the last span that is read
    have hcall := tokenize_of_refused hspans hrun hdepth
    have hsplit : Span.all lexer.rest = (before ++ [⟨[d.opening], .opener d, []⟩]) ++ after := by
      rw [hspans, List.append_assoc]
      rfl
    have hall : Span.all lexer.rest =
        (before ++ [⟨[d.opening], .opener d, []⟩]) ++ Span.all lexer.tokenize.2.rest := by
      rw [hcall, Span.all_textOf_of_append hsplit]
      exact hsplit
    have hread := hrun.read_append [⟨[d.opening], .opener d, []⟩]
    rw [Nest.read_opener_tooDeep rfl hdepth] at hread
    rw [readSpans_eq hall]
    constructor
    case all_rest => exact hall
    case position =>
      rw [hcall]
      simp
    all_goals rw [hread]
    case rest => rfl
    case tokens =>
      rw [hcall]
      rfl
    case faults =>
      rw [hcall]
      simp [Reading.withFaults, Reading.unclosed]

theorem rest_eq (lexer : Lexer) :
    lexer.rest = Span.textOf lexer.readSpans ++ lexer.tokenize.2.rest := by
  have htext := congrArg Span.textOf (readsOnly_readSpans lexer).all_rest
  rwa [Span.textOf_append, Span.textOf_all, Span.textOf_all] at htext

/-- Where a byte is left, a call reads one. -/
theorem textOf_readSpans_ne_nil {lexer : Lexer} (h : lexer.rest ≠ []) :
    Span.textOf lexer.readSpans ≠ [] := by
  rcases run_or_refused lexer with
    ⟨last, faults, hrun⟩ | ⟨before, d, after, last, faults, hspans, hrun, hdepth⟩
  · have hrest := rest_eq lexer
    rw [tokenize_of_run hrun, List.append_nil] at hrest
    rwa [← hrest]
  · intro hnone
    have hrest := rest_eq lexer
    have hall := Span.textOf_all lexer.rest
    rw [tokenize_of_refused hspans hrun hdepth, hnone] at hrest
    rw [hspans, Span.textOf_append, Span.textOf_cons, hrest] at hall
    have hlength := congrArg List.length hall
    simp only [List.length_append, List.length_cons, List.nil_append] at hlength
    omega

/-! ## One call after another -/

section Calls

variable (source : Bytes) (limit : Int) (calls : Nat)

/-- The offset that a lexer goes on at behind a number of calls. -/
def stop : Nat := source.length - (afterCalls source limit calls).rest.length

/-- The bytes that the next call reads, behind a number of calls. -/
def bytesRead : Bytes := Span.textOf (afterCalls source limit calls).readSpans

theorem rest_afterCalls :
    (afterCalls source limit calls).rest =
      bytesRead source limit calls ++ (afterCalls source limit (calls + 1)).rest :=
  rest_eq _

theorem rest_suffix : (afterCalls source limit calls).rest <:+ source := by
  induction calls with
  | zero => exact List.suffix_refl source
  | succ calls ih =>
      have hrest := rest_afterCalls source limit calls
      exact (List.suffix_append _ _).trans (hrest ▸ ih)

theorem stop_zero : stop source limit 0 = 0 := Nat.sub_self _

theorem stop_add_length_rest :
    stop source limit calls + (afterCalls source limit calls).rest.length = source.length :=
  Nat.sub_add_cancel (rest_suffix source limit calls).length_le

theorem stop_succ :
    stop source limit (calls + 1) =
      stop source limit calls + (bytesRead source limit calls).length := by
  have hhere := stop_add_length_rest source limit calls
  have hnext := stop_add_length_rest source limit (calls + 1)
  have hrest := congrArg List.length (rest_afterCalls source limit calls)
  rw [List.length_append] at hrest
  omega

/-- A lexer knows the place that it goes on at. -/
theorem leavesAt_stop :
    LeavesAt source (afterCalls source limit calls) (stop source limit calls) := by
  induction calls with
  | zero =>
      rw [stop_zero]
      exact leavesAt_ofSource source limit
  | succ calls ih =>
      have hreads := readsOnly_readSpans (afterCalls source limit calls)
      have hbehind := @LeavesAt.behind _ _ _ _ _ [] ih (rest_afterCalls source limit calls)
      rw [← stop_succ] at hbehind
      constructor
      · exact hbehind.rest
      · rw [← hbehind.position]
        exact hreads.position

theorem limit_afterCalls : (afterCalls source limit calls).limit = limit := by
  induction calls with
  | zero => rfl
  | succ calls ih => exact ih

/-- The calls so far have read the bytes before their stop, one behind the other. -/
theorem flatMap_bytesRead :
    (List.range calls).flatMap (bytesRead source limit) =
      source.take (stop source limit calls) := by
  induction calls with
  | zero => rw [stop_zero, List.take_zero, List.range_zero, List.flatMap_nil]
  | succ calls ih =>
      have hdrop := (leavesAt_stop source limit calls).rest
      rw [rest_afterCalls] at hdrop
      rw [List.range_succ, List.flatMap_append, ih, stop_succ, List.take_add, ← hdrop,
        List.take_left, List.flatMap_singleton]

/-- As long as a byte is left, a call goes on by one at least. -/
theorem stop_lt_stop_succ (h : stop source limit calls < source.length) :
    stop source limit calls < stop source limit (calls + 1) := by
  have hlength := stop_add_length_rest source limit calls
  have hrest : (afterCalls source limit calls).rest ≠ [] := by
    intro hnone
    rw [hnone, List.length_nil] at hlength
    omega
  have hread : 0 < (bytesRead source limit calls).length :=
    List.length_pos_iff.2 (textOf_readSpans_ne_nil hrest)
  rw [stop_succ]
  omega

theorem min_le_stop : min calls source.length ≤ stop source limit calls := by
  induction calls with
  | zero => exact Nat.le_trans (Nat.min_le_left _ _) (Nat.zero_le _)
  | succ calls ih =>
      have hbound := stop_add_length_rest source limit calls
      have hnext := stop_succ source limit calls
      by_cases hleft : stop source limit calls < source.length
      · have hstep := stop_lt_stop_succ source limit calls hleft
        omega
      · omega

/-- Behind the end there is nothing to read or to complain about. -/
theorem tokenize_of_rest_eq_nil {lexer : Lexer} (h : lexer.rest = []) :
    lexer.tokenize = ([], lexer) := by
  obtain ⟨rest, position, limit, faults⟩ := lexer
  obtain rfl : rest = [] := h
  simp [tokenize, Nest.read_nil, Nest.tokens, Nest.empty, Reading.unclosed, Nest.unclosed]

end Calls

/-- What the next call does with a source behind a number of calls. -/
structure Resumes (source : Bytes) (limit : Int) (calls : Nat) : Prop where
  /-- It begins where the one before stopped, and knows the place. -/
  begins : LeavesAt source (afterCalls source limit calls) (stop source limit calls)
  /-- Its tokens are those of a new lexer for the bytes that are left, seen from that place. -/
  tokens : (afterCalls source limit calls).tokenize.1 =
    Token.relocateAll (placeAt source (stop source limit calls))
      (lex (source.drop (stop source limit calls)) limit).1
  /-- Its faults are those of that lexer, seen from that place, behind the faults so far. -/
  faults : (afterCalls source limit (calls + 1)).faults =
    (afterCalls source limit calls).faults ++
      (lex (source.drop (stop source limit calls)) limit).2.map
        (Fault.relocate (placeAt source (stop source limit calls)))
  /-- It stops where that lexer stops. -/
  stops : stop source limit (calls + 1) =
    stop source limit calls + stop (source.drop (stop source limit calls)) limit 1
  /-- All that it finds is in the spans that it reads. -/
  reads : (afterCalls source limit calls).ReadsOnly (afterCalls source limit calls).readSpans
  /-- The calls before it have read every byte in front of it, one behind the other. -/
  read : (List.range calls).flatMap (bytesRead source limit) =
    source.take (stop source limit calls)
  /-- It reads at least one byte, or it stands at the end. -/
  progress : stop source limit calls < source.length →
    stop source limit calls < stop source limit (calls + 1)
  /-- As many calls as there are bytes are enough to come to the end. -/
  finished : source.length ≤ calls → stop source limit calls = source.length
  /-- At the end it changes nothing. -/
  idle : stop source limit calls = source.length →
    (afterCalls source limit calls).tokenize = ([], afterCalls source limit calls)

/-- Reading can be resumed, whatever the source, its faults, the limit on nesting and the number of
calls: each call does what a new lexer does with the bytes that are left, but for the place that
lines and columns are counted from; no byte is read twice or skipped; and the end is reached. -/
theorem tokenize_resumes (source : Bytes) (limit : Int) (calls : Nat) :
    Resumes source limit calls := by
  have hleaves := leavesAt_stop source limit calls
  have hcall := tokenize_eq_relocate (afterCalls source limit calls)
  have hlimit := limit_afterCalls source limit calls
  rw [hleaves.rest, hleaves.position, hlimit] at hcall
  constructor
  case begins => exact hleaves
  case tokens => rw [hcall]
  case faults =>
    rw [afterCalls, hcall]
  case stops =>
    have hrest : (afterCalls source limit (calls + 1)).rest =
        (afterCalls (source.drop (stop source limit calls)) limit 1).rest := by
      rw [afterCalls, hcall]
      rfl
    have hhere := stop_add_length_rest source limit calls
    have hnext := stop_add_length_rest source limit (calls + 1)
    have hfresh := stop_add_length_rest (source.drop (stop source limit calls)) limit 1
    rw [← hrest, List.length_drop] at hfresh
    omega
  case reads => exact readsOnly_readSpans _
  case read => exact flatMap_bytesRead source limit calls
  case progress => exact stop_lt_stop_succ source limit calls
  case finished =>
    intro henough
    have hbound := stop_add_length_rest source limit calls
    have hmin := min_le_stop source limit calls
    omega
  case idle =>
    intro hend
    apply tokenize_of_rest_eq_nil
    rw [hleaves.rest, hend, List.drop_length]

end Lexer
end RealtimeApp
