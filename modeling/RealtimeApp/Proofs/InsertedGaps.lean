import RealtimeApp.Proofs.Rescanning

/-!
# Layout is insignificant

A gap that begins with a blank can be inserted before or behind any leaf, opener or closer of a
source.  The blank is a boundary, so no span before it changes (`Span.all_inserted`), and what is
read behind the gap differs from what was read before in places only (`Nest.Run.alike`): the tokens
are the same and are decoded alike (`lex_inserted`).
-/

namespace RealtimeApp

/-! ## Nests that agree up to places -/

theorem Token.unplacedAll_reverse (ts : List Token) :
    unplacedAll ts.reverse = (unplacedAll ts).reverse := by
  rw [unplacedAll_eq_map, unplacedAll_eq_map, List.map_reverse]

/-- An open group without places. -/
def Frame.unplaced (frame : Frame) : Frame :=
  ⟨frame.delimiter, Token.nowhere, Token.unplacedAll frame.before⟩

theorem Frame.unplaced_close (frame : Frame) (members : List Token) :
    Token.unplacedAll (frame.close members) = frame.unplaced.close (Token.unplacedAll members) := by
  rw [close, close, Token.unplacedAll, Token.unplaced, Token.unplacedAll_reverse]
  rfl

namespace Nest

/-- A nest without places. -/
def unplaced (nest : Nest) : Nest :=
  ⟨Token.unplacedAll nest.members, nest.around.map Frame.unplaced⟩

theorem unplacedAll_tokens (nest : Nest) :
    Token.unplacedAll nest.tokens = nest.unplaced.tokens := by
  obtain ⟨members, around⟩ := nest
  rw [tokens, tokens, Token.unplacedAll_reverse]
  congr 1
  show Token.unplacedAll (around.foldl _ members) =
    (around.map Frame.unplaced).foldl _ (Token.unplacedAll members)
  induction around generalizing members with
  | nil => rfl
  | cons frame outer ih =>
      rw [List.foldl_cons, List.map_cons, List.foldl_cons, ih, Frame.unplaced_close]

section Alike

variable {limit : Int} {nest next last other : Nest} {position : Position} {span : Span}
  {spans : List Span} {complaints : List Complaint} {faults : List Fault}

theorem depth_eq_of_unplaced_eq (h : nest.unplaced = other.unplaced) :
    nest.depth = other.depth := by
  have haround := congrArg (fun nest => nest.around.length) h
  simpa [unplaced, depth] using haround

/-- A closer that fits one of two nests which agree up to places fits the other one. -/
theorem leave_of_unplaced_eq {d : Delimiter} {outer : Nest} (h : nest.unplaced = other.unplaced)
    (hleave : nest.leave d = .ok outer) :
    ∃ again, other.leave d = .ok again ∧ outer.unplaced = again.unplaced := by
  obtain ⟨frame, haround, hdelimiter, hmembers⟩ := leave_eq_ok hleave
  obtain ⟨members, around⟩ := other
  rw [unplaced, unplaced, Nest.mk.injEq, haround, List.map_cons] at h
  obtain ⟨hunplaced, hframes⟩ := h
  obtain ⟨copy, frames, rfl, hframe, houter⟩ := List.map_eq_cons_iff.1 hframes.symm
  have hdelimiters := congrArg Frame.delimiter hframe
  have hcopy : copy.delimiter = d := hdelimiters.trans hdelimiter
  refine ⟨⟨copy.close members, frames⟩, if_pos hcopy, ?_⟩
  rw [unplaced, unplaced, hmembers, Frame.unplaced_close, Frame.unplaced_close, hframe, houter,
    hunplaced]

/-- Nests that agree up to places agree when both have taken a span without a complaint, wherever
it stands. -/
theorem Takes.alike (h : Takes limit nest position span next complaints)
    (hnone : complaints = []) (halike : nest.unplaced = other.unplaced) (place : Position) :
    ∃ again, Takes limit other place span again [] ∧ next.unplaced = again.unplaced := by
  have halikes := halike
  rw [unplaced, unplaced, Nest.mk.injEq] at halikes
  cases h with
  | skipped h => exact ⟨other, hnone ▸ .skipped h, halike⟩
  | leaf h =>
      have htakes : Takes limit other place span _ span.complaints := .leaf h
      refine ⟨_, hnone ▸ htakes, ?_⟩
      rw [unplaced, unplaced, push, push, Token.unplacedAll, Token.unplacedAll, halikes.1,
        halikes.2]
      rfl
  | @opener d h hdepth =>
      rw [depth_eq_of_unplaced_eq halike] at hdepth
      have htakes : Takes limit other place span _ span.complaints := .opener h hdepth
      refine ⟨_, hnone ▸ htakes, ?_⟩
      rw [unplaced, unplaced, enter, enter, List.map_cons, List.map_cons, halikes.2,
        Frame.unplaced, Frame.unplaced, halikes.1]
  | closer h hleave =>
      obtain ⟨again, hagain, houter⟩ := leave_of_unplaced_eq halike hleave
      exact ⟨again, hnone ▸ .closer h hagain, houter⟩
  | dropped h hleave => simp at hnone

/-- A run without faults is repeated from any place by a nest that agrees up to places. -/
theorem Run.alike (h : Run limit nest position spans last faults) (hnone : faults = [])
    (halike : nest.unplaced = other.unplaced) (place : Position) :
    ∃ again, Run limit other place spans again [] ∧ last.unplaced = again.unplaced := by
  induction h generalizing other place with
  | done nest position => exact ⟨other, .done other place, halike⟩
  | @next _ _ _ _ span _ _ _ first _ ih =>
      obtain ⟨hfirst, hothers⟩ := List.append_eq_nil_iff.1 hnone
      obtain ⟨mid, htakes, hmid⟩ := first.alike (List.map_eq_nil_iff.1 hfirst) halike place
      obtain ⟨again, hrun, hagain⟩ := ih hothers hmid (place.after span.text)
      exact ⟨again, .next htakes hrun, hagain⟩

/-- Nothing comes of spans that stand for nothing. -/
theorem run_idle (limit : Int) (nest : Nest) (position : Position)
    (h : ∀ span ∈ spans, span.IsIdle) : Run limit nest position spans nest [] := by
  induction spans generalizing position with
  | nil => exact .done nest position
  | cons span rest ih =>
      obtain ⟨⟨hcontent, hcomplaints⟩, hrest⟩ := List.forall_mem_cons.1 h
      have htakes : Takes limit nest position span nest [] := hcomplaints ▸ .skipped hcontent
      exact .next htakes (ih _ hrest)

end Alike
end Nest

/-! ## Gaps between lexemes -/

/-- A text with another one inserted at an offset. -/
def inserted (text : Bytes) (offset : Nat) (more : Bytes) : Bytes :=
  text.take offset ++ (more ++ text.drop offset)

/-- The offset is the beginning or the end of a leaf, an opener or a closer of the source. -/
inductive IsEdge (source : Bytes) (offset : Nat) : Prop
  | start {before after : List Span} {span : Span}
      (all_eq : Span.all source = before ++ span :: after) (content : span.content ≠ .skipped)
      (offset_eq : offset = (Span.textOf before).length)
  | finish {before after : List Span} {span : Span}
      (all_eq : Span.all source = before ++ span :: after) (content : span.content ≠ .skipped)
      (offset_eq : offset = (Span.textOf before ++ span.text).length)

/-- A leaf, an opener or a closer does not begin with the end of a line. -/
theorem Span.not_stops_of_content_ne_skipped {source : Bytes} {before after : List Span}
    {span : Span} (h : all source = before ++ span :: after) (hcontent : span.content ≠ .skipped) :
    ¬Stops (· != Byte.newline) (textOf (span :: after)) := by
  have hrest := all_textOf_of_append h
  intro hstops
  cases htext : textOf (span :: after) with
  | nil =>
      rw [htext, all_nil] at hrest
      cases hrest
  | cons b more =>
      rw [htext] at hrest hstops
      obtain rfl : b = Byte.newline := by simpa using stops_cons.1 hstops
      rw [all_newline, List.cons.injEq] at hrest
      exact hcontent (by rw [← hrest.1]; rfl)

/-- The spans of a source before and behind an edge: no comment up to the end of a line stands right
before it. -/
theorem IsEdge.exists_split {source : Bytes} {offset : Nat} (h : IsEdge source offset) :
    ∃ before after, Span.all source = before ++ after ∧
      source.take offset = Span.textOf before ∧ source.drop offset = Span.textOf after ∧
      ∀ span ∈ before.getLast?, span.content = .skipped →
        ¬Stops (· != Byte.newline) (Span.textOf after) := by
  have hsource := Span.textOf_all source
  cases h with
  | @start before after span hall hcontent hoffset =>
      rw [hall, Span.textOf_append] at hsource
      refine ⟨before, span :: after, hall, ?_, ?_, ?_⟩
      · rw [← hsource, hoffset, List.take_left]
      · rw [← hsource, hoffset, List.drop_left]
      · intro _ _ _
        exact Span.not_stops_of_content_ne_skipped hall hcontent
  | @finish before after span hall hcontent hoffset =>
      rw [hall, Span.textOf_append, Span.textOf_cons, ← List.append_assoc] at hsource
      refine ⟨before ++ [span], after, ?_, ?_, ?_, ?_⟩
      · rw [hall, List.append_assoc]
        rfl
      · rw [← hsource, hoffset, List.take_left, Span.textOf_append]
        simp
      · rw [← hsource, hoffset, List.drop_left]
      · intro last hlast hskipped
        obtain rfl : span = last := by simpa using hlast
        exact absurd hskipped hcontent

/-- The spans of a source with a gap inserted at an edge are those of the source, with spans that
stand for nothing in between. -/
theorem Span.all_inserted {source gap : Bytes} {before after : List Span} {b : UInt8}
    (hall : all source = before ++ after) (hspans : ∀ span ∈ before, span.complaints = [])
    (hlast : ∀ span ∈ before.getLast?, span.content = .skipped →
      ¬Stops (· != Byte.newline) (textOf after))
    (hb : Byte.isBlank b = true) (hgap : IsGap (b :: gap)) :
    ∃ idle, all (textOf before ++ (b :: gap ++ textOf after)) = before ++ (idle ++ after) ∧
      ∀ span ∈ idle, span.IsIdle := by
  obtain ⟨idle, hidle, hspansIdle⟩ := all_gap hgap (textOf after)
  rw [all_textOf_of_append hall] at hidle
  have hbounded : Bounded (b :: gap ++ textOf after) :=
    bounded_cons.2 (by simp [Byte.isBoundary, hb])
  refine ⟨idle, ?_, hspansIdle⟩
  rw [all_append_swap hall hspans (hbounded.likeToBoundary _), hidle]
  exact fun span hspan hskipped hstops => absurd hstops (hlast span hspan hskipped)

/-- Layout is insignificant.  A source without faults stays one, under the same limit on nesting,
when blanks and comments that begin with a blank are inserted at the beginning or at the end of a
leaf, an opener or a closer, and it is read as tokens that are the same and are decoded alike. -/
theorem lex_inserted {source gap : Bytes} {limit : Int} {offset : Nat} {b : UInt8}
    (h : (lex source limit).2 = []) (hedge : IsEdge source offset)
    (hb : Byte.isBlank b = true) (hgap : IsGap (b :: gap)) :
    (lex (inserted source offset (b :: gap)) limit).2 = [] ∧
      Token.sameAll (lex (inserted source offset (b :: gap)) limit).1 (lex source limit).1 = true ∧
      (Token.leavesAll (lex (inserted source offset (b :: gap)) limit).1).map Token.decoded =
        (Token.leavesAll (lex source limit).1).map Token.decoded := by
  obtain ⟨hcomplaints, -⟩ := lexemesAll_lex h
  obtain ⟨before, after, hall, htake, hdrop, hlast⟩ := hedge.exists_split
  have hshallow : ∀ fault ∈ (lex source limit).2, fault.complaint.isTooDeep = false := by
    simp [h]
  obtain ⟨last, faults, hrun⟩ := exists_run_of_isTooDeep_eq_false hshallow
  have hlex := lex_of_run hrun
  rw [hlex] at h
  obtain ⟨hnone, hclosed⟩ := List.append_eq_nil_iff.1 h
  rw [hall] at hrun hcomplaints
  obtain ⟨mid, early, late, hbefore, hafter, hfaults⟩ := hrun.split
  rw [hnone] at hfaults
  obtain ⟨rfl, rfl⟩ := List.append_eq_nil_iff.1 hfaults.symm
  obtain ⟨idle, hinserted, hidle⟩ := Span.all_inserted hall
    (fun span hspan => hcomplaints span (List.mem_append_left _ hspan)) hlast hb hgap
  -- the spans before the gap leave the same nest, the gap keeps it, and what follows is read alike
  have hgapRun := Nest.run_idle limit mid (Position.start.after (Span.textOf before)) hidle
  obtain ⟨again, hagain, halike⟩ := hafter.alike rfl rfl
    ((Position.start.after (Span.textOf before)).after (Span.textOf idle))
  have hwhole := hbefore.append (hgapRun.append hagain)
  rw [← hinserted, ← htake, ← hdrop] at hwhole
  have hlexAgain : lex (inserted source offset (b :: gap)) limit =
      (again.tokens, again.unclosed) := lex_of_run hwhole
  have hunplaced : Token.unplacedAll again.tokens = Token.unplacedAll last.tokens := by
    rw [Nest.unplacedAll_tokens, Nest.unplacedAll_tokens, halike]
  have haround : again.around = [] := by
    have hdepth := Nest.depth_eq_of_unplaced_eq halike
    rw [Nest.depth, List.map_eq_nil_iff.1 hclosed] at hdepth
    exact List.length_eq_zero_iff.1 hdepth.symm
  rw [hlexAgain, hlex]
  refine ⟨?_, Token.sameAll_of_unplacedAll_eq hunplaced, Token.leavesAll_decoded_eq hunplaced⟩
  rw [Nest.unclosed, haround]
  rfl

/-- Between a numeral and the dot behind it, where a digit would have made another numeral. -/
theorem lex_inserted_numeral :
    let source := Bytes.ofString "(1.e'b)"
    let gap := Bytes.ofString "/* /**/ */// '\n"
    (lex source 1).2 = [] ∧ IsEdge source 2 ∧ IsGap (Byte.tab :: gap) ∧
      (lex (inserted source 2 (Byte.tab :: gap)) 1).2 = [] ∧
      Token.sameAll (lex (inserted source 2 (Byte.tab :: gap)) 1).1 (lex source 1).1 = true := by
  have hfaults : (lex (Bytes.ofString "(1.e'b)") 1).2 = [] := by decide +kernel
  have hedge : IsEdge (Bytes.ofString "(1.e'b)") 2 := by
    have hall : Span.all (Bytes.ofString "(1.e'b)") =
        [⟨Bytes.ofString "(", .opener .paren, []⟩] ++
          ⟨Bytes.ofString "1", .leaf .integer (some (.integer 1)) [], []⟩ ::
            Span.all (Bytes.ofString ".e'b)") := by
      decide +kernel
    exact .finish hall (by decide) rfl
  have hgap : IsGap (Byte.tab :: Bytes.ofString "/* /**/ */// '\n") := by
    have hcomment := Filler.block
      (BlockComment.balanced_scan (Bytes.ofString " /**/ */") (by decide +kernel))
    have hquote : Byte.newline ∉ Bytes.ofString " '" := by decide
    have hline : Filler (Bytes.ofString "// '\n") := .line hquote
    have htab : Filler [Byte.tab] := .blank rfl
    exact htab.isGap_append (hcomment.isGap_append (hline.isGap_append isGap_nil))
  obtain ⟨hnone, hsame, -⟩ := lex_inserted hfaults hedge (by decide) hgap
  exact ⟨hfaults, hedge, hgap, hnone, hsame⟩

end RealtimeApp
