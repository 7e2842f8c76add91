import RealtimeApp.Proofs.OpenGroups

/-!
# The limit on nesting

The depth of the tokens is the number of groups that were open at once (`Nest.Within`), and it only
grows while spans are taken.  So a limit that the tokens read without one do not go beyond changes
nothing, and under a lower one the call stops right behind the first opener that lies too deep, with
tokens exactly as deep as the limit allows (`lex_limit_exact`).
-/

namespace RealtimeApp
namespace Nest

/-! ## Depth while spans are taken -/

theorem within_of_depthAll_tokens_le {bound : Nat} {nest : Nest}
    (h : Token.depthAll nest.tokens ≤ bound) : Within bound nest.members nest.around := by
  obtain ⟨members, around⟩ := nest
  rw [tokens, depthAll_reverse] at h
  show Within bound members around
  induction around generalizing members with
  | nil => exact h
  | cons frame outer ih =>
      have houter := ih (frame.close members) h
      have hdepth := houter.depthAll_le
      rw [Frame.close, Token.depthAll, Token.depth, depthAll_reverse] at hdepth
      exact ⟨by omega, within_of_depthAll_le houter (by omega)⟩

theorem depthAll_tokens_le_iff {bound : Nat} {nest : Nest} :
    Token.depthAll nest.tokens ≤ bound ↔ Within bound nest.members nest.around :=
  ⟨within_of_depthAll_tokens_le, Within.depthAll_tokens_le⟩

/-- Every open group becomes part of the tokens. -/
theorem depth_le_depthAll_tokens (nest : Nest) : nest.depth ≤ Token.depthAll nest.tokens := by
  have hdepth := (depthAll_tokens_le_iff.1 (Nat.le_refl (Token.depthAll nest.tokens))).depthAll_le
  rw [depth]
  omega

section Run

variable {limit wide : Int} {nest next last : Nest} {position : Position} {span : Span}
  {spans : List Span} {complaints : List Complaint} {faults : List Fault}

/-- The tokens do not get less deep. -/
theorem Takes.depthAll_tokens_le (h : Takes limit nest position span next complaints) :
    Token.depthAll nest.tokens ≤ Token.depthAll next.tokens := by
  have hnext := depthAll_tokens_le_iff.1 (Nat.le_refl (Token.depthAll next.tokens))
  cases h with
  | skipped h | dropped h _ => exact Nat.le_refl _
  | leaf h =>
      rw [depthAll_tokens_le_iff]
      apply within_of_depthAll_le hnext
      exact Nat.le_trans (Nat.add_le_add_right (Nat.le_max_right _ _) _) hnext.depthAll_le
  | opener h _ => exact depthAll_tokens_le_iff.2 hnext.2
  | closer h hleave => exact Nat.le_of_eq (by rw [tokens_leave hleave])

theorem Run.depthAll_tokens_le (h : Run limit nest position spans last faults) :
    Token.depthAll nest.tokens ≤ Token.depthAll last.tokens := by
  induction h with
  | done nest position => exact Nat.le_refl _
  | next first _ ih => exact Nat.le_trans first.depthAll_tokens_le ih

/-! ## Under another limit -/

/-- Spans that are taken under one limit are taken under another one, or up to an opener that this
one refuses. -/
theorem Run.under_or_refused (h : Run wide nest position spans last faults) (limit : Int) :
    Run limit nest position spans last faults ∨
      ∃ before span after d mid early late, spans = before ++ span :: after ∧
        span.content = .opener d ∧ limit ≤ mid.depth ∧
        Run limit nest position before mid early ∧ Run wide nest position before mid early ∧
        Run wide mid (position.after (Span.textOf before)) (span :: after) last late ∧
        faults = early ++ late := by
  induction h with
  | done nest position => exact .inl (.done nest position)
  | @next nest next last position span rest complaints faults first others ih =>
      by_cases hrefused : ∃ d, span.content = .opener d ∧ limit ≤ nest.depth
      · obtain ⟨d, hopener, hdepth⟩ := hrefused
        exact .inr ⟨[], span, rest, d, nest, [], _, rfl, hopener, hdepth, .done _ _, .done _ _,
          .next first others, rfl⟩
      · have hfirst : Takes limit nest position span next complaints := by
          refine first.under ?_
          intro d hopener
          exact Int.lt_of_not_ge fun hdepth => hrefused ⟨d, hopener, hdepth⟩
        rcases ih with hothers | ⟨before, refused, after, d, mid, early, late, rfl, hopener, hdepth,
          hbefore, hwide, hafter, rfl⟩
        · exact .inl (.next hfirst hothers)
        · refine .inr ⟨span :: before, refused, after, d, mid, _, late, rfl, hopener, hdepth,
            .next hfirst hbefore, .next first hwide, ?_, (List.append_assoc _ _ _).symm⟩
          rwa [Span.textOf_cons, Position.after_append]

/-- A group that is opened on the way is part of the tokens. -/
theorem Run.depth_lt {d : Delimiter} (h : Run limit nest position (span :: spans) last faults)
    (hopener : span.content = .opener d) : nest.depth < Token.depthAll last.tokens := by
  cases h with
  | @next _ next _ _ _ _ _ _ first others =>
      have hnext : next.depth = nest.depth + 1 := by
        cases first with
        | opener h _ => rfl
        | skipped h | leaf h | closer h _ | dropped h _ => simp [h] at hopener
      have hopen := next.depth_le_depthAll_tokens
      have hgrows := others.depthAll_tokens_le
      omega

/-- No fault that is found while spans are taken is about an opener. -/
theorem Run.complaint_ne (h : Run limit nest position spans last faults)
    (htruthful : ∀ span ∈ spans, span.Truthful) :
    ∀ fault ∈ faults, fault.complaint.isTooDeep = false ∧
      ∀ d, fault.complaint ≠ .unclosed d := by
  induction h with
  | done nest position => simp
  | @next nest next last position span rest complaints faults first others ih =>
      obtain ⟨hspan, hrest⟩ := List.forall_mem_cons.1 htruthful
      have hown : ∀ complaint ∈ span.complaints, complaint.isTooDeep = false ∧
          ∀ d, complaint ≠ .unclosed d := by
        intro complaint hcomplaint
        refine ⟨(hspan complaint hcomplaint).within, ?_⟩
        rintro d rfl
        have hmatched := (hspan _ hcomplaint).matched
        cases hmatched
      have hfirst : ∀ complaint ∈ complaints, complaint.isTooDeep = false ∧
          ∀ d, complaint ≠ .unclosed d := by
        cases first with
        | skipped h | leaf h | opener h _ | closer h _ => exact hown
        | dropped h hleave =>
            intro complaint hcomplaint
            rcases List.mem_append.1 hcomplaint with hcomplaint | hcomplaint
            · exact hown complaint hcomplaint
            · obtain rfl := List.mem_singleton.1 hcomplaint
              rcases leave_eq_error hleave with rfl | ⟨frame, outer, -, rfl⟩
              · exact ⟨rfl, by simp⟩
              · exact ⟨rfl, by simp⟩
      intro fault hfault
      rcases List.mem_append.1 hfault with hfault | hfault
      · obtain ⟨complaint, hcomplaint, rfl⟩ := List.mem_map.1 hfault
        exact hfirst complaint hcomplaint
      · exact ih hrest fault hfault

end Run
end Nest

/-! ## Whole sources -/

/-- The spans before the first opener that would lie deeper than the limit allows. -/
structure Span.FirstBeyond (limit : Int) (before : List Span) : Prop where
  beyond : limit ≤ (openBehind 0 [] before).length
  within : ∀ earlier d later, before = earlier ++ ⟨[d.opening], .opener d, []⟩ :: later →
    ((openBehind 0 [] earlier).length : Int) < limit

/-- A call under a limit stops right behind the first opener beyond it, with tokens as deep as the
limit, the faults that a call under `wide` found before that opener, and one fault more. -/
structure StopsBehind (source : Bytes) (limit wide : Int) (before : List Span) (d : Delimiter)
    (after : List Span) : Prop where
  spans : Span.all source = before ++ ⟨[d.opening], .opener d, []⟩ :: after
  first : Span.FirstBeyond limit before
  rest : (Lexer.ofSource source limit).tokenize.2.rest = Span.textOf after
  depth : Token.depthAll (lex source limit).1 = limit.toNat
  faults : (lex source limit).2 = (Nest.empty.read wide .start before).faults ++
    [⟨(placeAt source (Span.textOf before).length).line, .tooDeep limit⟩]
  early : (Nest.empty.read wide .start before).faults <+: (lex source wide).2
  others : ∀ fault ∈ (Nest.empty.read wide .start before).faults,
    fault.complaint.isTooDeep = false ∧ ∀ e, fault.complaint ≠ .unclosed e

/-- The first spans of a source stand at its beginning. -/
theorem stands_textOf {source : Bytes} {before after : List Span}
    (h : Span.all source = before ++ after) : Stands source 0 (Span.textOf before) := by
  have hsource := stands_all source
  rw [h, Span.textOf_append] at hsource
  exact hsource.left

/-- The groups that are open behind the first spans of a source. -/
theorem Nest.Run.opensAt {source : Bytes} {limit : Int} {before after : List Span} {last : Nest}
    {faults : List Fault} (h : Run limit .empty .start before last faults)
    (hspans : Span.all source = before ++ after) :
    last.OpensAt source (Span.openBehind 0 [] before) :=
  (h.runAt (placeAt_zero source).symm (stands_textOf hspans)).opensAt opensAt_empty

theorem Nest.Run.firstBeyond {source : Bytes} {limit : Int} {before after : List Span}
    {last : Nest} {faults : List Fault} (h : Run limit .empty .start before last faults)
    (hspans : Span.all source = before ++ after) (hdepth : limit ≤ last.depth) :
    Span.FirstBeyond limit before := by
  constructor
  case beyond =>
    have hopened := h.opensAt hspans
    rwa [hopened.length_eq] at hdepth
  case within =>
    rintro earlier d later rfl
    obtain ⟨mid, early, late, hearlier, hlater, -⟩ := h.split
    rw [List.append_assoc] at hspans
    have hopened := hearlier.opensAt hspans
    rw [← hopened.length_eq]
    cases hlater with
    | next first _ =>
        cases first with
        | opener h hroom => exact hroom
        | skipped h | leaf h | closer h _ | dropped h _ => cases h

/-- A limit lets everything through, or it stops the call behind the first opener beyond it. -/
inductive Limited (source : Bytes) (limit wide : Int) : Prop
  | within (lex_eq : lex source limit = lex source wide)
      (depth : Token.depthAll (lex source wide).1 ≤ limit.toNat)
  | stopped (before : List Span) (d : Delimiter) (after : List Span)
      (stops : StopsBehind source limit wide before d after)
      (depth : limit.toNat < Token.depthAll (lex source wide).1)

/-- Nothing is refused where the limit is as great as the source is long. -/
theorem exists_run_of_length_le {source : Bytes} {wide : Int} (h : source.length ≤ wide) :
    ∃ last faults, Nest.Run wide .empty .start (Span.all source) last faults := by
  rcases Nest.run_or_refused wide (Span.all source) .empty .start with
    hrun | ⟨before, span, after, d, last, faults, hspans, -, hrun, hdepth⟩
  · exact hrun
  · have hlength := Span.length_all_le source
    rw [hspans, List.length_append, List.length_cons] at hlength
    have hlast := hrun.depth_le
    have hempty : Nest.empty.depth = 0 := rfl
    omega

/-- Where a limit refuses an opener that a run under `wide` goes past, the call stops there. -/
theorem stopsBehind_of_refused {source : Bytes} {limit wide : Int} {before after : List Span}
    {d : Delimiter} {mid last : Nest} {early late : List Fault}
    (hspans : Span.all source = before ++ ⟨[d.opening], .opener d, []⟩ :: after)
    (hdepth : limit ≤ mid.depth) (hlimit : Nest.Run limit .empty .start before mid early)
    (hbefore : Nest.Run wide .empty .start before mid early)
    (hlex : lex source wide = (last.tokens, early ++ late ++ last.unclosed)) :
    StopsBehind source limit wide before d after := by
  have hcall : (Lexer.ofSource source limit).tokenize = _ :=
    Lexer.tokenize_of_refused hspans hlimit hdepth
  have hstopped : lex source limit = (mid.tokens,
      early ++ [⟨(Position.start.after (Span.textOf before)).line, .tooDeep limit⟩]) := by
    rw [lex, hcall]
    rfl
  have hread : (Nest.empty.read wide .start before).faults = early := by rw [hbefore.read_eq]
  constructor
  case spans => exact hspans
  case first => exact hlimit.firstBeyond hspans hdepth
  case rest => rw [hcall]
  case depth =>
    -- as many groups are open as the limit allows, and no more
    have hopen := mid.depth_le_depthAll_tokens
    have hlimited := depthAll_lex_le source limit
    rw [hstopped] at hlimited ⊢
    show Token.depthAll mid.tokens = limit.toNat
    have hdeep : Token.depthAll mid.tokens ≤ limit.toNat := hlimited
    omega
  case faults =>
    have hplace := (stands_textOf hspans).after_placeAt
    rw [placeAt_zero, Nat.zero_add] at hplace
    rw [hstopped, hread, ← hplace]
  case early =>
    rw [hread, hlex, List.append_assoc]
    exact List.prefix_append _ _
  case others =>
    rw [hread]
    refine hbefore.complaint_ne ?_
    intro span hspan
    have hmem : span ∈ Span.all source := by
      rw [hspans]
      exact List.mem_append_left _ hspan
    exact Span.truthful_of_mem_all hmem

theorem limited_of_length_le {source : Bytes} {wide : Int} (h : source.length ≤ wide)
    (limit : Int) : Limited source limit wide := by
  obtain ⟨last, faults, hwide⟩ := exists_run_of_length_le h
  have hlexWide := lex_of_run hwide
  rcases hwide.under_or_refused limit with
    hlimit | ⟨before, span, after, d, mid, early, late, hspans, hopener, hdepth, hlimit, hbefore,
      hafter, rfl⟩
  · have hlex := lex_of_run hlimit
    have hdeep := depthAll_lex_le source limit
    rw [hlex, ← hlexWide] at hdeep
    exact .within (hlex.trans hlexWide.symm) hdeep
  · have hmem : span ∈ Span.all source := by simp [hspans]
    have hspan := (Span.delimited_of_mem_all hmem).opener d hopener
    have hstops :=
      stopsBehind_of_refused (hspan ▸ hspans) hdepth hlimit hbefore hlexWide
    have hdeeper := hafter.depth_lt hopener
    refine .stopped before d after hstops ?_
    rw [hlexWide]
    show limit.toNat < Token.depthAll last.tokens
    omega

/-- The limit on nesting is exact and shows nowhere else.  Compared with a limit that is at least
the length of the source: where the tokens are no deeper than the limit, tokens and faults are
equal.  Where they are, the call stops right behind the first opener that lies too deep
(`StopsBehind`).  So no tokens lie deeper than the limit, and a greater limit changes nothing where
no opener was refused. -/
theorem lex_limit_exact {source : Bytes} {wide : Int} (h : source.length ≤ wide) (limit : Int) :
    (Token.depthAll (lex source wide).1 ≤ limit.toNat → lex source limit = lex source wide) ∧
    (limit.toNat < Token.depthAll (lex source wide).1 →
      ∃ before d after, StopsBehind source limit wide before d after) ∧
    Token.depthAll (lex source limit).1 ≤ limit.toNat ∧
    ((∀ fault ∈ (lex source limit).2, fault.complaint.isTooDeep = false) →
      ∀ greater, limit ≤ greater → lex source greater = lex source limit) := by
  refine ⟨?_, ?_, depthAll_lex_le source limit, ?_⟩
  · intro hdepth
    cases limited_of_length_le h limit with
    | within heq _ => exact heq
    | stopped before d after stops hdeeper => omega
  · intro hdeeper
    cases limited_of_length_le h limit with
    | within _ hdepth => omega
    | stopped before d after stops _ => exact ⟨before, d, after, stops⟩
  · intro hnone greater hle
    cases limited_of_length_le h limit with
    | stopped before d after stops _ =>
        have hfault : ⟨(placeAt source (Span.textOf before).length).line, .tooDeep limit⟩ ∈
            (lex source limit).2 := by
          rw [stops.faults]
          exact List.mem_append_right _ List.mem_cons_self
        have hdeep := hnone _ hfault
        cases hdeep
    | within heq hdepth =>
        cases limited_of_length_le h greater with
        | within heq' _ => exact heq'.trans heq.symm
        | stopped before d after stops hdeeper => omega

/-- A stray closer and an unexpected byte are found before the bracket that lies too deep; the open
parenthesis is not complained about. -/
theorem lex_limit_exact_bracket :
    let source := Bytes.ofString ")(~[b"
    (source.length : Int) ≤ 5 ∧ (1 : Int).toNat < Token.depthAll (lex source 5).1 ∧
      (lex source 1).2 = [⟨1, .strayCloser .paren⟩, ⟨1, .unexpectedByte (ascii '~')⟩,
        ⟨1, .tooDeep 1⟩] ∧
      ∃ before d after, StopsBehind source 1 5 before d after := by
  have hlength : ((Bytes.ofString ")(~[b").length : Int) ≤ 5 := by decide
  have hdeep : (1 : Int).toNat < Token.depthAll (lex (Bytes.ofString ")(~[b") 5).1 := by
    decide +kernel
  exact ⟨hlength, hdeep, by decide +kernel, (lex_limit_exact hlength 1).2.1 hdeep⟩

end RealtimeApp
