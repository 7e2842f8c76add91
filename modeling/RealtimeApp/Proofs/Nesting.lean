import RealtimeApp.Lexer
import RealtimeApp.Proofs.Outcome
import RealtimeApp.Proofs.TokenTree

/-!
# Nesting spans

What reading spans into a nest keeps: where the tokens come from, how deep they lie, and, as long
as there is nothing to complain about, the order of all lexemes and delimiters.

A property of nests that survives one leaf, one opener within the limit and one closer survives
every reading (`read_induction`).  The limit is only felt where groups lie that deep: the length
of a source is as good as none (`lex_eq_of_length_le`).
-/

namespace RealtimeApp
namespace Nest

/-! ## One span -/

section Step

variable {limit : Int} {nest : Nest} {position : Position} {span : Span} {rest : List Span}

theorem read_nil : read limit nest position [] = ⟨nest, [], position, [], false⟩ := rfl

theorem read_skipped (h : span.content = .skipped) :
    read limit nest position (span :: rest) =
      (read limit nest (position.after span.text) rest).withFaults
        (span.complaints.map (Fault.mk position.line)) := by
  rw [read, h]

theorem read_leaf {kind : LeafKind} {literal : Option Literal} {suffix : Bytes}
    (h : span.content = .leaf kind literal suffix) :
    read limit nest position (span :: rest) =
      (read limit (nest.push (.leaf ⟨kind, span.text, literal, suffix, position⟩))
        (position.after span.text) rest).withFaults
        (span.complaints.map (Fault.mk position.line)) := by
  rw [read, h]

theorem read_opener {delimiter : Delimiter} (h : span.content = .opener delimiter)
    (hdepth : nest.depth < limit) :
    read limit nest position (span :: rest) =
      (read limit (nest.enter delimiter position) (position.after span.text) rest).withFaults
        (span.complaints.map (Fault.mk position.line)) := by
  have hnot : ¬limit ≤ nest.depth := by omega
  rw [read, h]
  exact if_neg hnot

theorem read_opener_tooDeep {delimiter : Delimiter} (h : span.content = .opener delimiter)
    (hdepth : limit ≤ nest.depth) :
    read limit nest position (span :: rest) =
      ⟨nest, span.complaints.map (Fault.mk position.line) ++ [⟨position.line, .tooDeep limit⟩],
        position.after span.text, rest, true⟩ := by
  rw [read, h]
  exact if_pos hdepth

theorem read_closer {delimiter : Delimiter} {outer : Nest} (h : span.content = .closer delimiter)
    (hleave : nest.leave delimiter = .ok outer) :
    read limit nest position (span :: rest) =
      (read limit outer (position.after span.text) rest).withFaults
        (span.complaints.map (Fault.mk position.line)) := by
  rw [read, h]
  simp only [hleave]

theorem read_closer_error {delimiter : Delimiter} {complaint : Complaint}
    (h : span.content = .closer delimiter) (hleave : nest.leave delimiter = .error complaint) :
    read limit nest position (span :: rest) =
      (read limit nest (position.after span.text) rest).withFaults
        (span.complaints.map (Fault.mk position.line) ++ [⟨position.line, complaint⟩]) := by
  rw [read, h]
  simp only [hleave]

end Step

/-- A closer ends the innermost group when it fits the opener. -/
theorem leave_eq_ok {nest outer : Nest} {closer : Delimiter} (h : nest.leave closer = .ok outer) :
    ∃ frame, nest.around = frame :: outer.around ∧ frame.delimiter = closer ∧
      outer.members = frame.close nest.members := by
  obtain ⟨members, around⟩ := nest
  cases around with
  | nil => cases h
  | cons frame around =>
      by_cases hcloser : frame.delimiter = closer
      · simp only [leave, if_pos hcloser, Except.ok.injEq] at h
        subst h
        exact ⟨frame, rfl, hcloser, rfl⟩
      · simp [leave, hcloser] at h

/-! ## What every reading keeps -/

/-- A property that one leaf, one opener within the limit and one closer keep is kept by the
reading of any spans. -/
theorem read_induction {limit : Int} {P : Nest → Prop} {spans : List Span}
    (hleaf : ∀ nest span position kind literal suffix, span ∈ spans →
      span.content = .leaf kind literal suffix → P nest →
      P (nest.push (.leaf ⟨kind, span.text, literal, suffix, position⟩)))
    (hopener : ∀ nest delimiter position, nest.depth < limit → P nest →
      P (nest.enter delimiter position))
    (hcloser : ∀ nest delimiter outer, nest.leave delimiter = .ok outer → P nest → P outer) :
    ∀ nest position, P nest → P (read limit nest position spans).nest := by
  induction spans with
  | nil =>
      intro nest position hinv
      exact hinv
  | cons span rest ih =>
      intro nest position hinv
      have hrest := ih fun nest span position kind literal suffix hspan =>
        hleaf nest span position kind literal suffix (List.mem_cons_of_mem _ hspan)
      cases hcontent : span.content with
      | skipped =>
          rw [read_skipped hcontent]
          exact hrest nest _ hinv
      | leaf kind literal suffix =>
          rw [read_leaf hcontent]
          exact hrest _ _ (hleaf nest span position _ _ _ List.mem_cons_self hcontent hinv)
      | opener delimiter =>
          by_cases hdepth : limit ≤ nest.depth
          · rw [read_opener_tooDeep hcontent hdepth]
            exact hinv
          · rw [read_opener hcontent (by omega)]
            exact hrest _ _ (hopener nest delimiter position (by omega) hinv)
      | closer delimiter =>
          cases hleave : nest.leave delimiter with
          | ok outer =>
              rw [read_closer hcontent hleave]
              exact hrest _ _ (hcloser nest delimiter outer hleave hinv)
          | error complaint =>
              rw [read_closer_error hcontent hleave]
              exact hrest nest _ hinv

/-- A property of tokens holds of all tokens that a nest has so far. -/
def Holds (Q : Token → Prop) (nest : Nest) : Prop :=
  (∀ t ∈ nest.members, Q t) ∧ ∀ frame ∈ nest.around, ∀ t ∈ frame.before, Q t

section Holds

variable {Q : Token → Prop}

theorem Holds.close (hgroup : ∀ d position members, (∀ t ∈ members, Q t) →
      Q (.group d position members)) {frame : Frame} {members : List Token}
    (hmembers : ∀ t ∈ members, Q t) (hbefore : ∀ t ∈ frame.before, Q t) :
    ∀ t ∈ frame.close members, Q t := by
  intro t ht
  rcases List.mem_cons.1 ht with rfl | ht
  · exact hgroup _ _ _ fun t ht => hmembers t (List.mem_reverse.1 ht)
  · exact hbefore t ht

theorem Holds.tokens (hgroup : ∀ d position members, (∀ t ∈ members, Q t) →
      Q (.group d position members)) {nest : Nest} (h : nest.Holds Q) :
    ∀ t ∈ nest.tokens, Q t := by
  obtain ⟨members, around⟩ := nest
  obtain ⟨hmembers, haround⟩ := h
  -- the open groups are ended from the inside out
  intro t ht
  rw [Nest.tokens, List.mem_reverse] at ht
  revert t
  induction around generalizing members with
  | nil => exact hmembers
  | cons frame around ih =>
      refine ih (frame.close members) ?_ ?_
      · exact Holds.close hgroup hmembers (haround frame List.mem_cons_self)
      · exact fun other hother => haround other (List.mem_cons_of_mem _ hother)

/-- A property of the leaves that spans make, carried over to groups, holds of all tokens read. -/
theorem forall_mem_tokens_read (hgroup : ∀ d position members, (∀ t ∈ members, Q t) →
      Q (.group d position members)) {spans : List Span}
    (hleaf : ∀ span ∈ spans, ∀ kind literal suffix position,
      span.content = .leaf kind literal suffix →
      Q (.leaf ⟨kind, span.text, literal, suffix, position⟩)) (limit : Int) (start : Position) :
    ∀ t ∈ (read limit empty start spans).nest.tokens, Q t := by
  apply Holds.tokens hgroup
  refine read_induction ?_ ?_ ?_ empty start ⟨by simp [empty], by simp [empty]⟩
  · intro nest span position kind literal suffix hspan hcontent hinv
    refine ⟨?_, hinv.2⟩
    intro t ht
    rcases List.mem_cons.1 ht with rfl | ht
    · exact hleaf span hspan kind literal suffix position hcontent
    · exact hinv.1 t ht
  · intro nest delimiter position _ hinv
    refine ⟨by simp [enter], ?_⟩
    intro frame hframe
    rcases List.mem_cons.1 hframe with rfl | hframe
    · exact hinv.1
    · exact hinv.2 frame hframe
  · intro nest delimiter outer hleave hinv
    obtain ⟨frame, haround, -, hmembers⟩ := leave_eq_ok hleave
    refine ⟨?_, ?_⟩
    · rw [hmembers]
      exact Holds.close hgroup hinv.1 (hinv.2 frame (by simp [haround]))
    · exact fun other hother => hinv.2 other (by simp [haround, hother])

end Holds

/-! ## Depth -/

/-- The tokens of a nest lie within a bound on depth once all open groups are ended. -/
def Within (bound : Nat) : List Token → List Frame → Prop
  | members, [] => Token.depthAll members ≤ bound
  | members, frame :: outer =>
      Token.depthAll members + (outer.length + 1) ≤ bound ∧ Within bound frame.before outer

theorem Within.depthAll_le {bound : Nat} {members : List Token} {around : List Frame}
    (h : Within bound members around) : Token.depthAll members + around.length ≤ bound := by
  cases around with
  | nil => exact h
  | cons frame outer => exact h.1

theorem within_of_depthAll_le {bound : Nat} {members others : List Token} {around : List Frame}
    (h : Within bound members around) (hothers : Token.depthAll others + around.length ≤ bound) :
    Within bound others around := by
  cases around with
  | nil => exact hothers
  | cons frame outer => exact ⟨hothers, h.2⟩

theorem depthAll_reverse (ts : List Token) : Token.depthAll ts.reverse = Token.depthAll ts := by
  apply Nat.le_antisymm
  · rw [Token.depthAll_le_iff]
    intro t ht
    exact Token.depthAll_le_iff.1 (Nat.le_refl _) t (List.mem_reverse.1 ht)
  · rw [Token.depthAll_le_iff]
    intro t ht
    exact Token.depthAll_le_iff.1 (Nat.le_refl _) t (List.mem_reverse.2 ht)

theorem Within.close {bound : Nat} {members : List Token} {frame : Frame} {outer : List Frame}
    (h : Within bound members (frame :: outer)) : Within bound (frame.close members) outer := by
  have hbefore := h.2.depthAll_le
  have hmembers := h.1
  apply within_of_depthAll_le h.2
  rw [Frame.close, Token.depthAll, Token.depth, depthAll_reverse]
  omega

theorem Within.depthAll_tokens_le {bound : Nat} {nest : Nest}
    (h : Within bound nest.members nest.around) : Token.depthAll nest.tokens ≤ bound := by
  obtain ⟨members, around⟩ := nest
  rw [tokens, depthAll_reverse]
  induction around generalizing members with
  | nil => exact h
  | cons frame outer ih => exact ih (frame.close members) h.close

/-- No token lies deeper than the limit, nor in any group where the limit allows none. -/
theorem depthAll_tokens_read_le (limit : Int) (start : Position) (spans : List Span) :
    Token.depthAll (read limit empty start spans).nest.tokens ≤ limit.toNat := by
  apply Within.depthAll_tokens_le
  refine read_induction (P := fun nest => Within limit.toNat nest.members nest.around)
    ?_ ?_ ?_ empty start ?_
  · intro nest span position kind literal suffix _ _ hinv
    apply within_of_depthAll_le hinv
    have hbound := hinv.depthAll_le
    simpa [push, Token.depthAll, Token.depth] using hbound
  · intro nest delimiter position hdepth hinv
    refine ⟨?_, hinv⟩
    have hlength : (nest.around.length : Int) < limit := hdepth
    show 0 + (nest.around.length + 1) ≤ limit.toNat
    omega
  · intro nest delimiter outer hleave hinv
    obtain ⟨frame, haround, -, hmembers⟩ := leave_eq_ok hleave
    rw [haround] at hinv
    rw [hmembers]
    exact hinv.close
  · exact Nat.zero_le _

/-! ## Another limit -/

theorem depth_leave {nest outer : Nest} {closer : Delimiter} (h : nest.leave closer = .ok outer) :
    nest.depth = outer.depth + 1 := by
  obtain ⟨frame, haround, -, -⟩ := leave_eq_ok h
  simp [depth, haround]

/-- Under a limit that leaves room for as many groups as there are spans, a wider limit changes
nothing. -/
theorem read_eq_of_le {limit wider : Int} (hle : limit ≤ wider) {spans : List Span} :
    ∀ nest position, nest.depth + spans.length ≤ limit →
      read wider nest position spans = read limit nest position spans := by
  induction spans with
  | nil =>
      intro nest position _
      rfl
  | cons span rest ih =>
      intro nest position hroom
      rw [List.length_cons] at hroom
      -- one span opens one group at most, and leaves one span less
      have hrest : ∀ next : Nest, next.depth ≤ nest.depth + 1 →
          read wider next (position.after span.text) rest =
            read limit next (position.after span.text) rest := by
        intro next hnext
        apply ih
        omega
      cases hcontent : span.content with
      | skipped => rw [read_skipped hcontent, read_skipped hcontent, hrest nest (by omega)]
      | leaf kind literal suffix =>
          rw [read_leaf hcontent, read_leaf hcontent, hrest]
          exact Nat.le_succ _
      | opener delimiter =>
          rw [read_opener hcontent (by omega), read_opener hcontent (by omega), hrest]
          exact Nat.le_refl _
      | closer delimiter =>
          cases hleave : nest.leave delimiter with
          | ok outer =>
              have hdepth := depth_leave hleave
              rw [read_closer hcontent hleave, read_closer hcontent hleave, hrest outer (by omega)]
          | error complaint =>
              rw [read_closer_error hcontent hleave, read_closer_error hcontent hleave,
                hrest nest (by omega)]

/-! ## Readings without faults -/

/-- The lexemes and delimiters of a nest so far: before each open group, the tokens before it and
its opener. -/
def walk (members : List Token) : List Frame → List Bytes
  | [] => Token.lexemesAll members.reverse
  | frame :: outer =>
      walk frame.before outer ++ [frame.delimiter.opening] :: Token.lexemesAll members.reverse

theorem lexemesAll_reverse_cons (t : Token) (ts : List Token) :
    Token.lexemesAll (t :: ts).reverse = Token.lexemesAll ts.reverse ++ t.lexemes := by
  simp [Token.lexemesAll_eq_flatMap]

theorem walk_cons (t : Token) (members : List Token) (around : List Frame) :
    walk (t :: members) around = walk members around ++ t.lexemes := by
  cases around with
  | nil => exact lexemesAll_reverse_cons t members
  | cons frame outer =>
      rw [walk, walk, lexemesAll_reverse_cons]
      simp

/-- The closer is walked over when a group ends. -/
theorem walk_close (members : List Token) (frame : Frame) (outer : List Frame) :
    walk (frame.close members) outer =
      walk members (frame :: outer) ++ [[frame.delimiter.closing]] := by
  rw [Frame.close, walk_cons, walk, Token.lexemes]
  simp

/-- The lexemes and delimiters among spans. -/
def lexemesOf (spans : List Span) : List Bytes :=
  (spans.filter (·.content != .skipped)).map Span.text

theorem lexemesOf_cons_skipped {span : Span} {rest : List Span} (h : span.content = .skipped) :
    lexemesOf (span :: rest) = lexemesOf rest := by
  simp [lexemesOf, h]

theorem lexemesOf_cons {span : Span} {rest : List Span} (h : span.content ≠ .skipped) :
    lexemesOf (span :: rest) = span.text :: lexemesOf rest := by
  simp [lexemesOf, h]

/-- A reading came to the end of the spans with nothing to complain about in any of them, and
walked over their lexemes and delimiters in order, behind those of `nest`. -/
structure Flawless (r : Reading) (nest : Nest) (spans : List Span) : Prop where
  tooDeep : r.tooDeep = false
  complaints : ∀ other ∈ spans, other.complaints = []
  walk : walk r.nest.members r.nest.around = walk nest.members nest.around ++ lexemesOf spans

theorem flawless_of_faults_eq_nil {limit : Int} {spans : List Span}
    (hdelimited : ∀ span ∈ spans, span.Delimited) :
    ∀ nest position, (read limit nest position spans).faults = [] →
      Flawless (read limit nest position spans) nest spans := by
  induction spans with
  | nil =>
      intro nest position _
      exact ⟨rfl, by simp, by simp [read_nil, lexemesOf]⟩
  | cons span rest ih =>
      intro nest position hfaults
      have hrest := ih fun span hspan => hdelimited span (List.mem_cons_of_mem _ hspan)
      -- a reading goes on from `next` with no complaint about the span itself
      have hstep : ∀ next,
          read limit nest position (span :: rest) =
            (read limit next (position.after span.text) rest).withFaults
              (span.complaints.map (Fault.mk position.line)) →
          Nest.walk next.members next.around ++ lexemesOf rest =
            Nest.walk nest.members nest.around ++ lexemesOf (span :: rest) →
          Flawless (read limit nest position (span :: rest)) nest (span :: rest) := by
        intro next hread hwalk
        rw [hread] at hfaults ⊢
        obtain ⟨hcomplaints, hfaults⟩ := List.append_eq_nil_iff.1 hfaults
        obtain ⟨hdeep, hothers, hwalked⟩ := hrest next _ hfaults
        refine ⟨hdeep, ?_, ?_⟩
        · exact List.forall_mem_cons.2 ⟨List.map_eq_nil_iff.1 hcomplaints, hothers⟩
        · rw [← hwalk, ← hwalked]
          rfl
      cases hcontent : span.content with
      | skipped =>
          apply hstep nest (read_skipped hcontent)
          rw [lexemesOf_cons_skipped hcontent]
      | leaf kind literal suffix =>
          apply hstep _ (read_leaf hcontent)
          rw [lexemesOf_cons (by rw [hcontent]; simp), push, walk_cons, Token.lexemes,
            List.append_assoc]
          rfl
      | opener delimiter =>
          by_cases hdepth : limit ≤ nest.depth
          · rw [read_opener_tooDeep hcontent hdepth] at hfaults
            simp at hfaults
          · apply hstep _ (read_opener hcontent (by omega))
            have hopener := (hdelimited span List.mem_cons_self).opener _ hcontent
            have htext := congrArg Span.text hopener
            rw [lexemesOf_cons (by rw [hcontent]; simp), htext]
            simp [enter, Nest.walk, Token.lexemesAll]
      | closer delimiter =>
          cases hleave : nest.leave delimiter with
          | ok outer =>
              apply hstep outer (read_closer hcontent hleave)
              obtain ⟨frame, haround, hdelimiter, hmembers⟩ := leave_eq_ok hleave
              have hcloser := (hdelimited span List.mem_cons_self).closer _ hcontent
              have htext := congrArg Span.text hcloser
              rw [lexemesOf_cons (by rw [hcontent]; simp), htext, hmembers, haround, walk_close,
                hdelimiter]
              simp
          | error complaint =>
              rw [read_closer_error hcontent hleave] at hfaults
              simp [Reading.withFaults] at hfaults

end Nest

theorem Span.length_all_le (source : Bytes) : (Span.all source).length ≤ source.length := by
  fun_induction Span.all source with
  | case1 => exact Nat.le_refl 0
  | case2 b rest ih => exact Nat.lt_of_le_of_lt ih (length_scan_lt b rest)

/-- The length of a source is no limit on the nesting in it: every greater one gives the same
tokens and faults. -/
theorem lex_eq_of_length_le {source : Bytes} {limit : Int} (h : source.length ≤ limit) :
    lex source limit = lex source source.length := by
  have hspans := Span.length_all_le source
  have hroom : ((Nest.empty.depth : Nat) : Int) + (Span.all source).length ≤ source.length := by
    show ((0 : Nat) : Int) + (Span.all source).length ≤ source.length
    omega
  have hread := Nest.read_eq_of_le h Nest.empty .start hroom
  simp [lex, Lexer.tokenize, Lexer.ofSource, hread]

/-- A source without faults has no complaint in any of its spans, and its tokens walk over the
lexemes and delimiters of its spans in order. -/
theorem lexemesAll_lex {source : Bytes} {limit : Int} (h : (lex source limit).2 = []) :
    (∀ span ∈ Span.all source, span.complaints = []) ∧
      Token.lexemesAll (lex source limit).1 = Nest.lexemesOf (Span.all source) := by
  obtain ⟨r, hr⟩ : ∃ r, Nest.empty.read limit .start (Span.all source) = r := ⟨_, rfl⟩
  have hlex : lex source limit = (r.nest.tokens, r.faults ++ r.unclosed) := by
    simp [lex, Lexer.tokenize, Lexer.ofSource, hr]
  rw [hlex] at h ⊢
  obtain ⟨hfaults, hunclosed⟩ := List.append_eq_nil_iff.1 h
  have hflawless := Nest.flawless_of_faults_eq_nil
    (fun _ hspan => Span.delimited_of_mem_all hspan) Nest.empty .start (by rw [hr, hfaults])
  rw [hr] at hflawless
  refine ⟨hflawless.complaints, ?_⟩
  have hclosed : r.nest.around = [] := by
    rw [Reading.unclosed, hflawless.tooDeep] at hunclosed
    exact List.map_eq_nil_iff.1 hunclosed
  have hwalk := hflawless.walk
  rw [hclosed, Nest.walk] at hwalk
  rw [Nest.tokens, hclosed]
  exact hwalk

end RealtimeApp
