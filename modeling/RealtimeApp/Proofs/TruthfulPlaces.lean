import RealtimeApp.Proofs.Sites

/-!
# Places are truthful

The leaves and groups that a nest has so far, in the order of a walk over them, are the leaves and
openers among the spans that were taken, each with the place it stands at (`Nest.RunAt.outline_eq`),
whatever was dropped in between and whichever groups are still open.  A lexer always knows the place
that its source goes on at, so this is true of every call (`tokenize_truthful`).
-/

namespace RealtimeApp

namespace Token

/-- What a token begins with: a leaf with its lexeme, a group with its opener. -/
def mark : Token → Bytes
  | leaf l => l.lexeme
  | group d _ _ => [d.opening]

/-- The places and marks of a sequence of tokens, each token before everything inside it. -/
def outline (ts : List Token) : List (Position × Bytes) :=
  (preorderAll ts).map fun t => (t.position, t.mark)

theorem preorderAll_append (ts us : List Token) :
    preorderAll (ts ++ us) = preorderAll ts ++ preorderAll us := by
  induction ts with
  | nil => rfl
  | cons t ts ih => rw [List.cons_append, preorderAll, preorderAll, ih, List.append_assoc]

theorem outline_reverse_cons (t : Token) (ts : List Token) :
    outline (t :: ts).reverse = outline ts.reverse ++ outline [t] := by
  rw [List.reverse_cons, outline, preorderAll_append, List.map_append]
  rfl

end Token

/-- Does it begin a token? -/
def Content.beginsToken : Content → Bool
  | .leaf .. | .opener _ => true
  | .skipped | .closer _ => false

/-- The place of a site and the text of its span. -/
def Site.place (source : Bytes) (site : Site) : Position × Bytes :=
  (placeAt source site.offset, site.span.text)

/-- The sites among spans that a token begins at. -/
def Span.beginnings (offset : Nat) (opened : List Opener) (spans : List Span) : List Site :=
  (sites offset opened spans).filter (·.span.content.beginsToken)

theorem Span.beginnings_cons (offset : Nat) (opened : List Opener) (span : Span)
    (rest : List Span) :
    beginnings offset opened (span :: rest) =
      (if span.content.beginsToken then [⟨span, offset, opened⟩] else []) ++
        beginnings (offset + span.text.length) (span.openBy offset opened) rest := by
  rw [beginnings, sites_cons, List.filter_cons]
  split
  · rfl
  · rfl

/-! ## The outline of a nest -/

namespace Nest

/-- The places and marks of the leaves and groups so far: before each open group, those of the
group around it. -/
def outline (members : List Token) : List Frame → List (Position × Bytes)
  | [] => Token.outline members.reverse
  | frame :: outer =>
      outline frame.before outer ++
        (frame.position, [frame.delimiter.opening]) :: Token.outline members.reverse

theorem outline_cons (t : Token) (members : List Token) (around : List Frame) :
    outline (t :: members) around = outline members around ++ Token.outline [t] := by
  cases around with
  | nil => exact Token.outline_reverse_cons t members
  | cons frame outer =>
      rw [outline, outline, Token.outline_reverse_cons, List.append_assoc, List.cons_append]

/-- A group is walked over like its opener and what is inside it, so its end adds nothing. -/
theorem outline_close (members : List Token) (frame : Frame) (outer : List Frame) :
    outline (frame.close members) outer = outline members (frame :: outer) := by
  rw [Frame.close, outline_cons, outline]
  simp [Token.outline, Token.preorderAll, Token.preorder, Token.position, Token.mark]

theorem outline_tokens (nest : Nest) :
    Token.outline nest.tokens = outline nest.members nest.around := by
  obtain ⟨members, around⟩ := nest
  rw [tokens]
  show Token.outline (around.foldl _ members).reverse = outline members around
  induction around generalizing members with
  | nil => rfl
  | cons frame outer ih => rw [List.foldl_cons, ih, outline_close]

section Outline

variable {source : Bytes} {limit : Int} {nest next last : Nest} {position : Position} {span : Span}
  {spans : List Span} {offset : Nat} {complaints : List Complaint} {faults : List Fault}
  {rest : Bytes}

/-- A leaf or an opener is outlined where it stands, and nothing else is. -/
theorem Takes.outline_eq (h : Takes limit nest position span next complaints)
    (hspan : span.Delimited) :
    outline next.members next.around = outline nest.members nest.around ++
      if span.content.beginsToken then [(position, span.text)] else [] := by
  cases h with
  | skipped h | dropped h _ => simp [h, Content.beginsToken]
  | leaf h => simp [h, Content.beginsToken, push, outline_cons, Token.outline, Token.preorderAll,
      Token.preorder, Token.position, Token.mark]
  | @opener d h _ =>
      have htext := congrArg Span.text (hspan.opener d h)
      simp [h, Content.beginsToken, htext, enter, outline, Token.outline, Token.preorderAll]
  | closer h hleave =>
      obtain ⟨frame, haround, -, hmembers⟩ := leave_eq_ok hleave
      simp [h, Content.beginsToken, hmembers, haround, outline_close]

/-- A run outlines the leaves and openers among its spans, each where it stands. -/
theorem RunAt.outline_eq (h : RunAt source limit offset nest spans last faults)
    (opened : List Opener) (hspans : spans ⊆ Span.all rest) :
    outline last.members last.around = outline nest.members nest.around ++
      (Span.beginnings offset opened spans).map (Site.place source) := by
  induction h generalizing opened with
  | done offset nest => simp [Span.beginnings]
  | @next offset nest next last span rest complaints faults first _ _ ih =>
      obtain ⟨hspan, hrest⟩ := List.cons_subset.1 hspans
      rw [ih (span.openBy offset opened) hrest,
        first.outline_eq (Span.delimited_of_mem_all hspan), List.append_assoc,
        Span.beginnings_cons, List.map_append]
      congr 2
      split
      · rfl
      · rfl

end Outline
end Nest

/-! ## Tokens at offsets -/

/-- Tokens stand in a source at these offsets, one behind the other. -/
structure StandInOrder (source : Bytes) (tokens : List Token) (offsets : List Nat) : Prop where
  stand : List.Forall₂ (fun token offset =>
    token.position = placeAt source offset ∧ Stands source offset token.mark) tokens offsets
  increase : offsets.Pairwise (· < ·)
  apart : (tokens.zip offsets).Pairwise fun first second =>
    first.2 + first.1.mark.length ≤ second.2

/-- Tokens that are placed like sites which lie apart stand in order. -/
theorem standInOrder_of_sites {source : Bytes} {tokens : List Token} {places : List Site}
    (hplaces : tokens.map (fun t => (t.position, t.mark)) = places.map (Site.place source))
    (hstand : ∀ site ∈ places, Stands source site.offset site.span.text)
    (hwritten : ∀ site ∈ places, site.span.text ≠ [])
    (hapart : places.Pairwise fun first second =>
      first.offset + first.span.text.length ≤ second.offset) :
    StandInOrder source tokens (places.map Site.offset) := by
  induction places generalizing tokens with
  | nil =>
      obtain rfl := List.map_eq_nil_iff.1 hplaces
      exact ⟨.nil, .nil, .nil⟩
  | cons site places ih =>
      cases tokens with
      | nil => cases hplaces
      | cons token tokens =>
          simp only [List.map_cons, List.cons.injEq, Site.place, Prod.mk.injEq] at hplaces
          obtain ⟨⟨hposition, hmark⟩, hothers⟩ := hplaces
          obtain ⟨hfirst, hapart⟩ := List.pairwise_cons.1 hapart
          obtain ⟨hsite, hstand⟩ := List.forall_mem_cons.1 hstand
          obtain ⟨hne, hwritten⟩ := List.forall_mem_cons.1 hwritten
          obtain ⟨hstands, hincrease, hzip⟩ := ih hothers hstand hwritten hapart
          have hlater : ∀ offset ∈ places.map Site.offset,
              site.offset + token.mark.length ≤ offset := by
            intro offset hoffset
            obtain ⟨later, hlater, rfl⟩ := List.mem_map.1 hoffset
            rw [hmark]
            exact hfirst later hlater
          have hpositive : 0 < token.mark.length := by
            rw [hmark]
            exact List.length_pos_iff.2 hne
          refine ⟨.cons ⟨hposition, by rwa [hmark]⟩ hstands, ?_, ?_⟩
          · refine List.pairwise_cons.2 ⟨?_, hincrease⟩
            intro offset hoffset
            exact Nat.lt_of_lt_of_le (Nat.lt_add_of_pos_right hpositive) (hlater offset hoffset)
          · refine List.pairwise_cons.2 ⟨?_, hzip⟩
            intro second hsecond
            exact hlater _ (List.of_mem_zip hsecond).2

/-- Tokens that a run makes out of spans of a source stand in order. -/
theorem Nest.RunAt.standInOrder {source rest : Bytes} {limit : Int} {offset : Nat}
    {spans : List Span} {last : Nest} {faults : List Fault}
    (h : RunAt source limit offset empty spans last faults) (hspans : spans ⊆ Span.all rest)
    (hstands : Stands source offset (Span.textOf spans)) :
    StandInOrder source (Token.preorderAll last.tokens)
      ((Span.beginnings offset [] spans).map Site.offset) := by
  have hmem : ∀ site ∈ Span.beginnings offset [] spans, site ∈ Span.sites offset [] spans :=
    fun site hsite => List.mem_of_mem_filter hsite
  apply standInOrder_of_sites
  · have houtline := h.outline_eq [] hspans
    rw [← outline_tokens, Token.outline] at houtline
    exact houtline
  · exact fun site hsite => Span.stands_of_mem_sites hstands (hmem site hsite)
  · intro site hsite
    exact Span.text_ne_nil_of_mem_all (hspans (Span.span_mem_of_mem_sites (hmem site hsite)))
  · exact (Span.pairwise_sites offset [] spans).filter _

/-! ## Calls of a lexer -/

namespace Lexer

/-- The lexer of a source behind a number of calls. -/
def afterCalls (source : Bytes) (limit : Int) : Nat → Lexer
  | 0 => ofSource source limit
  | calls + 1 => (afterCalls source limit calls).tokenize.2

/-- What is left for a lexer stands at an offset of the source, and the lexer knows its place. -/
structure LeavesAt (source : Bytes) (lexer : Lexer) (offset : Nat) : Prop where
  rest : lexer.rest = source.drop offset
  position : lexer.position = placeAt source offset

/-- How a call ends that is left with these spans, the first one at an offset.  It takes all of them
and reports the openers without a closer, or it takes those before an opener beyond the limit and
reports that opener. -/
inductive Ends (limit : Int) (offset : Nat) (spans : List Span) : List Span → List Flaw → Prop
  | finished : Ends limit offset spans spans
      ((Span.openBehind offset [] spans).map Opener.unclosed)
  | stopped {before after : List Span} {d : Delimiter}
      (spans_eq : spans = before ++ ⟨[d.opening], .opener d, []⟩ :: after)
      (beyond : limit ≤ (Span.openBehind offset [] before).length) :
      Ends limit offset spans before
        [⟨offset + (Span.textOf before).length, [d.opening], .tooDeep limit⟩]

/-- What one call does with a source: it begins at an offset, takes spans, and ends with some flaws
to report. -/
structure Call (source : Bytes) (lexer : Lexer) (offset : Nat) (taken : List Span)
    (ending : List Flaw) : Prop where
  begins : LeavesAt source lexer offset
  ends : Ends lexer.limit offset (Span.all lexer.rest) taken ending
  /-- A walk over the tokens meets the leaves and openers that were taken, each where it stands. -/
  tokens : StandInOrder source (Token.preorderAll lexer.tokenize.1)
    ((Span.beginnings offset [] taken).map Site.offset)
  /-- Each fault is on the line of the first byte of what it is about. -/
  faults : lexer.tokenize.2.faults = lexer.faults ++
    ((Span.sites offset [] taken).flatMap (Site.flaws source) ++ ending).map (Flaw.fault source)
  genuine : ∀ flaw ∈ (Span.sites offset [] taken).flatMap (Site.flaws source) ++ ending,
    flaw.Genuine source
  leaves : ∃ behind, LeavesAt source lexer.tokenize.2 behind

section Call

variable {source : Bytes} {limit : Int} {lexer : Lexer} {offset : Nat}

theorem leavesAt_ofSource (source : Bytes) (limit : Int) :
    LeavesAt source (ofSource source limit) 0 :=
  ⟨rfl, rfl⟩

theorem LeavesAt.stands (h : LeavesAt source lexer offset) :
    Stands source offset (Span.textOf (Span.all lexer.rest)) := by
  rw [Span.textOf_all, h.rest]
  exact List.prefix_refl _

/-- Behind a text that the rest begins with, a lexer knows where it is. -/
theorem LeavesAt.behind {text left : Bytes} {others : List Fault}
    (h : LeavesAt source lexer offset) (hrest : lexer.rest = text ++ left) :
    LeavesAt source
      { lexer with rest := left, position := lexer.position.after text, faults := others }
      (offset + text.length) := by
  have hdrop : source.drop offset = text ++ left := by rw [← h.rest, hrest]
  constructor
  · show left = source.drop (offset + text.length)
    rw [← List.drop_drop, hdrop, List.drop_left]
  · show lexer.position.after text = _
    rw [h.position]
    exact Stands.after_placeAt ⟨left, hdrop.symm⟩

/-- A call that takes all spans. -/
theorem LeavesAt.call_of_run {last : Nest} {faults : List Fault}
    (h : LeavesAt source lexer offset)
    (hrun : Nest.Run lexer.limit .empty lexer.position (Span.all lexer.rest) last faults) :
    Call source lexer offset (Span.all lexer.rest)
      ((Span.openBehind offset [] (Span.all lexer.rest)).map Opener.unclosed) := by
  have hcall := tokenize_of_run hrun
  have hspans := List.Subset.refl (Span.all lexer.rest)
  have hstands := h.stands
  have hat := hrun.runAt h.position hstands
  have hopened := hat.opensAt Nest.opensAt_empty
  constructor
  case begins => exact h
  case ends => exact .finished
  case tokens =>
    rw [hcall]
    exact hat.standInOrder hspans hstands
  case faults =>
    rw [hcall, List.map_append, ← hat.faults_eq Nest.opensAt_empty, ← hopened.unclosed_eq]
  case genuine =>
    intro flaw hflaw
    rcases List.mem_append.1 hflaw with hflaw | hflaw
    · exact genuine_of_mem_flaws hspans hstands flaw hflaw
    · exact genuine_unclosed hspans hstands flaw hflaw
  case leaves =>
    rw [hcall]
    exact ⟨_, h.behind (List.append_nil _).symm⟩

/-- A call that takes the spans before an opener beyond the limit. -/
theorem LeavesAt.call_of_refused {before after : List Span} {d : Delimiter} {last : Nest}
    {faults : List Fault} (h : LeavesAt source lexer offset)
    (hall : Span.all lexer.rest = before ++ ⟨[d.opening], .opener d, []⟩ :: after)
    (hrun : Nest.Run lexer.limit .empty lexer.position before last faults)
    (hdepth : lexer.limit ≤ last.depth) :
    Call source lexer offset before
      [⟨offset + (Span.textOf before).length, [d.opening], .tooDeep lexer.limit⟩] := by
  have hcall := tokenize_of_refused hall hrun hdepth
  have hspans : before ⊆ Span.all lexer.rest := by
    rw [hall]
    exact List.subset_append_left _ _
  have hrest := h.stands
  rw [hall, Span.textOf_append, Span.textOf_cons] at hrest
  have hstands := hrest.left
  have hat := hrun.runAt h.position hstands
  have hopened := hat.opensAt Nest.opensAt_empty
  constructor
  case begins => exact h
  case ends => exact .stopped hall (by rwa [← hopened.length_eq])
  case tokens =>
    rw [hcall]
    exact hat.standInOrder hspans hstands
  case faults =>
    rw [hcall, h.position, hstands.after_placeAt, List.map_append,
      ← hat.faults_eq Nest.opensAt_empty]
    rfl
  case genuine =>
    intro flaw hflaw
    rcases List.mem_append.1 hflaw with hflaw | hflaw
    · exact genuine_of_mem_flaws hspans hstands flaw hflaw
    · obtain rfl := List.mem_singleton.1 hflaw
      exact ⟨hrest.right.left, d, rfl⟩
  case leaves =>
    rw [hcall, ← Position.after_append]
    refine ⟨_, h.behind ?_⟩
    rw [← Span.textOf_all lexer.rest, hall, Span.textOf_append, Span.textOf_cons,
      List.append_assoc]

theorem LeavesAt.exists_call (h : LeavesAt source lexer offset) :
    ∃ taken ending, Call source lexer offset taken ending := by
  rcases run_or_refused lexer with
    ⟨last, faults, hrun⟩ | ⟨before, d, after, last, faults, hspans, hrun, hdepth⟩
  · exact ⟨_, _, h.call_of_run hrun⟩
  · exact ⟨_, _, h.call_of_refused hspans hrun hdepth⟩

/-- After any number of calls, a lexer knows where its source goes on. -/
theorem exists_leavesAt (source : Bytes) (limit : Int) (calls : Nat) :
    ∃ offset, LeavesAt source (afterCalls source limit calls) offset := by
  induction calls with
  | zero => exact ⟨0, leavesAt_ofSource source limit⟩
  | succ calls ih =>
      obtain ⟨offset, hleaves⟩ := ih
      obtain ⟨taken, ending, hcall⟩ := hleaves.exists_call
      exact hcall.leaves

end Call
end Lexer

/-- Places are truthful, whatever the source, its faults, the limit on nesting and the calls made
before.  The tokens of a call stand in the source, leaves with their lexemes and groups with their
openers, at offsets that increase in the order of a walk over them, and no two share a byte.  The
faults of a call are about constructs that stand in the source, each on the line of the first byte
of its construct: a literal, comment or byte that cannot be read, a closer that ends no group, an
opener without a closer, or the opener beyond the limit. -/
theorem tokenize_truthful (source : Bytes) (limit : Int) (calls : Nat) :
    ∃ offset taken ending,
      Lexer.Call source (Lexer.afterCalls source limit calls) offset taken ending := by
  obtain ⟨offset, hleaves⟩ := Lexer.exists_leavesAt source limit calls
  exact ⟨offset, hleaves.exists_call⟩

end RealtimeApp
