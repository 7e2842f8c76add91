import RealtimeApp.Proofs.Nesting

/-!
# Printing undoes lexing

Tokens whose leaves stand on their own are read back from their printed text: a space, a closer
and the end of the text are boundaries, so every leaf is scanned as it was before, and the groups
are nested as before as long as the limit allows their depth (`readsBack_text`).  All tokens of a
source are of this kind, whatever its faults (`lex_textAll_lex`).
-/

namespace RealtimeApp

/-- The spans that the leaves of a token come from have the property `P`. -/
def Token.FromSpans (P : Span → Prop) (t : Token) : Prop :=
  ∀ l ∈ t.leaves, ∃ span, P span ∧ span.text = l.lexeme ∧
    span.content = .leaf l.kind l.literal l.suffix

namespace Token

variable {P : Span → Prop}

theorem fromSpans_group {d : Delimiter} {position : Position} {members : List Token} :
    FromSpans P (group d position members) ↔ ∀ t ∈ members, FromSpans P t := by
  constructor
  · intro h t ht l hl
    exact h l (mem_leavesAll.2 ⟨t, ht, hl⟩)
  · intro h l hl
    obtain ⟨t, ht, hl⟩ := mem_leavesAll.1 hl
    exact h t ht l hl

end Token

/-- A span of a source that makes a leaf. -/
def Span.IsLeafOf (source : Bytes) (span : Span) : Prop :=
  span ∈ Span.all source ∧ span.content.isLeaf = true

/-- The tokens that one call reads come from the spans of what is left of the source. -/
theorem fromSpans_tokenize (lexer : Lexer) :
    ∀ t ∈ lexer.tokenize.1, t.FromSpans (Span.IsLeafOf lexer.rest) := by
  apply Nest.forall_mem_tokens_read
  · intro d position members hmembers
    exact Token.fromSpans_group.2 hmembers
  · intro span hspan kind literal suffix position hcontent l hl
    obtain rfl := List.mem_singleton.1 hl
    exact ⟨span, ⟨hspan, by rw [hcontent]; rfl⟩, rfl, hcontent⟩

/-- The tokens of a source come from its spans. -/
theorem fromSpans_lex (source : Bytes) (limit : Int) :
    ∀ t ∈ (lex source limit).1, t.FromSpans (Span.IsLeafOf source) :=
  fromSpans_tokenize (.ofSource source limit)

theorem depthAll_lex_le (source : Bytes) (limit : Int) :
    Token.depthAll (lex source limit).1 ≤ limit.toNat :=
  Nest.depthAll_tokens_read_le limit .start (Span.all source)

/-! ## Printed text -/

namespace Span

theorem all_space (rest : Bytes) : all (Byte.space :: rest) = skip Byte.space [] :: all rest := by
  rw [all_cons]
  rfl

theorem all_opening (d : Delimiter) (rest : Bytes) :
    all (d.opening :: rest) = ⟨[d.opening], .opener d, []⟩ :: all rest := by
  rw [all_cons, scan, Delimiter.ofOpening?_opening]

theorem all_closing (d : Delimiter) (rest : Bytes) :
    all (d.closing :: rest) = ⟨[d.closing], .closer d, []⟩ :: all rest := by
  have hopening : Delimiter.ofOpening? d.closing = none := by cases d <;> decide
  rw [all_cons, scan, hopening, Delimiter.ofClosing?_closing]

end Span

theorem bounded_textTail_append (ts : List Token) {rest : Bytes} (hrest : Bounded rest) :
    Bounded (Token.textTail ts ++ rest) := by
  cases ts with
  | nil => exact hrest
  | cons t ts => exact bounded_cons.2 Byte.isBoundary_space

namespace Nest

/-- More tokens in the innermost open group. -/
def pushAll (nest : Nest) (ts : List Token) : Nest :=
  { nest with members := ts.reverse ++ nest.members }

theorem pushAll_cons (nest : Nest) (t : Token) (ts : List Token) :
    nest.pushAll (t :: ts) = (nest.push t).pushAll ts := by
  simp [pushAll, push]

theorem depth_push (nest : Nest) (t : Token) : (nest.push t).depth = nest.depth := rfl

theorem depth_enter (nest : Nest) (d : Delimiter) (position : Position) :
    (nest.enter d position).depth = nest.depth + 1 := rfl

end Nest

namespace Reading

theorem withFaults_withFaults (first second : List Fault) (r : Reading) :
    (r.withFaults second).withFaults first = r.withFaults (first ++ second) := by
  simp [withFaults]

end Reading

/-- Reading a text before `rest` pushes tokens that agree with `ts` up to places, with no faults
but the complaints of their spans. -/
def ReadsBack (P : Span → Prop) (limit : Int) (text rest : Bytes) (ts : List Token)
    (nest : Nest) (position : Position) : Prop :=
  ∃ again faults behind,
    Token.unplacedAll again = Token.unplacedAll ts ∧
    (∀ fault ∈ faults, ∃ span, P span ∧ fault.complaint ∈ span.complaints) ∧
    nest.read limit position (Span.all (text ++ rest)) =
      ((nest.pushAll again).read limit behind (Span.all rest)).withFaults faults

namespace ReadsBack

variable {P : Span → Prop} {limit : Int}

theorem nil {rest : Bytes} {nest : Nest} {position : Position} :
    ReadsBack P limit [] rest [] nest position :=
  ⟨[], [], position, rfl, by simp, rfl⟩

/-- A text is read back when its first token is and then, from any place, the others are. -/
theorem cons {text more rest : Bytes} {t : Token} {ts : List Token} {nest : Nest}
    {position : Position} (hfirst : ReadsBack P limit text (more ++ rest) [t] nest position)
    (hmore : ∀ again behind, ReadsBack P limit more rest ts (nest.push again) behind) :
    ReadsBack P limit (text ++ more) rest (t :: ts) nest position := by
  obtain ⟨again, faults, behind, hagain, hfaults, hread⟩ := hfirst
  obtain ⟨first, rfl⟩ : ∃ first, again = [first] := by
    cases again with
    | nil => simp [Token.unplacedAll] at hagain
    | cons first others =>
        cases others with
        | nil => exact ⟨first, rfl⟩
        | cons second others => simp [Token.unplacedAll] at hagain
  obtain ⟨others, faults', end_, hothers, hfaults', hread'⟩ := hmore first behind
  refine ⟨first :: others, faults ++ faults', end_, ?_, ?_, ?_⟩
  · simp only [Token.unplacedAll, List.cons.injEq, and_true] at hagain ⊢
    exact ⟨hagain, hothers⟩
  · intro fault hfault
    rcases List.mem_append.1 hfault with hfault | hfault
    · exact hfaults fault hfault
    · exact hfaults' fault hfault
  · have hone : nest.pushAll [first] = nest.push first := rfl
    rw [List.append_assoc, hread, hone, hread', Reading.withFaults_withFaults,
      Nest.pushAll_cons]

/-- A space before a text changes places only. -/
theorem space {text rest : Bytes} {ts : List Token} {nest : Nest} {position : Position}
    (h : ∀ position, ReadsBack P limit text rest ts nest position) :
    ReadsBack P limit (Byte.space :: text) rest ts nest position := by
  obtain ⟨again, faults, behind, hagain, hfaults, hread⟩ := h (position.after [Byte.space])
  refine ⟨again, faults, behind, hagain, hfaults, ?_⟩
  rw [List.cons_append, Span.all_space, Nest.read_skipped rfl]
  exact hread

/-- A group is read back when its members are. -/
theorem group {text rest : Bytes} {ts : List Token} {nest : Nest} {position place : Position}
    {d : Delimiter} (hdepth : nest.depth < limit)
    (h : ∀ behind, ReadsBack P limit text (d.closing :: rest) ts (nest.enter d position) behind) :
    ReadsBack P limit (d.opening :: (text ++ [d.closing])) rest [.group d place ts] nest
      position := by
  obtain ⟨again, faults, behind, hagain, hfaults, hread⟩ := h (position.after [d.opening])
  refine ⟨[.group d position again], faults, behind.after [d.closing], ?_, hfaults, ?_⟩
  · simp only [Token.unplacedAll, Token.unplaced, hagain]
  · have hleave : ((nest.enter d position).pushAll again).leave d =
        .ok (nest.pushAll [.group d position again]) := by
      simp [Nest.leave, Nest.enter, Nest.pushAll, Frame.close]
    have happend : d.opening :: (text ++ [d.closing]) ++ rest =
        d.opening :: (text ++ d.closing :: rest) := by simp
    rw [happend, Span.all_opening, Nest.read_opener rfl hdepth]
    show (Nest.read limit (nest.enter d position) (position.after [d.opening]) _).withFaults [] = _
    rw [hread, Span.all_closing, Nest.read_closer rfl hleave]
    rfl

/-- A leaf that stands on its own is read back, with the complaints of its span. -/
theorem leaf {rest : Bytes} {l : Leaf} {nest : Nest} {position : Position} {span : Span}
    (hspan : P span) (halone : span.StandsAlone) (htext : span.text = l.lexeme)
    (hcontent : span.content = .leaf l.kind l.literal l.suffix) (hrest : Bounded rest) :
    ReadsBack P limit l.lexeme rest [.leaf l] nest position := by
  refine ⟨[.leaf { l with position := position }], span.complaints.map (Fault.mk position.line),
    position.after span.text, rfl, ?_, ?_⟩
  · intro fault hfault
    obtain ⟨complaint, hcomplaint, rfl⟩ := List.mem_map.1 hfault
    exact ⟨span, hspan, hcomplaint⟩
  · rw [← htext, halone rest hrest, Nest.read_leaf hcontent, htext]
    rfl

end ReadsBack

section ReadText

variable {P : Span → Prop} {limit : Int}

/-- The members of a group are read back behind each other. -/
theorem readsBack_textTail {ts : List Token}
    (h : ∀ t ∈ ts, ∀ rest nest position, Bounded rest →
      nest.depth + t.depth ≤ max limit nest.depth →
        ReadsBack P limit t.text rest [t] nest position) :
    ∀ rest nest position, Bounded rest → nest.depth + Token.depthAll ts ≤ max limit nest.depth →
      ReadsBack P limit (Token.textTail ts) rest ts nest position := by
  induction ts with
  | nil =>
      intro rest nest position _ _
      exact ReadsBack.nil
  | cons t ts ih =>
      intro rest nest position hrest hdepth
      rw [Token.depthAll] at hdepth
      have hmore := ih (fun u hu => h u (List.mem_cons_of_mem t hu))
      apply ReadsBack.space
      intro position
      apply ReadsBack.cons
      · exact h t List.mem_cons_self _ nest position (bounded_textTail_append ts hrest) (by omega)
      · intro again behind
        exact hmore rest (nest.push again) behind hrest (by rw [Nest.depth_push]; omega)

theorem readsBack_textAll {ts : List Token}
    (h : ∀ t ∈ ts, ∀ rest nest position, Bounded rest →
      nest.depth + t.depth ≤ max limit nest.depth →
        ReadsBack P limit t.text rest [t] nest position) {rest : Bytes} {nest : Nest}
    {position : Position} (hrest : Bounded rest)
    (hdepth : nest.depth + Token.depthAll ts ≤ max limit nest.depth) :
    ReadsBack P limit (Token.textAll ts) rest ts nest position := by
  cases ts with
  | nil => exact ReadsBack.nil
  | cons t ts =>
      rw [Token.depthAll] at hdepth
      have hmore := readsBack_textTail (fun u hu => h u (List.mem_cons_of_mem t hu))
      apply ReadsBack.cons
      · exact h t List.mem_cons_self _ nest position (bounded_textTail_append ts hrest) (by omega)
      · intro again behind
        exact hmore rest (nest.push again) behind hrest (by rw [Nest.depth_push]; omega)

/-- A token whose leaves stand on their own is read back from its text before any boundary, under
a limit that allows its groups. -/
theorem readsBack_text (halone : ∀ span, P span → span.StandsAlone)
    (t : Token) (hfrom : t.FromSpans P) :
    ∀ rest nest position, Bounded rest → nest.depth + t.depth ≤ max limit nest.depth →
      ReadsBack P limit t.text rest [t] nest position := by
  induction t using Token.induction with
  | leaf l =>
      intro rest nest position hrest _
      obtain ⟨span, hspan, htext, hcontent⟩ := hfrom l List.mem_cons_self
      exact ReadsBack.leaf hspan (halone span hspan) htext hcontent hrest
  | group d place members ih =>
      -- the members are read back one group deeper, before the closer
      intro rest nest position hrest hdepth
      rw [Token.depth] at hdepth
      apply ReadsBack.group
      · omega
      · intro behind
        apply readsBack_textAll
        · exact fun t ht => ih t ht (Token.fromSpans_group.1 hfrom t ht)
        · exact bounded_cons.2 (Byte.isBoundary_closing d)
        · rw [Nest.depth_enter]
          omega

end ReadText

/-- Lexing printed tokens under a limit that allows their groups gives the same tokens up to
places, and no faults but the complaints of their spans. -/
theorem lex_textAll {P : Span → Prop} {ts : List Token} {limit : Int}
    (halone : ∀ span, P span → span.StandsAlone)
    (hfrom : ∀ t ∈ ts, t.FromSpans P) (hdepth : Token.depthAll ts ≤ limit.toNat) :
    Token.unplacedAll (lex (Token.textAll ts) limit).1 = Token.unplacedAll ts ∧
      ∀ fault ∈ (lex (Token.textAll ts) limit).2,
        ∃ span, P span ∧ fault.complaint ∈ span.complaints := by
  have hback : ReadsBack P limit (Token.textAll ts) [] ts Nest.empty .start := by
    apply readsBack_textAll (fun t ht => readsBack_text halone t (hfrom t ht)) bounded_nil
    show ((0 : Nat) : Int) + Token.depthAll ts ≤ max limit (0 : Nat)
    omega
  obtain ⟨again, faults, behind, hagain, hfaults, hread⟩ := hback
  have hlex : lex (Token.textAll ts) limit = (again, faults) := by
    rw [List.append_nil, Span.all_nil, Nest.read_nil] at hread
    simp only [lex, Lexer.tokenize, Lexer.ofSource, hread]
    simp [Reading.withFaults, Reading.unclosed, Nest.unclosed, Nest.tokens, Nest.pushAll,
      Nest.empty]
  rw [hlex]
  exact ⟨hagain, hfaults⟩

/-- Printed tokens are lexed again without a fault when their spans give no cause for complaint. -/
theorem faults_lex_textAll_eq_nil {P : Span → Prop} {ts : List Token} {limit : Int}
    (halone : ∀ span, P span → span.StandsAlone)
    (hfrom : ∀ t ∈ ts, t.FromSpans P) (hdepth : Token.depthAll ts ≤ limit.toNat)
    (hcomplaints : ∀ span, P span → span.complaints = []) :
    (lex (Token.textAll ts) limit).2 = [] := by
  refine List.eq_nil_iff_forall_not_mem.2 ?_
  intro fault hfault
  obtain ⟨span, hspan, hcomplaint⟩ := (lex_textAll halone hfrom hdepth).2 fault hfault
  rw [hcomplaints span hspan] at hcomplaint
  cases hcomplaint

/-- Printing undoes lexing, whatever the source, its faults and the limit on nesting: lexing the
printed tokens again gives tokens that are the same, are decoded alike and are printed alike.  The
only faults that come up again are escapes that stand for nothing, and none does when the source
had no fault. -/
theorem lex_textAll_lex (source : Bytes) (limit : Int) :
    ∃ again faults, lex (Token.textAll (lex source limit).1) limit = (again, faults) ∧
      Token.sameAll again (lex source limit).1 = true ∧
      (Token.leavesAll again).map Token.decoded =
        (Token.leavesAll (lex source limit).1).map Token.decoded ∧
      Token.textAll again = Token.textAll (lex source limit).1 ∧
      (∀ fault ∈ faults, fault.complaint.IsUnknownEscape) ∧
      ((lex source limit).2 = [] → faults = []) := by
  have halone : ∀ span, Span.IsLeafOf source span → span.StandsAlone := fun span hspan =>
    Span.standsAlone_of_mem_all hspan.1 hspan.2
  have hfrom := fromSpans_lex source limit
  have hdepth := depthAll_lex_le source limit
  obtain ⟨hagain, hfaults⟩ := lex_textAll halone hfrom hdepth
  have hsame := Token.sameAll_of_unplacedAll_eq hagain
  refine ⟨_, _, rfl, hsame, Token.leavesAll_decoded_eq hagain, Token.textAll_eq_of_sameAll hsame,
    ?_, ?_⟩
  · intro fault hfault
    obtain ⟨span, hspan, hcomplaint⟩ := hfaults fault hfault
    exact Span.unknownEscape_of_mem_all hspan.1 hspan.2 fault.complaint hcomplaint
  · intro hnone
    obtain ⟨hcomplaints, -⟩ := lexemesAll_lex hnone
    exact faults_lex_textAll_eq_nil halone hfrom hdepth fun span hspan => hcomplaints span hspan.1

end RealtimeApp
