import RealtimeApp.Proofs.Nesting

/-!
# The layout of a source

A source without faults is its lexemes and delimiters in order, with a gap before each of them
and one behind the last (`layout_of_lex`).  Gaps are blanks and comments; the marks of a block
comment are balanced.
-/

namespace RealtimeApp

/-! ## Gaps -/

/-- One blank or one whole comment; the newline that ends a line comment counts with it. -/
inductive Filler : Bytes → Prop
  | blank {b : UInt8} : Byte.isBlank b = true → Filler [b]
  | line {text : Bytes} : Byte.newline ∉ text →
      Filler (ascii '/' :: ascii '/' :: (text ++ [Byte.newline]))
  | block {text : Bytes} : BlockComment.Balanced text → Filler (BlockComment.opening ++ text)

/-- What may stand before a lexeme: blanks and comments. -/
def IsGap (gap : Bytes) : Prop :=
  ∃ pieces : List Bytes, (∀ p ∈ pieces, Filler p) ∧ gap = pieces.flatten

/-- What may stand behind the last lexeme: a gap, and perhaps a line comment that the end of the
source ends. -/
def IsLastGap (gap : Bytes) : Prop :=
  IsGap gap ∨ ∃ front text, IsGap front ∧ Byte.newline ∉ text ∧
    gap = front ++ ascii '/' :: ascii '/' :: text

/-- A source is made of lexemes in order, with a gap before each and one behind the last. -/
inductive Layout : List Bytes → Bytes → Prop
  | last {gap : Bytes} : IsLastGap gap → Layout [] gap
  | lexeme {gap first rest : Bytes} {others : List Bytes} :
      IsGap gap → Layout others rest → Layout (first :: others) (gap ++ (first ++ rest))

theorem isGap_nil : IsGap [] := ⟨[], by simp, rfl⟩

theorem Filler.isGap_append {piece gap : Bytes} (hpiece : Filler piece) (hgap : IsGap gap) :
    IsGap (piece ++ gap) := by
  obtain ⟨pieces, hpieces, rfl⟩ := hgap
  exact ⟨piece :: pieces, List.forall_mem_cons.2 ⟨hpiece, hpieces⟩, rfl⟩

/-- A blank or a comment in front of a source lengthens its first gap. -/
theorem Layout.filler {piece source : Bytes} {lexemes : List Bytes} (hpiece : Filler piece)
    (h : Layout lexemes source) : Layout lexemes (piece ++ source) := by
  cases h with
  | last hlast =>
      apply Layout.last
      rcases hlast with hgap | ⟨front, text, hfront, htext, rfl⟩
      · exact .inl (hpiece.isGap_append hgap)
      · refine .inr ⟨piece ++ front, text, hpiece.isGap_append hfront, htext, ?_⟩
        rw [List.append_assoc]
  | lexeme hgap hrest =>
      rw [← List.append_assoc]
      exact Layout.lexeme (hpiece.isGap_append hgap) hrest

/-! ## Whole sources -/

theorem Span.all_newline (rest : Bytes) :
    all (Byte.newline :: rest) = skip Byte.newline [] :: all rest := by
  rw [all_cons]
  rfl

/-- A blank or a comment goes before a source that is laid out.  A line comment takes the newline
behind it into the gap, which leaves the source behind that newline. -/
theorem Skipped.layout {behind text : Bytes} (h : Skipped behind text)
    (hbehind : Layout (Nest.lexemesOf (Span.all behind)) behind)
    (hmore : ∀ more, behind = Byte.newline :: more →
      Layout (Nest.lexemesOf (Span.all more)) more) :
    Layout (Nest.lexemesOf (Span.all behind)) (text ++ behind) := by
  cases h with
  | blank hb => exact hbehind.filler (Filler.blank hb)
  | block htext => exact hbehind.filler (Filler.block htext)
  | @line text htext hstops =>
      cases behind with
      | nil =>
          rw [Span.all_nil, List.append_nil]
          exact Layout.last (.inr ⟨[], text, isGap_nil, htext, rfl⟩)
      | cons b more =>
          obtain rfl : b = Byte.newline := by simpa using stops_cons.1 hstops
          have hlayout := (hmore more rfl).filler (Filler.line htext)
          rw [Span.all_newline, Nest.lexemesOf_cons_skipped rfl]
          simpa using hlayout

/-- A source without complaints is laid out as the lexemes and delimiters among its spans. -/
theorem layout_of_complaints_eq_nil (source : Bytes)
    (h : ∀ span ∈ Span.all source, span.complaints = []) :
    Layout (Nest.lexemesOf (Span.all source)) source := by
  -- by length, since a line comment takes with it the newline of the span behind it
  obtain ⟨n, hn⟩ : ∃ n, source.length ≤ n := ⟨_, Nat.le_refl _⟩
  induction n generalizing source with
  | zero =>
      obtain rfl := List.length_eq_zero_iff.1 (Nat.le_zero.1 hn)
      rw [Span.all_nil]
      exact Layout.last (.inl isGap_nil)
  | succ n ih =>
      cases source with
      | nil =>
          rw [Span.all_nil]
          exact Layout.last (.inl isGap_nil)
      | cons b rest =>
          have hsplit := (Span.splits_scan b rest).append
          have hshorter := Span.length_scan_lt b rest
          have houtcome := Span.outcome_scan b rest
          rw [Span.all_cons] at h ⊢
          obtain ⟨hfirst, hothers⟩ := List.forall_mem_cons.1 h
          generalize Span.scan b rest = scanned at hsplit hshorter houtcome hfirst hothers ⊢
          obtain ⟨span, behind⟩ := scanned
          have hlength : behind.length ≤ n := Nat.le_of_lt_succ (Nat.lt_of_lt_of_le hshorter hn)
          have hbehind := ih behind hothers hlength
          rw [← hsplit]
          have hlexeme : span.content ≠ .skipped →
              Layout (Nest.lexemesOf (span :: Span.all behind)) (span.text ++ behind) := by
            intro hcontent
            rw [Nest.lexemesOf_cons hcontent, ← List.nil_append (span.text ++ behind)]
            exact Layout.lexeme isGap_nil hbehind
          cases houtcome with
          | leaf _ | opener d | closer d => exact hlexeme (by simp)
          | fault hcomplaints => exact absurd hfirst hcomplaints
          | skipped htext =>
              rw [Nest.lexemesOf_cons_skipped rfl]
              refine htext.layout hbehind ?_
              rintro more rfl
              rw [Span.all_newline] at hothers
              exact ih more (List.forall_mem_cons.1 hothers).2 (Nat.le_of_succ_le hlength)

/-- A source without faults is made of gaps and of the lexemes and delimiters of its tokens, in
the order in which a walk over the tokens meets them: every byte of it belongs to one lexeme, one
delimiter, one blank or one comment. -/
theorem layout_of_lex {source : Bytes} {limit : Int} (h : (lex source limit).2 = []) :
    Layout (Token.lexemesAll (lex source limit).1) source := by
  obtain ⟨hcomplaints, hlexemes⟩ := lexemesAll_lex h
  rw [hlexemes]
  exact layout_of_complaints_eq_nil source hcomplaints

theorem layout_of_lex_comments :
    (lex (Bytes.ofString "a/* b /**/ */(c)// d") 64).2 = [] ∧
      Layout (Token.lexemesAll (lex (Bytes.ofString "a/* b /**/ */(c)// d") 64).1)
        (Bytes.ofString "a/* b /**/ */(c)// d") := by
  have hfaults : (lex (Bytes.ofString "a/* b /**/ */(c)// d") 64).2 = [] := by
    decide +kernel
  exact ⟨hfaults, layout_of_lex hfaults⟩

end RealtimeApp
