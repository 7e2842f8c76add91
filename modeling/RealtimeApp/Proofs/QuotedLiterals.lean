import RealtimeApp.Proofs.ReachedStates

/-!
# String and character literals are decoded exactly

The content of a literal is a sequence of pieces: bytes that stand for themselves, and escapes
(`Quoted.Piece`).  Scanning takes pieces up to a quote (`Quoted.scan_pieces`), and what it takes
without an unknown escape is pieces (`Quoted.exists_pieces`).  It comes to a closing quote exactly
where a quote follows that no backslash escapes (`Quoted.closed_iff`).
-/

namespace RealtimeApp

/-- The escapes. -/
inductive Escape where
  | newline
  | tab
  | carriageReturn
  | zero
  | backslash
  | apostrophe
  | quote
  deriving DecidableEq, Repr

namespace Escape

/-- The byte behind the backslash. -/
def letter : Escape → UInt8
  | newline => ascii 'n'
  | tab => ascii 't'
  | carriageReturn => ascii 'r'
  | zero => ascii '0'
  | backslash => Byte.backslash
  | apostrophe => Byte.apostrophe
  | quote => Byte.quote

/-- The byte that the escape stands for. -/
def meaning : Escape → UInt8
  | newline => Byte.newline
  | tab => Byte.tab
  | carriageReturn => Byte.carriageReturn
  | zero => 0
  | backslash => Byte.backslash
  | apostrophe => Byte.apostrophe
  | quote => Byte.quote

theorem unescape?_letter (e : Escape) : unescape? e.letter = some e.meaning := by
  cases e <;> decide

/-- Only the letters of escapes stand for something behind a backslash. -/
theorem exists_of_unescape? {b meant : UInt8} (h : unescape? b = some meant) :
    ∃ e : Escape, b = e.letter ∧ meant = e.meaning := by
  have hletter : ∃ e : Escape, b = e.letter := by
    unfold unescape? at h
    split at h
    · exact ⟨newline, by assumption⟩
    split at h
    · exact ⟨tab, by assumption⟩
    split at h
    · exact ⟨carriageReturn, by assumption⟩
    split at h
    · exact ⟨zero, by assumption⟩
    split at h
    · exact ⟨backslash, by assumption⟩
    split at h
    · exact ⟨apostrophe, by assumption⟩
    split at h
    · exact ⟨quote, by assumption⟩
    · cases h
  obtain ⟨e, rfl⟩ := hletter
  exact ⟨e, rfl, Option.some.inj (h.symm.trans e.unescape?_letter)⟩

end Escape

namespace Quoted

/-- A piece of a literal: a byte that stands for itself, or an escape. -/
inductive Piece where
  | raw (b : UInt8) (hquote : b ≠ Byte.quote) (hbackslash : b ≠ Byte.backslash)
  | escape (e : Escape)

namespace Piece

/-- How a piece is written. -/
def text : Piece → Bytes
  | raw b _ _ => [b]
  | escape e => [Byte.backslash, e.letter]

/-- The byte that a piece stands for. -/
def value : Piece → UInt8
  | raw b _ _ => b
  | escape e => e.meaning

end Piece

/-- How pieces are written. -/
def textOf (pieces : List Piece) : Bytes := pieces.flatMap Piece.text

/-- The bytes that pieces stand for. -/
def valueOf (pieces : List Piece) : Bytes := pieces.map Piece.value

/-! ## Pieces up to a quote -/

theorem consEscape_letter (e : Escape) (q : Quoted) :
    q.consEscape e.letter =
      { q with text := Byte.backslash :: e.letter :: q.text, value := e.meaning :: q.value } := by
  rw [consEscape, e.unescape?_letter]

/-- Pieces are scanned up to the quote behind them, as what they stand for. -/
theorem scan_pieces (pieces : List Piece) (rest : Bytes) :
    scan (textOf pieces ++ Byte.quote :: rest) =
      (⟨textOf pieces ++ [Byte.quote], valueOf pieces, [], true⟩, rest) := by
  induction pieces with
  | nil => exact scan_quote rest
  | cons piece pieces ih =>
      cases piece with
      | raw b hquote hbackslash =>
          show scan (b :: (textOf pieces ++ Byte.quote :: rest)) = _
          rw [scan_byte hquote hbackslash, ih]
          rfl
      | escape e =>
          show scan (Byte.backslash :: e.letter :: (textOf pieces ++ Byte.quote :: rest)) = _
          rw [scan_backslash, ih, Prod.map, consEscape_letter]
          rfl

/-- What is scanned up to a quote without an unknown escape is pieces. -/
theorem exists_pieces {input : Bytes} (hclosed : (scan input).1.closed = true)
    (hunknown : (scan input).1.unknown = []) :
    ∃ pieces, (scan input).1.text = textOf pieces ++ [Byte.quote] ∧
      (scan input).1.value = valueOf pieces := by
  fun_induction scan input with
  | case1 => cases hclosed
  | case2 rest => exact ⟨[], rfl, rfl⟩
  | case3 => cases hclosed
  | case4 b behind _ ih =>
      simp only [Prod.map_fst, closed_consEscape] at hclosed hunknown ⊢
      cases hmeant : unescape? b with
      | none => simp [consEscape, hmeant] at hunknown
      | some meant =>
          obtain ⟨e, rfl, rfl⟩ := Escape.exists_of_unescape? hmeant
          rw [consEscape_letter] at hunknown ⊢
          obtain ⟨pieces, htext, hvalue⟩ := ih hclosed hunknown
          exact ⟨.escape e :: pieces, by rw [htext]; rfl, by rw [hvalue]; rfl⟩
  | case5 b rest hquote hbackslash ih =>
      obtain ⟨pieces, htext, hvalue⟩ := ih hclosed hunknown
      refine ⟨.raw b hquote hbackslash :: pieces, ?_, ?_⟩
      · rw [Prod.map_fst, text_consByte, htext]
        rfl
      · rw [Prod.map_fst, consByte, hvalue]
        rfl

/-! ## The closing quote -/

/-- How many backslashes a text ends with. -/
def backslashesAtEnd (text : Bytes) : Nat :=
  (text.reverse.takeWhile (· == Byte.backslash)).length

/-- A quote stands in the text with an even number of backslashes right before it, so that each of
them is escaped by another one and the quote is not. -/
def HasUnescapedQuote (text : Bytes) : Prop :=
  ∃ before after, text = before ++ Byte.quote :: after ∧ backslashesAtEnd before % 2 = 0

theorem backslashesAtEnd_cons {b : UInt8} (h : b ≠ Byte.backslash) (text : Bytes) :
    backslashesAtEnd (b :: text) = backslashesAtEnd text := by
  rw [backslashesAtEnd, backslashesAtEnd, List.reverse_cons, List.takeWhile_append]
  split
  · rename_i hall
    simp [h, hall]
  · rfl

theorem backslashesAtEnd_backslash_cons (e : UInt8) (text : Bytes) :
    backslashesAtEnd (Byte.backslash :: e :: text) % 2 = backslashesAtEnd text % 2 := by
  have hsplit : (Byte.backslash :: e :: text).reverse = text.reverse ++ [e, Byte.backslash] := by
    simp
  rw [backslashesAtEnd, backslashesAtEnd, hsplit, List.takeWhile_append]
  split
  · rename_i hall
    by_cases he : e = Byte.backslash
    · subst he
      simp [hall]
    · simp [he, hall]
  · rfl

theorem not_hasUnescapedQuote_nil : ¬HasUnescapedQuote [] := by
  rintro ⟨before, after, htext, -⟩
  simp at htext

theorem not_hasUnescapedQuote_backslash : ¬HasUnescapedQuote [Byte.backslash] := by
  rintro ⟨before, after, htext, -⟩
  cases before with
  | nil => exact absurd (List.cons.inj htext).1 (by decide)
  | cons c before => simp at htext

theorem hasUnescapedQuote_quote (rest : Bytes) : HasUnescapedQuote (Byte.quote :: rest) :=
  ⟨[], rest, rfl, rfl⟩

theorem hasUnescapedQuote_byte {b : UInt8} (hquote : b ≠ Byte.quote)
    (hbackslash : b ≠ Byte.backslash) (rest : Bytes) :
    HasUnescapedQuote (b :: rest) ↔ HasUnescapedQuote rest := by
  constructor
  · rintro ⟨before, after, htext, heven⟩
    cases before with
    | nil => exact absurd (List.cons.inj htext).1 hquote
    | cons c before =>
        obtain ⟨rfl, hrest⟩ := List.cons.inj htext
        exact ⟨before, after, hrest, by rwa [backslashesAtEnd_cons hbackslash] at heven⟩
  · rintro ⟨before, after, rfl, heven⟩
    exact ⟨b :: before, after, rfl, by rwa [backslashesAtEnd_cons hbackslash]⟩

theorem hasUnescapedQuote_backslash (e : UInt8) (rest : Bytes) :
    HasUnescapedQuote (Byte.backslash :: e :: rest) ↔ HasUnescapedQuote rest := by
  constructor
  · rintro ⟨before, after, htext, heven⟩
    match before, htext, heven with
    | [], htext, _ => exact absurd (List.cons.inj htext).1 (by decide)
    | [c], htext, heven =>
        -- the byte behind the backslash is no unescaped quote
        obtain ⟨rfl, -⟩ := List.cons.inj htext
        exact absurd heven (by decide)
    | c :: d :: before, htext, heven =>
        simp only [List.cons_append, List.cons.injEq] at htext
        obtain ⟨rfl, rfl, hrest⟩ := htext
        exact ⟨before, after, hrest, by rwa [backslashesAtEnd_backslash_cons] at heven⟩
  · rintro ⟨before, after, rfl, heven⟩
    exact ⟨Byte.backslash :: e :: before, after, rfl, by rwa [backslashesAtEnd_backslash_cons]⟩

/-- A literal is closed exactly when a quote follows that is not escaped. -/
theorem closed_iff (input : Bytes) :
    (scan input).1.closed = true ↔ HasUnescapedQuote input := by
  fun_induction scan input with
  | case1 => simp [not_hasUnescapedQuote_nil]
  | case2 rest => simp [hasUnescapedQuote_quote]
  | case3 => simp [not_hasUnescapedQuote_backslash]
  | case4 b behind _ ih =>
      rw [hasUnescapedQuote_backslash, ← ih, Prod.map_fst, closed_consEscape]
  | case5 b rest hquote hbackslash ih =>
      rw [hasUnescapedQuote_byte hquote hbackslash, ← ih, Prod.map_fst, closed_consByte]

/-- A literal that is not closed goes to the end of the source. -/
theorem rest_eq_nil {input : Bytes} (h : (scan input).1.closed = false) : (scan input).2 = [] := by
  fun_induction scan input with
  | case1 => rfl
  | case2 rest => cases h
  | case3 => rfl
  | case4 b behind _ ih => exact ih (by simpa using h)
  | case5 b rest _ _ ih => exact ih (by simpa using h)

end Quoted

/-! ## Leaves of a source -/

namespace Leaf

/-- The leaf is written as pieces between quotes and stands for what they stand for. -/
def IsString (leaf : Leaf) : Prop :=
  ∃ pieces, leaf.lexeme = Byte.quote :: (Quoted.textOf pieces ++ [Byte.quote]) ∧
    leaf.literal = some (.text (Quoted.valueOf pieces))

/-- The leaf is written as one byte or one escape between apostrophes and stands for that byte, or
for the one that the escape stands for. -/
def IsCharacter (leaf : Leaf) : Prop :=
  (∃ b ≠ Byte.backslash, leaf.lexeme = [Byte.apostrophe, b, Byte.apostrophe] ∧
    leaf.literal = some (.text [b])) ∨
  ∃ e : Escape, leaf.lexeme = [Byte.apostrophe, Byte.backslash, e.letter, Byte.apostrophe] ∧
    leaf.literal = some (.text [e.meaning])

/-- A string or a character literal is decoded to what it is written for. -/
structure IsDecoded (leaf : Leaf) : Prop where
  string : leaf.kind = .string → leaf.IsString
  character : leaf.kind = .char → leaf.IsCharacter

theorem IsString.isDecoded {leaf : Leaf} (hkind : leaf.kind = .string) (h : leaf.IsString) :
    leaf.IsDecoded where
  string := fun _ => h
  character := fun hchar => by cases hkind.symm.trans hchar

theorem IsCharacter.isDecoded {leaf : Leaf} (hkind : leaf.kind = .char) (h : leaf.IsCharacter) :
    leaf.IsDecoded where
  string := fun hstring => by cases hkind.symm.trans hstring
  character := fun _ => h

theorem isDecoded_of_ne {leaf : Leaf} (hstring : leaf.kind ≠ .string) (hchar : leaf.kind ≠ .char) :
    leaf.IsDecoded :=
  ⟨fun h => absurd h hstring, fun h => absurd h hchar⟩

end Leaf

namespace Span

theorem scan_closed {rest : Bytes} (h : (Quoted.scan rest).1.closed = true) :
    scan Byte.quote rest =
      (⟨Byte.quote :: (Quoted.scan rest).1.text,
        .leaf .string (some (.text (Quoted.scan rest).1.value)) [],
        (Quoted.scan rest).1.unknown.map .unknownEscape⟩, (Quoted.scan rest).2) := by
  show scanString rest = _
  simp only [scanString, h, if_true]

theorem scan_open {rest : Bytes} (h : (Quoted.scan rest).1.closed = false) :
    scan Byte.quote rest =
      (⟨Byte.quote :: rest, .skipped,
        (Quoted.scan rest).1.unknown.map .unknownEscape ++ [.unterminatedString]⟩, []) := by
  have hrest := Quoted.rest_eq_nil h
  have htext := Quoted.text_scan rest
  rw [hrest, List.append_nil] at htext
  show scanString rest = _
  simp [scanString, h, hrest, htext]

/-- The leaf of a span without complaints is decoded to what it is written for. -/
def Decodes (span : Span) : Prop :=
  span.complaints = [] → ∀ kind literal suffix position,
    span.content = .leaf kind literal suffix →
    Leaf.IsDecoded ⟨kind, span.text, literal, suffix, position⟩

theorem decodes_of_isLeaf_eq_false {span : Span} (h : span.content.isLeaf = false) :
    span.Decodes := by
  intro _ kind literal suffix position hcontent
  rw [hcontent] at h
  cases h

/-- Leaves of other kinds are no literals of these. -/
theorem decodes_of_ne {text suffix : Bytes} {kind : LeafKind} {literal : Option Literal}
    (hstring : kind ≠ .string) (hchar : kind ≠ .char) :
    Decodes ⟨text, .leaf kind literal suffix, []⟩ := by
  intro _ kind literal suffix position hcontent
  cases hcontent
  exact Leaf.isDecoded_of_ne hstring hchar

theorem decodes_scanString (rest : Bytes) : (scanString rest).1.Decodes := by
  simp only [scanString]
  split
  · rename_i hclosed
    intro hcomplaints kind literal suffix position hcontent
    cases hcontent
    obtain ⟨pieces, htext, hvalue⟩ :=
      Quoted.exists_pieces hclosed (List.map_eq_nil_iff.1 hcomplaints)
    exact Leaf.IsString.isDecoded rfl ⟨pieces, by rw [htext], by rw [hvalue]⟩
  · exact decodes_of_isLeaf_eq_false rfl

theorem decodes_scanEscapedCharacter (rest : Bytes) : (scanEscapedCharacter rest).1.Decodes := by
  unfold scanEscapedCharacter
  split
  · exact decodes_of_isLeaf_eq_false rfl
  simp only
  split
  · exact decodes_of_isLeaf_eq_false rfl
  split
  · intro hcomplaints kind literal suffix position hcontent
    cases hcontent
    rename_i b _ _ _ _
    cases hmeant : unescape? b with
    | none => simp [hmeant] at hcomplaints
    | some meant =>
        obtain ⟨e, rfl, rfl⟩ := Escape.exists_of_unescape? hmeant
        exact Leaf.IsCharacter.isDecoded rfl (.inr ⟨e, rfl, rfl⟩)
  · exact decodes_of_isLeaf_eq_false rfl

theorem decodes_scanLifetime (rest : Bytes) : (scanLifetime rest).1.Decodes := by
  unfold scanLifetime
  split
  · exact decodes_of_ne (by decide) (by decide)
  · exact decodes_of_isLeaf_eq_false rfl

theorem decodes_scanApostrophe (rest : Bytes) : (scanApostrophe rest).1.Decodes := by
  unfold scanApostrophe
  split
  · exact decodes_scanLifetime _
  split
  · exact decodes_scanEscapedCharacter _
  split
  · exact decodes_scanLifetime _
  split
  · rename_i hbackslash _ _ _ _
    intro _ kind literal suffix position hcontent
    cases hcontent
    exact Leaf.IsCharacter.isDecoded rfl (.inl ⟨_, hbackslash, rfl, rfl⟩)
  · exact decodes_scanLifetime _

theorem decodes_scanNumeral (input : Bytes) : (scanNumeral input).1.Decodes := by
  simp only [scanNumeral]
  split
  · apply decodes_of_ne
    · rw [Numeral.kind]
      split <;> decide
    · rw [Numeral.kind]
      split <;> decide
  · exact decodes_of_isLeaf_eq_false rfl

theorem decodes_scanWord (input : Bytes) : (scanWord input).1.Decodes := by
  simp only [scanWord, wordContent]
  split
  · exact decodes_of_ne (by decide) (by decide)
  split
  · exact decodes_of_ne (by decide) (by decide)
  · exact decodes_of_ne (by decide) (by decide)

theorem decodes_scanOperator (b : UInt8) (rest : Bytes) : (scanOperator b rest).1.Decodes := by
  unfold scanOperator
  split
  · rename_i op behind h
    obtain ⟨found, hfound, heq⟩ := Option.map_eq_some_iff.1 h
    obtain ⟨rfl, -⟩ := Prod.mk.inj heq
    have hkinds : ∀ op ∈ Operator.all, op.kind ≠ .string ∧ op.kind ≠ .char := by decide
    obtain ⟨hstring, hchar⟩ := hkinds _ (List.mem_of_find?_eq_some hfound)
    exact decodes_of_ne hstring hchar
  · exact decodes_of_isLeaf_eq_false rfl

theorem decodes_scanSlash (rest : Bytes) : (scanSlash rest).1.Decodes := by
  unfold scanSlash
  split
  · exact decodes_scanOperator _ _
  split
  · exact decodes_of_isLeaf_eq_false rfl
  split
  · exact decodes_of_isLeaf_eq_false rfl
  · exact decodes_scanOperator _ _

theorem decodes_scan (b : UInt8) (rest : Bytes) : (scan b rest).1.Decodes := by
  have hscan := scansAs_scan b
  generalize scan b = scanner at hscan ⊢
  cases hscan with
  | opener d h | closer d h | blank h => exact decodes_of_isLeaf_eq_false rfl
  | string h => exact decodes_scanString rest
  | apostrophe h => exact decodes_scanApostrophe rest
  | slash h => exact decodes_scanSlash rest
  | numeral h => exact decodes_scanNumeral (b :: rest)
  | word h => exact decodes_scanWord (b :: rest)
  | operator => exact decodes_scanOperator b rest

end Span

/-- The string and character literals of a source without faults are decoded to what they are
written for. -/
theorem isDecoded_of_mem_lex {source : Bytes} {limit : Int} (h : (lex source limit).2 = [])
    {leaf : Leaf} (hleaf : leaf ∈ Token.leavesAll (lex source limit).1) : leaf.IsDecoded := by
  obtain ⟨t, ht, hleaf⟩ := Token.mem_leavesAll.1 hleaf
  obtain ⟨span, ⟨hspan, -⟩, htext, hcontent⟩ := fromSpans_lex source limit t ht leaf hleaf
  obtain ⟨hcomplaints, -⟩ := lexemesAll_lex h
  have hdecodes := Span.forall_mem_all (p := Span.Decodes) Span.decodes_scan source span hspan
  have hdecoded := hdecodes (hcomplaints span hspan) _ _ _ leaf.position hcontent
  rwa [htext] at hdecoded

/-- Pieces between quotes are lexed as one string that stands for what the pieces stand for. -/
theorem lex_pieces (pieces : List Quoted.Piece) (limit : Int) :
    lex (Byte.quote :: (Quoted.textOf pieces ++ [Byte.quote])) limit =
      ([.leaf ⟨.string, Byte.quote :: (Quoted.textOf pieces ++ [Byte.quote]),
        some (.text (Quoted.valueOf pieces)), [], .start⟩], []) := by
  have hclosed : (Quoted.scan (Quoted.textOf pieces ++ [Byte.quote])).1.closed = true := by
    rw [Quoted.scan_pieces]
  have hspans : Span.all (Byte.quote :: (Quoted.textOf pieces ++ [Byte.quote])) =
      [⟨Byte.quote :: (Quoted.textOf pieces ++ [Byte.quote]),
        .leaf .string (some (.text (Quoted.valueOf pieces))) [], []⟩] := by
    rw [Span.all_cons, Span.scan_closed hclosed, Quoted.scan_pieces, Span.all_nil]
    rfl
  simp only [lex, Lexer.tokenize, Lexer.ofSource, hspans]
  rfl

/-! ## Strings in a call -/

namespace Lexer

section Strings

variable {lexer : Lexer} {state : State} {rest : Bytes}

/-- A string with a quote behind it that is not escaped makes a leaf, with complaints about its
escapes only. -/
theorem Reaches.emits_string (h : lexer.Reaches state) (hinput : state.input = Byte.quote :: rest)
    (hquote : Quoted.HasUnescapedQuote rest) :
    lexer.Emits state
      ⟨.string, Byte.quote :: (Quoted.scan rest).1.text, some (.text (Quoted.scan rest).1.value),
        [], state.position⟩
      ((Quoted.scan rest).1.unknown.map .unknownEscape) (Quoted.scan rest).2 :=
  h.emits hinput (Span.scan_closed ((Quoted.closed_iff rest).2 hquote))

/-- A string without such a quote is given up at the end of the source. -/
theorem Reaches.givesUp_string (h : lexer.Reaches state)
    (hinput : state.input = Byte.quote :: rest) (hquote : ¬Quoted.HasUnescapedQuote rest) :
    lexer.GivesUp state (Byte.quote :: rest)
      ((Quoted.scan rest).1.unknown.map .unknownEscape ++ [.unterminatedString]) [] := by
  have hopen : (Quoted.scan rest).1.closed = false := by
    rwa [← Quoted.closed_iff, Bool.not_eq_true] at hquote
  exact h.givesUp hinput (Span.scan_open hopen)

theorem Reaches.reports_unterminatedString_iff (h : lexer.Reaches state)
    (hinput : state.input = Byte.quote :: rest) :
    lexer.Reports state .unterminatedString ↔ ¬Quoted.HasUnescapedQuote rest := by
  by_cases hquote : Quoted.HasUnescapedQuote rest
  · rw [(h.emits_string hinput hquote).reports_iff]
    simp [hquote]
  · rw [(h.givesUp_string hinput hquote).reports_iff]
    simp [hquote]

end Strings
end Lexer

/-- String and character literals are decoded exactly.  Pieces between quotes are lexed as one
string that stands for what they stand for; where a source has no faults, its strings are written
like that and its characters as one byte or escape; and wherever a call comes to a quote, it reports
an unterminated string exactly when no quote follows that is not escaped. -/
theorem quoted_literals_decoded :
    (∀ pieces limit, lex (Byte.quote :: (Quoted.textOf pieces ++ [Byte.quote])) limit =
      ([.leaf ⟨.string, Byte.quote :: (Quoted.textOf pieces ++ [Byte.quote]),
        some (.text (Quoted.valueOf pieces)), [], .start⟩], [])) ∧
    (∀ source limit, (lex source limit).2 = [] →
      ∀ leaf ∈ Token.leavesAll (lex source limit).1, leaf.IsDecoded) ∧
    ∀ (lexer : Lexer) (state : Lexer.State) (rest : Bytes), lexer.Reaches state →
      state.input = Byte.quote :: rest →
      (lexer.Reports state .unterminatedString ↔ ¬Quoted.HasUnescapedQuote rest) := by
  refine ⟨lex_pieces, ?_, ?_⟩
  · intro source limit hfaults leaf hleaf
    exact isDecoded_of_mem_lex hfaults hleaf
  · intro lexer state rest hreach hinput
    exact hreach.reports_unterminatedString_iff hinput

/-- An escape at the end of a string, an escaped apostrophe, and a quote that a backslash escapes
where another backslash escapes the one before it. -/
theorem quoted_literals_decoded_escapes :
    lex (Bytes.ofString "\"a\\n\"") Lexer.defaultLimit =
      ([.leaf ⟨.string, Bytes.ofString "\"a\\n\"", some (.text (Bytes.ofString "a\n")), [],
        .start⟩], []) ∧
    (∀ leaf ∈ Token.leavesAll (lex (Bytes.ofString "'\\''") Lexer.defaultLimit).1,
      leaf.IsDecoded) ∧
    (Lexer.ofSource (Bytes.ofString "\"\\\\\\\"") Lexer.defaultLimit).Reports
      (Lexer.ofSource (Bytes.ofString "\"\\\\\\\"") Lexer.defaultLimit).entry
      .unterminatedString := by
  obtain ⟨hpieces, hleaves, hreports⟩ := quoted_literals_decoded
  refine ⟨?_, hleaves _ _ (by decide +kernel), ?_⟩
  · exact hpieces [.raw (ascii 'a') (by decide) (by decide), .escape .newline] Lexer.defaultLimit
  · refine (hreports _ _ (Bytes.ofString "\\\\\\\"") .refl (by decide)).2 ?_
    rw [← Quoted.closed_iff]
    decide

end RealtimeApp
