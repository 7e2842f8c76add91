import RealtimeApp.Proofs.IntegerLiterals
import RealtimeApp.Proofs.Relexing

/-!
# Digits outside the base of a numeral

Behind a mark for base two or eight there may be a decimal digit that the base does not have
(`Numeral.ForeignDigit`).  The run of digits ends before it (`Numeral.scan_foreignDigit`).  Without
a digit of the base before it the mark is given up, but behind such a digit it is taken for the
beginning of a suffix, and the digits before it are decoded without it.

These are the only suffixes that are no words: every other one is empty or begins with a letter
(`Numeral.suffix_iff_not_isCut`).
-/

namespace RealtimeApp

/-! ## Which spans are numerals -/

/-- Do numerals make leaves of this kind? -/
def LeafKind.isNumeral (kind : LeafKind) : Bool := kind == integer || kind == float

/-- Does the span make such a leaf? -/
def Content.isNumeral : Content → Bool
  | .leaf kind _ _ => kind.isNumeral
  | _ => false

namespace Span

theorem isNumeral_scanString (rest : Bytes) : (scanString rest).1.content.isNumeral = false := by
  simp only [scanString]
  split <;> rfl

theorem isNumeral_scanEscapedCharacter (rest : Bytes) :
    (scanEscapedCharacter rest).1.content.isNumeral = false := by
  unfold scanEscapedCharacter
  split
  · rfl
  simp only
  split
  · rfl
  split <;> rfl

theorem isNumeral_scanLifetime (rest : Bytes) :
    (scanLifetime rest).1.content.isNumeral = false := by
  unfold scanLifetime
  split <;> rfl

theorem isNumeral_scanApostrophe (rest : Bytes) :
    (scanApostrophe rest).1.content.isNumeral = false := by
  unfold scanApostrophe
  split
  · exact isNumeral_scanLifetime _
  split
  · exact isNumeral_scanEscapedCharacter _
  split
  · exact isNumeral_scanLifetime _
  split
  · rfl
  · exact isNumeral_scanLifetime _

theorem isNumeral_scanWord (input : Bytes) : (scanWord input).1.content.isNumeral = false := by
  simp only [scanWord, wordContent]
  split
  · rfl
  split <;> rfl

theorem isNumeral_scanOperator (b : UInt8) (rest : Bytes) :
    (scanOperator b rest).1.content.isNumeral = false := by
  unfold scanOperator
  split
  · rename_i op behind h
    obtain ⟨found, hfound, heq⟩ := Option.map_eq_some_iff.1 h
    obtain ⟨rfl, -⟩ := Prod.mk.inj heq
    have hkinds : ∀ op ∈ Operator.all, op.kind.isNumeral = false := by decide
    exact hkinds _ (List.mem_of_find?_eq_some hfound)
  · rfl

theorem isNumeral_scanSlash (rest : Bytes) : (scanSlash rest).1.content.isNumeral = false := by
  unfold scanSlash
  split
  · exact isNumeral_scanOperator _ _
  split
  · rfl
  split
  · rfl
  · exact isNumeral_scanOperator _ _

/-- Numerals begin with a digit. -/
theorem isDigit_of_isNumeral {b : UInt8} {rest : Bytes}
    (h : (scan b rest).1.content.isNumeral = true) : Byte.isDigit b = true := by
  have hscan := scansAs_scan b
  generalize scan b = scanner at hscan h
  cases hscan with
  | numeral hb => exact hb
  | opener | closer | blank => cases h
  | string => rw [isNumeral_scanString] at h; cases h
  | apostrophe => rw [isNumeral_scanApostrophe] at h; cases h
  | slash => rw [isNumeral_scanSlash] at h; cases h
  | word => rw [isNumeral_scanWord] at h; cases h
  | operator => rw [isNumeral_scanOperator] at h; cases h

end Span

/-! ## Suffixes -/

/-- Empty, or with a letter first. -/
def IsWordOrEmpty (suffix : Bytes) : Prop := ∀ b ∈ suffix.head?, Byte.isLetter b = true

namespace Numeral

/-- A decimal digit comes behind a mark and a run of digits of its base, which does not have it. -/
structure ForeignDigit (radix : Radix) (letter : UInt8) (run : Bytes) (d : UInt8) : Prop where
  letter : letter ∈ radix.letters
  run : ∀ b ∈ run, radix.Spells b
  digit : Byte.isDigit d = true
  foreign : ¬radix.Spells d

/-- The text of a numeral goes on with a digit outside its base. -/
def IsCut (text : Bytes) : Prop :=
  ∃ radix letter run d more, ForeignDigit radix letter run d ∧
    text = ascii '0' :: letter :: (run ++ d :: more)

theorem isNamePart_of_isDigit {d : UInt8} (h : Byte.isDigit d = true) :
    Byte.isNamePart d = true := by
  simp [Byte.isNamePart, h]

theorem not_isLetter_of_isDigit {d : UInt8} (h : Byte.isDigit d = true) :
    ¬Byte.isLetter d = true := by
  revert d
  apply Byte.forall_byte
  decide +kernel

theorem spells_decimal_of_isDigit {d : UInt8} (h : Byte.isDigit d = true) :
    Radix.decimal.Spells d :=
  .inl (Radix.hasDigit_iff.1 h)

namespace ForeignDigit

variable {radix : Radix} {letter d : UInt8} {run : Bytes}

theorem radix_ne_decimal (h : ForeignDigit radix letter run d) : radix ≠ .decimal := by
  rintro rfl
  exact h.foreign (spells_decimal_of_isDigit h.digit)

theorem isCut (h : ForeignDigit radix letter run d) (more : Bytes) :
    IsCut (ascii '0' :: letter :: (run ++ d :: more)) :=
  ⟨radix, letter, run, d, more, h, rfl⟩

end ForeignDigit

/-- The run of digits ends before a digit outside the base.  Behind a digit of the base the suffix
begins with it. -/
theorem scan_foreignDigit {radix : Radix} {letter d : UInt8} {run : Bytes}
    (h : ForeignDigit radix letter run d) (rest : Bytes) :
    scan (ascii '0' :: letter :: (run ++ d :: rest)) =
      if digitsOf run = [] then (⟨radix, [ascii '0', letter], run, [], [], []⟩, d :: rest)
      else
        (⟨radix, [ascii '0', letter], run, [], [], (d :: rest).takeWhile Byte.isNamePart⟩,
          (d :: rest).dropWhile Byte.isNamePart) := by
  have hstops : Stops (inRun radix) (d :: rest) := by
    rw [Radix.stops_inRun_iff]
    intro b hb
    obtain rfl : d = b := by simpa using hb
    exact h.foreign
  obtain ⟨htake, hdrop⟩ := takeWhile_run (Radix.forall_inRun_iff.2 h.run) hstops
  simp only [scan, scanMark_marked h.letter, htake, hdrop, if_neg h.radix_ne_decimal]

section Suffix

variable {n : Numeral} {behind : Bytes}

/-- A suffix of a numeral that is no word begins with a digit outside the base. -/
theorem Written.isCut (h : n.Written behind) (hsuffix : ¬IsWordOrEmpty n.suffix) :
    IsCut n.text := by
  simp only [IsWordOrEmpty, not_forall] at hsuffix
  obtain ⟨d, hd, hletter⟩ := hsuffix
  obtain ⟨more, hmore⟩ : ∃ more, n.suffix = d :: more := List.head?_eq_some_iff.1 hd
  have hforeign : ¬n.radix.Spells d := h.endsBefore_suffix d (by rw [hmore]; rfl)
  have hdigit : Byte.isDigit d = true := by
    have hpart := h.suffix d (by rw [hmore]; exact List.mem_cons_self)
    simp only [Byte.isNamePart, Bool.or_eq_true, beq_iff_eq] at hpart
    rcases hpart with (hpart | hpart) | hpart
    · exact absurd hpart hletter
    · exact hpart
    · exact absurd (.inr hpart) hforeign
  have hradix : n.radix ≠ .decimal := by
    intro hradix
    rw [hradix] at hforeign
    exact hforeign (spells_decimal_of_isDigit hdigit)
  have hmark := h.mark
  have hfraction := h.fraction
  have hexponent := h.exponent
  rw [DecimalPart, if_neg hradix] at hfraction hexponent
  obtain ⟨radix, mark, whole, fraction, exponent, suffix⟩ := n
  obtain rfl : fraction = [] := hfraction
  obtain rfl : exponent = [] := hexponent
  obtain rfl : suffix = d :: more := hmore
  cases hmark with
  | marked hmarked => exact ForeignDigit.isCut ⟨hmarked, h.whole, hdigit, hforeign⟩ more
  | unmarked _ => exact absurd rfl hradix

/-- The suffix of a numeral that is decoded is empty or begins with a letter, unless a digit outside
the base comes behind its digits. -/
theorem suffix_iff_not_isCut {b : UInt8} {rest : Bytes} {literal : Literal}
    (hscan : scan (b :: rest) = (n, behind)) (hb : Byte.isDigit b = true)
    (hdecode : n.decode = .ok literal) : IsWordOrEmpty n.suffix ↔ ¬IsCut n.text := by
  have hdigits : digitsOf n.whole ≠ [] := by
    intro hnone
    rw [decode, if_pos hnone] at hdecode
    cases hdecode
  constructor
  · rintro hword ⟨radix, letter, run, d, more, hforeign, htext⟩
    have hinput := text_scan (b :: rest)
    rw [hscan, htext] at hinput
    simp only [List.cons_append, List.append_assoc] at hinput
    rw [← hinput, scan_foreignDigit hforeign] at hscan
    split at hscan
    · rename_i hnone
      obtain ⟨rfl, -⟩ := Prod.mk.inj hscan
      exact hdigits hnone
    · obtain ⟨rfl, -⟩ := Prod.mk.inj hscan
      refine not_isLetter_of_isDigit hforeign.digit (hword d ?_)
      rw [List.takeWhile_cons_of_pos (isNamePart_of_isDigit hforeign.digit)]
      rfl
  · intro hcut
    by_contra hword
    exact hcut ((written_of_scan hscan hb hdigits).isCut hword)

end Suffix
end Numeral

/-- Behind a numeral that a span is, the suffix is a word unless the numeral is cut. -/
theorem Span.suffix_iff_of_mem_all {source : Bytes} {span : Span} (h : span ∈ all source)
    (hnumeral : span.content.isNumeral = true) {kind : LeafKind} {literal : Option Literal}
    {suffix : Bytes} (hcontent : span.content = .leaf kind literal suffix) :
    IsWordOrEmpty suffix ↔ ¬Numeral.IsCut span.text := by
  revert kind literal suffix hnumeral
  refine forall_mem_all (p := fun span => span.content.isNumeral = true →
    ∀ {kind literal suffix}, span.content = .leaf kind literal suffix →
      (IsWordOrEmpty suffix ↔ ¬Numeral.IsCut span.text)) ?_ source span h
  intro b rest hnumeral kind literal suffix hcontent
  have hb := isDigit_of_isNumeral hnumeral
  obtain ⟨n, behind, hscan⟩ : ∃ n behind, Numeral.scan (b :: rest) = (n, behind) := ⟨_, _, rfl⟩
  rw [scan_of_isDigit hb, scanNumeral, hscan] at hcontent ⊢
  cases hdecode : n.decode with
  | error complaint =>
      simp only [hdecode] at hcontent
      cases hcontent
  | ok literal =>
      simp only [hdecode] at hcontent ⊢
      cases hcontent
      exact Numeral.suffix_iff_not_isCut hscan hb hdecode

/-! ## Numerals in a call -/

namespace Lexer

/-- The numeral of a call that comes to a digit outside the base: a mark without digits is given up
before it, and behind digits of the base it begins the suffix of an integer that is decoded from
them alone. -/
structure CutsAt (lexer : Lexer) (state : State) (radix : Radix) (letter : UInt8)
    (run rest : Bytes) : Prop where
  reported : Numeral.digitsOf run = [] →
    lexer.GivesUp state (ascii '0' :: letter :: run) [.missingDigits] rest
  decoded : Numeral.digitsOf run ≠ [] → radix.valueOf (Numeral.digitsOf run) < 2 ^ 64 →
    ∃ value : UInt64, value.toNat = radix.valueOf (Numeral.digitsOf run) ∧
      lexer.Emits state ⟨.integer,
        ascii '0' :: letter :: (run ++ rest.takeWhile Byte.isNamePart), some (.integer value),
        rest.takeWhile Byte.isNamePart, state.position⟩ [] (rest.dropWhile Byte.isNamePart)
  tooLarge : Numeral.digitsOf run ≠ [] → 2 ^ 64 ≤ radix.valueOf (Numeral.digitsOf run) →
    lexer.GivesUp state (ascii '0' :: letter :: (run ++ rest.takeWhile Byte.isNamePart))
      [.integerTooLarge] (rest.dropWhile Byte.isNamePart)

section CutsAt

variable {lexer : Lexer} {state : State} {radix : Radix} {letter d : UInt8} {run rest : Bytes}

theorem Reaches.cutsAt (h : lexer.Reaches state)
    (hforeign : Numeral.ForeignDigit radix letter run d)
    (hinput : state.input = ascii '0' :: letter :: (run ++ d :: rest)) :
    lexer.CutsAt state radix letter run (d :: rest) := by
  have hzero : Byte.isDigit (ascii '0') = true := by decide
  have hscan := Numeral.scan_foreignDigit hforeign rest
  by_cases hdigits : Numeral.digitsOf run = []
  · rw [if_pos hdigits] at hscan
    refine ⟨fun _ => ?_, fun hne => absurd hdigits hne, fun hne => absurd hdigits hne⟩
    simpa [Numeral.text] using h.givesUp_numeral hinput hzero hscan (if_pos hdigits)
  · rw [if_neg hdigits] at hscan
    let n : Numeral := ⟨radix, [ascii '0', letter], run, [], [],
      (d :: rest).takeWhile Byte.isNamePart⟩
    have hwritten : n.Written _ := Numeral.written_of_scan hscan hzero hdigits
    have hsuffix : n.suffix.head? = some d := by
      show ((d :: rest).takeWhile Byte.isNamePart).head? = some d
      rw [List.takeWhile_cons_of_pos (Numeral.isNamePart_of_isDigit hforeign.digit)]
      rfl
    -- the suffixes of float types begin with a letter
    have hinteger : n.IsInteger := by
      refine ⟨rfl, rfl, ?_, ?_⟩
      all_goals
        intro hfloat
        rw [hfloat] at hsuffix
        obtain rfl := Option.some.inj hsuffix
        exact absurd hforeign.digit (by decide)
    have hkind : n.kind = .integer := by simp [Numeral.kind, hinteger.isFloat_eq]
    have htext := hinteger.text_eq
    refine ⟨fun hnone => absurd hnone hdigits, fun _ hsmall => ?_, fun _ hlarge => ?_⟩
    · rcases hinteger.decode_eq hwritten with ⟨value, hvalue, hdecode⟩ | ⟨hlarge, -⟩
      · have hemits := h.emits_numeral hinput hzero hscan hdecode
        rw [hkind, htext] at hemits
        exact ⟨value, hvalue, hemits⟩
      · exact absurd hsmall (Nat.not_lt.2 hlarge)
    · rcases hinteger.decode_eq hwritten with ⟨value, hvalue, -⟩ | ⟨-, hdecode⟩
      · have hsmall := value.toNat_lt
        rw [hvalue] at hsmall
        exact absurd hsmall (Nat.not_lt.2 hlarge)
      · have hgives := h.givesUp_numeral hinput hzero hscan hdecode
        rwa [htext] at hgives

end CutsAt

/-- The suffix of a numeral is empty or begins with a letter, unless a decimal digit comes behind
digits of base two or eight that the base does not have.  Such a digit is complained about only
right behind a mark; behind digits of the base it goes into the suffix, and they are decoded without
it. -/
theorem suffix_isWordOrEmpty_iff (lexer : Lexer) :
    (∀ leaf ∈ Token.leavesAll lexer.tokenize.1, leaf.kind = .integer ∨ leaf.kind = .float →
      (IsWordOrEmpty leaf.suffix ↔ ¬Numeral.IsCut leaf.lexeme)) ∧
    ∀ state radix letter run d rest, lexer.Reaches state →
      Numeral.ForeignDigit radix letter run d →
      state.input = ascii '0' :: letter :: (run ++ d :: rest) →
      lexer.CutsAt state radix letter run (d :: rest) := by
  refine ⟨?_, fun state radix letter run d rest hreach hforeign => hreach.cutsAt hforeign⟩
  intro leaf hleaf hkind
  obtain ⟨t, ht, hleaf⟩ := Token.mem_leavesAll.1 hleaf
  obtain ⟨span, ⟨hspan, -⟩, htext, hcontent⟩ := fromSpans_tokenize lexer t ht leaf hleaf
  have hnumeral : span.content.isNumeral = true := by
    rw [hcontent]
    rcases hkind with hkind | hkind <;> rw [hkind] <;> rfl
  rw [← htext]
  exact Span.suffix_iff_of_mem_all hspan hnumeral hcontent

/-- A digit that base eight does not have, behind one that it has and a mark, and behind the mark
alone. -/
theorem suffix_isWordOrEmpty_iff_octal :
    (∃ leaf ∈ Token.leavesAll (ofSource (Bytes.ofString "0o7_8u8") defaultLimit).tokenize.1,
      leaf.literal = some (.integer 7) ∧ leaf.suffix = Bytes.ofString "8u8" ∧
        (IsWordOrEmpty leaf.suffix ↔ ¬Numeral.IsCut leaf.lexeme)) ∧
    (ofSource (Bytes.ofString "0o8") defaultLimit).CutsAt
      (ofSource (Bytes.ofString "0o8") defaultLimit).entry .octal (ascii 'o') [] [ascii '8'] := by
  constructor
  · have hleaf : Leaf.mk .integer (Bytes.ofString "0o7_8u8") (some (.integer 7))
        (Bytes.ofString "8u8") .start ∈
        Token.leavesAll (ofSource (Bytes.ofString "0o7_8u8") defaultLimit).tokenize.1 := by
      decide +kernel
    exact ⟨_, hleaf, rfl, rfl, (suffix_isWordOrEmpty_iff _).1 _ hleaf (.inl rfl)⟩
  · have hforeign : Numeral.ForeignDigit .octal (ascii 'o') [] (ascii '8') :=
      ⟨by decide, by simp, by decide, by unfold Radix.Spells; decide⟩
    exact (suffix_isWordOrEmpty_iff _).2 _ _ _ _ _ _ .refl hforeign (by decide)

/-- A two in base two makes a suffix of its own and no fault. -/
theorem suffix_of_binary_twelve :
    (lex (Bytes.ofString "0b12") defaultLimit).2 = [] ∧
    ∃ leaf ∈ Token.leavesAll (lex (Bytes.ofString "0b12") defaultLimit).1,
      leaf.kind = .integer ∧ leaf.literal = some (.integer 1) ∧
        leaf.suffix = Bytes.ofString "2" ∧ ¬IsWordOrEmpty leaf.suffix := by
  have hleaf : Leaf.mk .integer (Bytes.ofString "0b12") (some (.integer 1)) (Bytes.ofString "2")
      .start ∈ Token.leavesAll (lex (Bytes.ofString "0b12") defaultLimit).1 := by
    decide +kernel
  refine ⟨by decide +kernel, _, hleaf, rfl, rfl, rfl, ?_⟩
  intro hword
  exact absurd (hword (ascii '2') (by decide)) (by decide)

end Lexer
end RealtimeApp
