import RealtimeApp.Proofs.WrittenNumerals

/-!
# Float literals

A numeral is a float when it is written in base ten with a fraction, an exponent or a suffix that
names a float type (`Numeral.HasFloatForm`).  The text that its value is read from is then a whole
decimal number (`Numeral.Written.isNumber_decimalText`), so reading it can only fail because the
number is out of range (`Binary64.read_of_isNumber`), and the complaint about a malformed number
never comes up.
-/

namespace RealtimeApp

/-! ## Texts of decimal numbers -/

namespace Decimal

/-- One or more digits. -/
structure IsRun (run : Bytes) : Prop where
  ne_nil : run ≠ []
  digits : ∀ b ∈ run, Byte.isDigit b = true

/-- Nothing, or a point and digits. -/
inductive IsFraction : Bytes → Prop
  | absent : IsFraction []
  | present {run : Bytes} (h : IsRun run) : IsFraction (ascii '.' :: run)

/-- Nothing, or a letter, a sign or none, and digits. -/
inductive IsExponent : Bytes → Prop
  | absent : IsExponent []
  | present {e : UInt8} {sign run : Bytes} (he : e = ascii 'e' ∨ e = ascii 'E')
      (hsign : sign ∈ Numeral.signs) (h : IsRun run) : IsExponent (e :: (sign ++ run))

/-- The form `digits[.digits][(e|E)[+|-]digits]`. -/
inductive IsNumber : Bytes → Prop
  | mk {whole fraction exponent : Bytes} (hwhole : IsRun whole) (hfraction : IsFraction fraction)
      (hexponent : IsExponent exponent) : IsNumber (whole ++ (fraction ++ exponent))

theorem isRun_cons {d : UInt8} {run : Bytes} (hd : Byte.isDigit d = true)
    (hrun : ∀ b ∈ run, Byte.isDigit b = true) : IsRun (d :: run) :=
  ⟨List.cons_ne_nil d run, List.forall_mem_cons.2 ⟨hd, hrun⟩⟩

theorem digitRun?_append {run rest : Bytes} (h : IsRun run) (hrest : Stops Byte.isDigit rest) :
    digitRun? (run ++ rest) = some (run, rest) := by
  obtain ⟨htake, hdrop⟩ := takeWhile_run h.digits hrest
  rw [digitRun?, htake, hdrop]
  cases run with
  | nil => exact absurd rfl h.ne_nil
  | cons d run => rfl

theorem IsExponent.stops {exponent : Bytes} (h : IsExponent exponent) :
    Stops (fun b => Byte.isDigit b || b == ascii '.') exponent := by
  cases h with
  | absent => exact stops_nil
  | present he _ _ =>
      rw [stops_cons]
      rcases he with rfl | rfl
      · decide
      · decide

theorem IsFraction.stops_append {fraction exponent : Bytes} (h : IsFraction fraction)
    (hexponent : IsExponent exponent) : Stops Byte.isDigit (fraction ++ exponent) := by
  cases h with
  | absent =>
      intro b hb
      have hstops := hexponent.stops b hb
      simp only [Bool.or_eq_false_iff] at hstops
      exact hstops.1
  | present _ => exact stops_cons.2 (by decide)

/-- The fraction is taken off and the exponent is left. -/
theorem fraction?_append {fraction exponent : Bytes} (h : IsFraction fraction)
    (hexponent : IsExponent exponent) :
    ∃ digits, fraction? (fraction ++ exponent) = some (digits, exponent) := by
  cases h with
  | absent =>
      cases hexponent with
      | absent => exact ⟨[], rfl⟩
      | present he _ _ =>
          refine ⟨[], if_neg ?_⟩
          rcases he with rfl | rfl
          · decide
          · decide
  | @present run hrun =>
      have hstops : Stops Byte.isDigit exponent := IsFraction.absent.stops_append hexponent
      exact ⟨run, digitRun?_append hrun hstops⟩

theorem magnitude?_of_isRun {run : Bytes} (h : IsRun run) :
    magnitude? run = some (ofDigits run) := by
  have hrun := digitRun?_append h stops_nil
  rw [List.append_nil] at hrun
  rw [magnitude?, hrun]

theorem exponent?_cons_cons {e : UInt8} (he : e = ascii 'e' ∨ e = ascii 'E') (s : UInt8)
    (more : Bytes) :
    exponent? (e :: s :: more) =
      if s = ascii '-' then (magnitude? more).map fun n => -(n : Int)
      else if s = ascii '+' then (magnitude? more).map fun n => (n : Int)
      else (magnitude? (s :: more)).map fun n => (n : Int) :=
  if_pos (by simp [he])

/-- An exponent is read to its end. -/
theorem exponent?_of_isExponent {exponent : Bytes} (h : IsExponent exponent) :
    ∃ value, exponent? exponent = some value := by
  cases h with
  | absent => exact ⟨0, rfl⟩
  | @present e sign run he hsign hrun =>
      have hmagnitude := magnitude?_of_isRun hrun
      obtain ⟨d, more, rfl⟩ := List.exists_cons_of_ne_nil hrun.ne_nil
      simp only [Numeral.signs, List.mem_cons, List.not_mem_nil, or_false] at hsign
      rcases hsign with rfl | rfl | rfl
      · have hd := hrun.digits d List.mem_cons_self
        have hminus : d ≠ ascii '-' := by
          rintro rfl
          exact absurd hd (by decide)
        have hplus : d ≠ ascii '+' := by
          rintro rfl
          exact absurd hd (by decide)
        rw [List.nil_append, exponent?_cons_cons he, if_neg hminus, if_neg hplus, hmagnitude]
        exact ⟨_, rfl⟩
      · rw [List.singleton_append, exponent?_cons_cons he, if_neg (by decide), if_pos rfl,
          hmagnitude]
        exact ⟨_, rfl⟩
      · rw [List.singleton_append, exponent?_cons_cons he, if_pos rfl, hmagnitude]
        exact ⟨_, rfl⟩

/-- A text of the form of a decimal number is read to its end. -/
theorem read?_of_isNumber {text : Bytes} (h : IsNumber text) : ∃ x, read? text = some x := by
  cases h with
  | mk hwhole hfraction hexponent =>
      have hrun := digitRun?_append hwhole (hfraction.stops_append hexponent)
      obtain ⟨digits, hdigits⟩ := fraction?_append hfraction hexponent
      obtain ⟨value, hvalue⟩ := exponent?_of_isExponent hexponent
      simp only [read?, hrun, hdigits, hvalue, Option.bind_eq_bind, Option.bind_some]
      exact ⟨_, rfl⟩

end Decimal

/-- Reading the text of a decimal number fails only where the number is out of range. -/
theorem Binary64.read_of_isNumber {text : Bytes} (h : Decimal.IsNumber text) :
    (∃ value, read text = .ok value) ∨ read text = .error .outOfRange := by
  obtain ⟨x, hx⟩ := Decimal.read?_of_isNumber h
  cases hvalue : ofDecimal? x with
  | none => exact .inr (by simp only [read, hx, hvalue])
  | some value => exact .inl ⟨value, by simp only [read, hx, hvalue]⟩

/-! ## Which numerals are floats -/

namespace Numeral

/-- Base ten with a fraction, an exponent, or a suffix that names a float type. -/
def HasFloatForm (n : Numeral) : Prop :=
  n.radix = .decimal ∧ (IsFraction n.fraction ∨ IsExponent n.exponent ∨
    n.suffix = Bytes.ofString "f32" ∨ n.suffix = Bytes.ofString "f64")

theorem digitsOf_append (first second : Bytes) :
    digitsOf (first ++ second) = digitsOf first ++ digitsOf second :=
  List.filter_append _ _

theorem isFraction_digitsOf {fraction : Bytes} (h : IsFraction fraction) :
    Decimal.IsFraction (digitsOf fraction) := by
  obtain ⟨d, run, rfl, hd, hrun⟩ := h
  rw [digitsOf_cons_of_ne (by decide), digitsOf_cons hd]
  exact .present (Decimal.isRun_cons hd (hasDigit_of_mem_digitsOf hrun))

theorem isExponent_digitsOf {exponent : Bytes} (h : IsExponent exponent) :
    Decimal.IsExponent (digitsOf exponent) := by
  obtain ⟨e, sign, d, run, rfl, he, hsign, hd, hrun⟩ := h
  have hletter : e ≠ ascii '_' := by
    rcases he with rfl | rfl
    · decide
    · decide
  have hsigns : ∀ sign ∈ signs, digitsOf sign = sign := by decide
  rw [digitsOf_cons_of_ne hletter, digitsOf_append, hsigns sign hsign, digitsOf_cons hd]
  exact .present he hsign (Decimal.isRun_cons hd (hasDigit_of_mem_digitsOf hrun))

section Written

variable {n : Numeral} {behind : Bytes}

theorem Written.fraction_cases (h : n.Written behind) :
    n.fraction = [] ∨ IsFraction n.fraction :=
  h.fraction.eq_nil_or_form

theorem Written.exponent_cases (h : n.Written behind) :
    n.exponent = [] ∨ IsExponent n.exponent :=
  h.exponent.eq_nil_or_form

theorem Written.isFloat_iff (h : n.Written behind) : n.isFloat = true ↔ n.HasFloatForm := by
  have hfraction : n.fraction ≠ [] ↔ IsFraction n.fraction := by
    refine ⟨h.fraction_cases.resolve_left, ?_⟩
    rintro ⟨d, run, hpart, -⟩
    rw [hpart]
    exact List.cons_ne_nil _ _
  have hexponent : n.exponent ≠ [] ↔ IsExponent n.exponent := by
    refine ⟨h.exponent_cases.resolve_left, ?_⟩
    rintro ⟨e, sign, d, run, hpart, -⟩
    rw [hpart]
    exact List.cons_ne_nil _ _
  simp [isFloat, hasFloatSuffix, HasFloatForm, ← hfraction, ← hexponent, or_assoc]

/-- The value of a float is read from its text without the suffix and without underscores. -/
theorem Written.decimalText_eq (h : n.Written behind) (hradix : n.radix = .decimal) :
    ∃ body, n.text = body ++ n.suffix ∧ n.decimalText = digitsOf body := by
  have hmark := h.mark
  rw [hradix] at hmark
  refine ⟨n.whole ++ (n.fraction ++ n.exponent), ?_, rfl⟩
  rw [text, hmark.eq_nil]
  simp

/-- The text that the value of a float is read from is a decimal number. -/
theorem Written.isNumber_decimalText (h : n.Written behind) (hradix : n.radix = .decimal) :
    Decimal.IsNumber n.decimalText := by
  have hwhole := h.whole
  rw [hradix] at hwhole
  rw [decimalText, digitsOf_append, digitsOf_append]
  refine .mk ⟨h.digits, hasDigit_of_mem_digitsOf hwhole⟩ ?_ ?_
  · rcases h.fraction_cases with hnone | hfraction
    · rw [hnone]
      exact .absent
    · exact isFraction_digitsOf hfraction
  · rcases h.exponent_cases with hnone | hexponent
    · rw [hnone]
      exact .absent
    · exact isExponent_digitsOf hexponent

/-- A float is decoded to its value, or is out of range. -/
theorem Written.decode_of_hasFloatForm (h : n.Written behind) (hfloat : n.HasFloatForm) :
    (∃ value, Binary64.read n.decimalText = .ok value ∧ n.decode = .ok (.float value)) ∨
      Binary64.read n.decimalText = .error .outOfRange ∧
        n.decode = .error (.float .outOfRange) := by
  have hisFloat := h.isFloat_iff.2 hfloat
  rcases Binary64.read_of_isNumber (h.isNumber_decimalText hfloat.1) with ⟨value, hread⟩ | hread
  · exact .inl ⟨value, hread, by simp only [decode, if_neg h.digits, hisFloat, if_true, hread]⟩
  · exact .inr ⟨hread, by simp only [decode, if_neg h.digits, hisFloat, if_true, hread]⟩

end Written

/-- What can be wrong with a numeral that is no float. -/
def plainComplaints : List Complaint := [.missingDigits, .misplacedFloatSuffix, .integerTooLarge]

/-- A numeral that is no float is decoded to an integer, or is given up. -/
theorem decode_of_isFloat_eq_false {n : Numeral} (h : n.isFloat = false) :
    (∃ value, n.decode = .ok (.integer value)) ∨
      ∃ complaint ∈ plainComplaints, n.decode = .error complaint := by
  unfold decode
  split
  · exact .inr ⟨_, by decide, rfl⟩
  split
  · rename_i hfloat
    rw [h] at hfloat
    cases hfloat
  split
  · exact .inr ⟨_, by decide, rfl⟩
  split
  · exact .inr ⟨_, by decide, rfl⟩
  · exact .inl ⟨_, rfl⟩

section Scan

variable {n : Numeral} {b : UInt8} {rest behind : Bytes}

theorem written_of_hasFloatForm (hscan : scan (b :: rest) = (n, behind))
    (hb : Byte.isDigit b = true) (hfloat : n.HasFloatForm) : n.Written behind :=
  written_of_scan hscan hb fun hnone => radix_ne_decimal_of_scan hscan hb hnone hfloat.1

theorem isFloat_eq_false_of_scan (hscan : scan (b :: rest) = (n, behind))
    (hb : Byte.isDigit b = true) (hplain : ¬n.HasFloatForm) : n.isFloat = false := by
  rw [← Bool.not_eq_true]
  intro hisFloat
  have hdecimal : n.radix = .decimal := by
    simp only [isFloat, Bool.and_eq_true, beq_iff_eq] at hisFloat
    exact hisFloat.1
  have hwritten := written_of_scan hscan hb fun hnone =>
    radix_ne_decimal_of_scan hscan hb hnone hdecimal
  exact hplain (hwritten.isFloat_iff.1 hisFloat)

end Scan
end Numeral

/-! ## Floats in a call -/

namespace Lexer

/-- The numeral that comes next is taken for a float: its text is read as a number, which makes a
leaf unless it is out of range. -/
inductive TreatsAsFloat (lexer : Lexer) (state : State) (n : Numeral) (behind : Bytes) : Prop
  | value {value : Binary64} (hread : Binary64.read n.decimalText = .ok value)
      (h : lexer.Emits state ⟨.float, n.text, some (.float value), n.suffix, state.position⟩ []
        behind)
  | outOfRange (hread : Binary64.read n.decimalText = .error .outOfRange)
      (h : lexer.GivesUp state n.text [.float .outOfRange] behind)

/-- The numeral that comes next is not taken for a float. -/
inductive TreatsAsInteger (lexer : Lexer) (state : State) (n : Numeral) (behind : Bytes) : Prop
  | value {value : UInt64}
      (h : lexer.Emits state ⟨.integer, n.text, some (.integer value), n.suffix, state.position⟩ []
        behind)
  | complaint {complaint : Complaint} (hplain : complaint ∈ Numeral.plainComplaints)
      (h : lexer.GivesUp state n.text [complaint] behind)

/-- No numeral is taken for both. -/
theorem TreatsAsFloat.not_treatsAsInteger {lexer : Lexer} {state : State} {n : Numeral}
    {behind : Bytes} (h : lexer.TreatsAsFloat state n behind) :
    ¬lexer.TreatsAsInteger state n behind := by
  intro hinteger
  cases h with
  | value _ hfloat =>
      cases hinteger with
      | value hother => cases congrArg Leaf.kind (hfloat.leaf_eq hother)
      | complaint _ hother => exact hfloat.not_givesUp hother
  | outOfRange _ hfloat =>
      cases hinteger with
      | value hother => exact hother.not_givesUp hfloat
      | complaint hplain hother =>
          obtain rfl := List.head_eq_of_cons_eq (hfloat.complaints_eq hother)
          exact absurd hplain (by decide)

/-- How a call treats a numeral. -/
structure Classifies (lexer : Lexer) (state : State) (n : Numeral) (behind : Bytes) : Prop where
  input : state.input = n.text ++ behind
  /-- All parts are there and as long as they can be, unless there are no digits. -/
  written : Numeral.digitsOf n.whole ≠ [] → n.Written behind
  float : n.HasFloatForm ↔ lexer.TreatsAsFloat state n behind
  integer : ¬n.HasFloatForm ↔ lexer.TreatsAsInteger state n behind
  /-- The text that a float is read from leaves out underscores and the suffix. -/
  text : n.HasFloatForm → ∃ body, n.text = body ++ n.suffix ∧
    n.decimalText = Numeral.digitsOf body
  /-- It is a decimal number as a whole. -/
  number : n.HasFloatForm → Decimal.IsNumber n.decimalText

section Classifies

variable {lexer : Lexer} {state : State} {b : UInt8} {rest behind : Bytes} {n : Numeral}

theorem Reaches.treatsAsFloat (h : lexer.Reaches state) (hinput : state.input = b :: rest)
    (hb : Byte.isDigit b = true) (hscan : Numeral.scan (b :: rest) = (n, behind))
    (hfloat : n.HasFloatForm) : lexer.TreatsAsFloat state n behind := by
  have hwritten := Numeral.written_of_hasFloatForm hscan hb hfloat
  have hkind : n.kind = .float := if_pos (hwritten.isFloat_iff.2 hfloat)
  rcases hwritten.decode_of_hasFloatForm hfloat with ⟨value, hread, hdecode⟩ | ⟨hread, hdecode⟩
  · have hemits := h.emits_numeral hinput hb hscan hdecode
    rw [hkind] at hemits
    exact .value hread hemits
  · exact .outOfRange hread (h.givesUp_numeral hinput hb hscan hdecode)

theorem Reaches.treatsAsInteger (h : lexer.Reaches state) (hinput : state.input = b :: rest)
    (hb : Byte.isDigit b = true) (hscan : Numeral.scan (b :: rest) = (n, behind))
    (hplain : ¬n.HasFloatForm) : lexer.TreatsAsInteger state n behind := by
  have hisFloat := Numeral.isFloat_eq_false_of_scan hscan hb hplain
  have hkind : n.kind = .integer := by simp [Numeral.kind, hisFloat]
  rcases Numeral.decode_of_isFloat_eq_false hisFloat with
    ⟨value, hdecode⟩ | ⟨complaint, hcomplaint, hdecode⟩
  · have hemits := h.emits_numeral hinput hb hscan hdecode
    rw [hkind] at hemits
    exact .value hemits
  · exact .complaint hcomplaint (h.givesUp_numeral hinput hb hscan hdecode)

/-- Every numeral that a call comes to is classified. -/
theorem Reaches.classifies (h : lexer.Reaches state) (hinput : state.input = b :: rest)
    (hb : Byte.isDigit b = true) (hscan : Numeral.scan (b :: rest) = (n, behind)) :
    lexer.Classifies state n behind := by
  have hsplit := Numeral.text_scan (b :: rest)
  rw [hscan] at hsplit
  have hfloat := h.treatsAsFloat hinput hb hscan
  have hinteger := h.treatsAsInteger hinput hb hscan
  constructor
  case input => rw [hinput, hsplit]
  case written => exact Numeral.written_of_scan hscan hb
  case float =>
    refine ⟨hfloat, fun htreats => ?_⟩
    exact Classical.byContradiction fun hplain => htreats.not_treatsAsInteger (hinteger hplain)
  case integer => exact ⟨hinteger, fun htreats hform => (hfloat hform).not_treatsAsInteger htreats⟩
  case text =>
    exact fun hform => (Numeral.written_of_hasFloatForm hscan hb hform).decimalText_eq hform.1
  case number =>
    exact fun hform => (Numeral.written_of_hasFloatForm hscan hb hform).isNumber_decimalText hform.1

end Classifies
end Lexer

/-! ## The complaint that never comes up -/

/-- No span gives cause to complain about a malformed float. -/
theorem Span.malformed_not_mem_complaints (b : UInt8) (rest : Bytes) :
    .float .malformed ∉ (scan b rest).1.complaints := by
  intro hcomplaint
  have hb : Byte.isDigit b = true := by
    have hdigit : (scan b rest).1.text.head?.any Byte.isDigit = true :=
      (truthful_scan b rest _ hcomplaint).about
    obtain ⟨happend, hne⟩ := splits_scan b rest
    obtain ⟨c, more, htext⟩ := List.exists_cons_of_ne_nil hne
    rw [htext, List.cons_append, List.cons.injEq] at happend
    obtain ⟨rfl, -⟩ := happend
    simpa [htext] using hdigit
  obtain ⟨n, behind, hscan⟩ : ∃ n behind, Numeral.scan (b :: rest) = (n, behind) := ⟨_, _, rfl⟩
  have hdecode : n.decode = .error (.float .malformed) := by
    rw [scan_of_isDigit hb, scanNumeral, hscan] at hcomplaint
    cases hdecode : n.decode with
    | ok literal => simp [hdecode] at hcomplaint
    | error complaint =>
        obtain rfl : .float .malformed = complaint := by simpa [hdecode] using hcomplaint
        rfl
  by_cases hfloat : n.HasFloatForm
  · have hwritten := Numeral.written_of_hasFloatForm hscan hb hfloat
    rcases hwritten.decode_of_hasFloatForm hfloat with ⟨value, -, hother⟩ | ⟨-, hother⟩
    · cases hdecode.symm.trans hother
    · cases hdecode.symm.trans hother
  · have hisFloat := Numeral.isFloat_eq_false_of_scan hscan hb hfloat
    rcases Numeral.decode_of_isFloat_eq_false hisFloat with
      ⟨value, hother⟩ | ⟨complaint, hplain, hother⟩
    · cases hdecode.symm.trans hother
    · obtain rfl := Except.error.inj (hdecode.symm.trans hother)
      exact absurd hplain (by decide)

namespace Lexer

/-- No call complains about a malformed float. -/
theorem malformed_not_mem_tokenize {lexer : Lexer} {fault : Fault}
    (h : fault ∈ lexer.tokenize.2.faults) (hmalformed : fault.complaint = .float .malformed) :
    fault ∈ lexer.faults := by
  rcases cause_of_mem_faults_tokenize h with hbefore | hunmatched | hdeep | ⟨span, hspan, hcause⟩
  · exact hbefore
  · rw [hmalformed] at hunmatched
    cases hunmatched
  · rw [hmalformed] at hdeep
    cases hdeep
  · rw [hmalformed] at hcause
    exact absurd hcause (Span.forall_mem_all (p := fun span => _ ∉ span.complaints)
      Span.malformed_not_mem_complaints lexer.rest span hspan)

/-- Floats are told from other numerals by how they are written, wherever a call comes to a numeral:
exactly those in base ten with a fraction, an exponent or the suffix of a float type are read as
decimal numbers.  The text that is read is a decimal number as a whole, so that a float is given up
only when it is out of range, and no call complains about a malformed one. -/
theorem numerals_classified (lexer : Lexer) :
    (∀ state b rest, lexer.Reaches state → state.input = b :: rest → Byte.isDigit b = true →
      lexer.Classifies state (Numeral.scan (b :: rest)).1 (Numeral.scan (b :: rest)).2) ∧
    ∀ fault ∈ lexer.tokenize.2.faults, fault.complaint = .float .malformed →
      fault ∈ lexer.faults := by
  refine ⟨?_, fun fault => malformed_not_mem_tokenize⟩
  intro state b rest hreach hinput hb
  exact hreach.classifies hinput hb rfl

/-- All the parts of a float at the beginning of a source. -/
theorem numerals_classified_exponent :
    (ofSource (Bytes.ofString "1_0.5e-3f32") defaultLimit).TreatsAsFloat
      (ofSource (Bytes.ofString "1_0.5e-3f32") defaultLimit).entry
      ⟨.decimal, [], Bytes.ofString "1_0", Bytes.ofString ".5", Bytes.ofString "e-3",
        Bytes.ofString "f32"⟩ [] := by
  have hscan : Numeral.scan (ascii '1' :: Bytes.ofString "_0.5e-3f32") =
      (⟨.decimal, [], Bytes.ofString "1_0", Bytes.ofString ".5", Bytes.ofString "e-3",
        Bytes.ofString "f32"⟩, []) := by decide
  have hclassifies := (numerals_classified (ofSource (Bytes.ofString "1_0.5e-3f32")
    defaultLimit)).1 _ (ascii '1') (Bytes.ofString "_0.5e-3f32") .refl (by decide) (by decide)
  rw [hscan] at hclassifies
  exact hclassifies.float.1 ⟨rfl, .inr (.inr (.inl rfl))⟩

end Lexer
end RealtimeApp
