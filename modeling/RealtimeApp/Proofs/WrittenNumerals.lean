import RealtimeApp.Proofs.Lexeme
import RealtimeApp.Proofs.ReachedStates

/-!
# How numerals are written

The grammar of numerals, without a scanner: the letters that mark a base, the forms of fractions and
exponents (`Numeral.IsFraction`, `Numeral.IsExponent`), and when a numeral stands in front of a text
(`Numeral.Written`).  Every part is as long as it can be, and an optional part is missing only where
none begins (`Numeral.Part`).

The scanner finds the numerals of this grammar and no others: each stage takes a part exactly when
it is written there (`Numeral.written_iff_stages`).  A call that comes to a digit makes of the
numeral there what it is decoded to (`Lexer.Reaches.emits_numeral`,
`Lexer.Reaches.givesUp_numeral`).
-/

namespace RealtimeApp

/-! ## Digits -/

namespace Byte

/-- The digits of base sixteen in order. -/
def figures : Bytes :=
  [ascii '0', ascii '1', ascii '2', ascii '3', ascii '4', ascii '5', ascii '6', ascii '7',
    ascii '8', ascii '9', ascii 'a', ascii 'b', ascii 'c', ascii 'd', ascii 'e', ascii 'f']

/-- The digits of base sixteen in order, with capital letters. -/
def capitals : Bytes :=
  figures.take 10 ++ [ascii 'A', ascii 'B', ascii 'C', ascii 'D', ascii 'E', ascii 'F']

/-- The place of a digit among the digits, small or capital; sixteen for other bytes. -/
def figure (b : UInt8) : Nat := min (figures.idxOf b) (capitals.idxOf b)

theorem forall_byte {p : UInt8 → Prop} (h : ∀ n < 256, p (UInt8.ofNat n)) (b : UInt8) : p b := by
  have hb := h b.toNat (UInt8.toNat_lt b)
  rwa [UInt8.ofNat_toNat] at hb

/-- A digit of base sixteen counts what its place says. -/
theorem figure_eq (b : UInt8) :
    figure b = if Radix.hasDigit .hexadecimal b then (digitValue b).toNat else 16 := by
  revert b
  apply forall_byte
  decide +kernel

end Byte

namespace Radix

/-- The digits of a base are the first ones. -/
theorem hasDigit_iff {radix : Radix} {b : UInt8} :
    radix.hasDigit b = true ↔ Byte.figure b < radix.base.toNat := by
  have hfirst : ∀ b, radix.hasDigit b = true ↔
      (if hasDigit .hexadecimal b then (Byte.digitValue b).toNat else 16) < radix.base.toNat := by
    apply Byte.forall_byte
    cases radix <;> decide +kernel
  rw [Byte.figure_eq, hfirst b]

/-- A digit of the base or an underscore. -/
def Spells (radix : Radix) (b : UInt8) : Prop :=
  Byte.figure b < radix.base.toNat ∨ b = ascii '_'

/-- No digit of the base and no underscore comes next. -/
def EndsBefore (radix : Radix) (rest : Bytes) : Prop := ∀ b ∈ rest.head?, ¬radix.Spells b

theorem inRun_iff {radix : Radix} {b : UInt8} :
    Numeral.inRun radix b = true ↔ radix.Spells b := by
  rw [Numeral.inRun, Bool.or_eq_true, hasDigit_iff, beq_iff_eq, Spells]

theorem forall_inRun_iff {radix : Radix} {run : Bytes} :
    (∀ b ∈ run, Numeral.inRun radix b = true) ↔ ∀ b ∈ run, radix.Spells b := by
  simp only [inRun_iff]

theorem stops_inRun_iff {radix : Radix} {rest : Bytes} :
    Stops (Numeral.inRun radix) rest ↔ radix.EndsBefore rest := by
  simp only [Stops, EndsBefore, ← inRun_iff, Bool.not_eq_true]

/-! ## Letters of marks -/

/-- The letters that mark the base behind a zero; base ten is not marked. -/
def letters : Radix → List UInt8
  | binary => [ascii 'b', ascii 'B']
  | octal => [ascii 'o', ascii 'O']
  | decimal => []
  | hexadecimal => [ascii 'x', ascii 'X']

theorem ofMark?_eq_some_iff {radix : Radix} {letter : UInt8} :
    ofMark? letter = some radix ↔ letter ∈ radix.letters := by
  constructor
  · intro h
    simp only [ofMark?, Bool.or_eq_true, decide_eq_true_eq] at h
    split at h
    · cases h
      simpa [letters]
    split at h
    · cases h
      simpa [letters]
    split at h
    · cases h
      simpa [letters]
    · cases h
  · intro h
    cases radix with
    | decimal => cases h
    | binary | octal | hexadecimal =>
        simp only [letters, List.mem_cons, List.not_mem_nil, or_false] at h
        rcases h with rfl | rfl
        · decide
        · decide

end Radix

/-! ## Runs -/

theorem stops_dropWhile {p : UInt8 → Bool} (text : Bytes) : Stops p (text.dropWhile p) := by
  induction text with
  | nil => exact stops_nil
  | cons b text ih =>
      cases hb : p b with
      | true => simpa [hb] using ih
      | false => simp [hb, stops_cons]

/-- A run is taken off a text exactly where it is a run and can be no longer. -/
theorem takeWhile_append_eq_iff {p : UInt8 → Bool} {run rest : Bytes} :
    (run ++ rest).takeWhile p = run ↔ (∀ b ∈ run, p b = true) ∧ Stops p rest := by
  constructor
  · intro h
    refine ⟨?_, ?_⟩
    · rw [← h]
      exact List.all_eq_true.1 List.all_takeWhile
    · rw [← dropWhile_eq_of_takeWhile_eq h]
      exact stops_dropWhile _
  · rintro ⟨hrun, hrest⟩
    exact (takeWhile_run hrun hrest).1

namespace Numeral

theorem takeWhile_inRun_eq_iff {radix : Radix} {run rest : Bytes} :
    (run ++ rest).takeWhile (inRun radix) = run ↔
      (∀ b ∈ run, radix.Spells b) ∧ radix.EndsBefore rest := by
  rw [takeWhile_append_eq_iff, Radix.forall_inRun_iff, Radix.stops_inRun_iff]

/-! ## Marks -/

/-- The mark of a numeral in front of a text. -/
inductive IsMark : Radix → Bytes → Bytes → Prop
  | marked {radix : Radix} {letter : UInt8} {rest : Bytes} (h : letter ∈ radix.letters) :
      IsMark radix [ascii '0', letter] rest
  | unmarked {rest : Bytes}
      (h : ∀ radix, ∀ letter ∈ Radix.letters radix, ¬[ascii '0', letter] <+: rest) :
      IsMark .decimal [] rest

theorem scanMark_marked {radix : Radix} {letter : UInt8} (h : letter ∈ radix.letters)
    (rest : Bytes) :
    scanMark (ascii '0' :: letter :: rest) = (radix, [ascii '0', letter], rest) := by
  rw [scanMark_cons_cons, if_pos rfl, Radix.ofMark?_eq_some_iff.2 h]

theorem scanMark_unmarked {input : Bytes}
    (h : ∀ radix, ∀ letter ∈ Radix.letters radix, ¬[ascii '0', letter] <+: input) :
    scanMark input = (.decimal, [], input) := by
  match input, h with
  | [], _ => rfl
  | [_], _ => rfl
  | zero :: letter :: rest, h =>
      rw [scanMark_cons_cons]
      by_cases hzero : zero = ascii '0'
      · subst hzero
        rw [if_pos rfl]
        cases hmark : Radix.ofMark? letter with
        | none => rfl
        | some radix =>
            exact absurd (List.prefix_append [ascii '0', letter] rest)
              (h radix letter (Radix.ofMark?_eq_some_iff.1 hmark))
      · rw [if_neg hzero]

theorem scanMark_eq_iff {radix : Radix} {mark rest : Bytes} :
    scanMark (mark ++ rest) = (radix, mark, rest) ↔ IsMark radix mark rest := by
  constructor
  · intro h
    by_cases hmark : ∃ radix, ∃ letter ∈ Radix.letters radix, [ascii '0', letter] <+: mark ++ rest
    · obtain ⟨found, letter, hletter, tail, hinput⟩ := hmark
      rw [← hinput, List.cons_append, List.cons_append, List.nil_append,
        scanMark_marked hletter, Prod.mk.injEq, Prod.mk.injEq] at h
      obtain ⟨rfl, rfl, rfl⟩ := h
      exact .marked hletter
    · simp only [not_exists, not_and] at hmark
      rw [scanMark_unmarked hmark, Prod.mk.injEq, Prod.mk.injEq] at h
      obtain ⟨rfl, rfl, -⟩ := h
      exact .unmarked hmark
  · intro h
    cases h with
    | marked h => exact scanMark_marked h rest
    | unmarked h => exact scanMark_unmarked h

theorem IsMark.eq_nil {mark rest : Bytes} (h : IsMark .decimal mark rest) : mark = [] := by
  cases h with
  | marked hletter => cases hletter
  | unmarked _ => rfl

/-! ## Optional parts -/

/-- A point, a digit, and a run of digits and underscores. -/
def IsFraction (part : Bytes) : Prop :=
  ∃ d run, part = ascii '.' :: d :: run ∧ Byte.isDigit d = true ∧ ∀ b ∈ run, Radix.decimal.Spells b

/-- The signs of an exponent. -/
def signs : List Bytes := [[], [ascii '+'], [ascii '-']]

/-- A letter, a sign or none, a digit, and a run of digits and underscores. -/
def IsExponent (part : Bytes) : Prop :=
  ∃ e sign d run, part = e :: (sign ++ d :: run) ∧ (e = ascii 'e' ∨ e = ascii 'E') ∧
    sign ∈ signs ∧ Byte.isDigit d = true ∧ ∀ b ∈ run, Radix.decimal.Spells b

/-- A part of this form in front of a text, as long as it can be, or nothing where none begins. -/
inductive Part (Form : Bytes → Prop) (rest : Bytes) : Bytes → Prop
  | absent (h : ∀ part, Form part → ¬part <+: rest) : Part Form rest []
  | present {part : Bytes} (h : Form part) (hrest : Radix.decimal.EndsBefore rest) :
      Part Form rest part

/-- A stage takes a part of this form with the run behind it, and nothing where none begins. -/
structure Finds (stage : Bytes → Bytes × Bytes) (Form : Bytes → Prop) : Prop where
  found : ∀ part, Form part → ∀ rest, stage (part ++ rest) =
    (part ++ rest.takeWhile (inRun .decimal), rest.dropWhile (inRun .decimal))
  longer : ∀ part, Form part → ∀ run, (∀ b ∈ run, Radix.decimal.Spells b) → Form (part ++ run)
  missing : ∀ input, (∀ part, Form part → ¬part <+: input) → stage input = ([], input)

theorem Finds.eq_iff {stage : Bytes → Bytes × Bytes} {Form : Bytes → Prop}
    (h : Finds stage Form) {part rest : Bytes} :
    stage (part ++ rest) = (part, rest) ↔ Part Form rest part := by
  constructor
  · intro hstage
    by_cases hbegins : ∃ first, Form first ∧ first <+: part ++ rest
    · obtain ⟨first, hfirst, tail, hinput⟩ := hbegins
      rw [← hinput, h.found first hfirst, Prod.mk.injEq] at hstage
      obtain ⟨rfl, rfl⟩ := hstage
      have hrun : ∀ b ∈ tail.takeWhile (inRun .decimal), inRun .decimal b = true :=
        List.all_eq_true.1 List.all_takeWhile
      exact .present (h.longer first hfirst _ (Radix.forall_inRun_iff.1 hrun))
        (Radix.stops_inRun_iff.1 (stops_dropWhile tail))
    · simp only [not_exists, not_and] at hbegins
      rw [h.missing _ hbegins, Prod.mk.injEq] at hstage
      obtain ⟨rfl, -⟩ := hstage
      exact .absent hbegins
  · intro hpart
    cases hpart with
    | absent hnone => exact h.missing rest hnone
    | present hform hrest =>
        have hstops := Radix.stops_inRun_iff.2 hrest
        obtain ⟨htake, hdrop⟩ := takeWhile_run (List.forall_mem_nil _) hstops
        rw [List.nil_append] at htake hdrop
        rw [h.found part hform, htake, hdrop, List.append_nil]

theorem finds_scanFraction : Finds scanFraction IsFraction where
  found := by
    rintro _ ⟨d, run, rfl, hd, hrun⟩ rest
    have hall : ∀ b ∈ d :: run, inRun .decimal b = true :=
      List.forall_mem_cons.2 ⟨inRun_of_isDigit hd, Radix.forall_inRun_iff.2 hrun⟩
    rw [List.cons_append, List.cons_append, scanFraction_cons_cons, hd, ← List.cons_append,
      List.takeWhile_append_of_pos hall, List.dropWhile_append_of_pos hall]
    simp
  longer := by
    rintro _ ⟨d, run, rfl, hd, hrun⟩ more hmore
    exact ⟨d, run ++ more, rfl, hd, fun b hb => (List.mem_append.1 hb).elim (hrun b) (hmore b)⟩
  missing := by
    intro input hnone
    match input, hnone with
    | [], _ => rfl
    | [_], _ => rfl
    | point :: d :: rest, hnone =>
        rw [scanFraction_cons_cons]
        refine if_neg ?_
        intro hcond
        simp only [Bool.and_eq_true, decide_eq_true_eq] at hcond
        obtain ⟨rfl, hd⟩ := hcond
        exact hnone [ascii '.', d] ⟨d, [], rfl, hd, by simp⟩ (List.prefix_append [_, _] rest)

theorem scanSign_append_of_mem_signs {sign : Bytes} (h : sign ∈ signs) {d : UInt8}
    (hd : Byte.isDigit d = true) (rest : Bytes) :
    scanSign (sign ++ d :: rest) = (sign, d :: rest) := by
  simp only [signs, List.mem_cons, List.not_mem_nil, or_false] at h
  rcases h with rfl | rfl | rfl
  · have hplus : d ≠ ascii '+' := by
      rintro rfl
      exact absurd hd (by decide)
    have hminus : d ≠ ascii '-' := by
      rintro rfl
      exact absurd hd (by decide)
    simp [scanSign_cons, hplus, hminus]
  · rfl
  · rfl

theorem scanSign_mem_signs (input : Bytes) : (scanSign input).1 ∈ signs := by
  cases input with
  | nil => exact List.mem_cons_self
  | cons s rest =>
      rw [scanSign_cons]
      split
      · rename_i hs
        simp only [Bool.or_eq_true, decide_eq_true_eq] at hs
        rcases hs with rfl | rfl
        · exact List.mem_cons_of_mem _ List.mem_cons_self
        · exact List.mem_cons_of_mem _ (List.mem_cons_of_mem _ List.mem_cons_self)
      · exact List.mem_cons_self

theorem finds_scanExponent : Finds scanExponent IsExponent where
  found := by
    rintro _ ⟨e, sign, d, run, rfl, he, hsign, hd, hrun⟩ rest
    have hall : ∀ b ∈ d :: run, inRun .decimal b = true :=
      List.forall_mem_cons.2 ⟨inRun_of_isDigit hd, Radix.forall_inRun_iff.2 hrun⟩
    have htake : (d :: (run ++ rest)).takeWhile (inRun .decimal) =
        d :: run ++ rest.takeWhile (inRun .decimal) := List.takeWhile_append_of_pos hall
    have hdrop : (d :: (run ++ rest)).dropWhile (inRun .decimal) =
        rest.dropWhile (inRun .decimal) := List.dropWhile_append_of_pos hall
    have hscan := scanSign_append_of_mem_signs hsign hd (run ++ rest)
    have hcond : ((e = ascii 'e' || e = ascii 'E') &&
        (d :: (run ++ rest)).head?.any Byte.isDigit) = true := by
      simp [he, hd]
    rw [List.cons_append, List.append_assoc, List.cons_append, scanExponent_of_scanSign hscan,
      if_pos hcond, htake, hdrop]
    simp
  longer := by
    rintro _ ⟨e, sign, d, run, rfl, he, hsign, hd, hrun⟩ more hmore
    exact ⟨e, sign, d, run ++ more, by simp, he, hsign, hd,
      fun b hb => (List.mem_append.1 hb).elim (hrun b) (hmore b)⟩
  missing := by
    intro input hnone
    cases input with
    | nil => rfl
    | cons e rest =>
        rw [scanExponent_cons]
        refine if_neg ?_
        intro hcond
        simp only [Bool.and_eq_true, Bool.or_eq_true, decide_eq_true_eq] at hcond
        obtain ⟨he, hdigit⟩ := hcond
        have hsplit := scanSign_append rest
        cases hdigits : (scanSign rest).2 with
        | nil => simp [hdigits] at hdigit
        | cons d tail =>
            have hd : Byte.isDigit d = true := by simpa [hdigits] using hdigit
            refine hnone (e :: ((scanSign rest).1 ++ [d]))
              ⟨e, _, d, [], rfl, he, scanSign_mem_signs rest, hd, by simp⟩ ⟨tail, ?_⟩
            rw [hdigits] at hsplit
            simp [hsplit]

/-- A part that only numerals in base ten have. -/
def DecimalPart (radix : Radix) (Form : Bytes → Prop) (rest part : Bytes) : Prop :=
  if radix = .decimal then Part Form rest part else part = []

theorem DecimalPart.eq_nil_or_form {radix : Radix} {Form : Bytes → Prop} {rest part : Bytes}
    (h : DecimalPart radix Form rest part) : part = [] ∨ Form part := by
  rw [DecimalPart] at h
  split at h
  · cases h with
    | absent _ => exact .inl rfl
    | present hform _ => exact .inr hform
  · exact .inl h

/-- A part that is there is as long as it can be. -/
theorem DecimalPart.eq_nil_or_endsBefore {radix : Radix} {Form : Bytes → Prop}
    {rest part : Bytes} (h : DecimalPart radix Form rest part) :
    part = [] ∨ radix.EndsBefore rest := by
  rw [DecimalPart] at h
  split at h
  · rename_i hradix
    cases h with
    | absent _ => exact .inl rfl
    | present _ hrest => exact .inr (hradix ▸ hrest)
  · exact .inl h

theorem Finds.ifDecimal_eq_iff {stage : Bytes → Bytes × Bytes} {Form : Bytes → Prop}
    (h : Finds stage Form) {radix : Radix} {part rest : Bytes} :
    ifDecimal radix stage (part ++ rest) = (part, rest) ↔ DecimalPart radix Form rest part := by
  rw [ifDecimal_eq, DecimalPart]
  split
  · exact h.eq_iff
  · rw [Prod.mk.injEq]
    constructor
    · exact fun hpart => hpart.1.symm
    · rintro rfl
      exact ⟨rfl, rfl⟩

/-! ## Whole numerals -/

/-- A numeral with at least one digit of its base is written in front of a text, and goes no
further. -/
structure Written (n : Numeral) (behind : Bytes) : Prop where
  starts : n.text.head?.any Byte.isDigit = true
  mark : IsMark n.radix n.mark (n.whole ++ (n.fraction ++ (n.exponent ++ (n.suffix ++ behind))))
  /-- Underscores may stand anywhere among the digits. -/
  whole : ∀ b ∈ n.whole, n.radix.Spells b
  digits : digitsOf n.whole ≠ []
  ends : n.radix.EndsBefore (n.fraction ++ (n.exponent ++ (n.suffix ++ behind)))
  fraction : DecimalPart n.radix IsFraction (n.exponent ++ (n.suffix ++ behind)) n.fraction
  exponent : DecimalPart n.radix IsExponent (n.suffix ++ behind) n.exponent
  suffix : ∀ b ∈ n.suffix, Byte.isNamePart b = true
  behind : Stops Byte.isNamePart behind

/-- No digit of the base and no underscore begins the suffix. -/
theorem Written.endsBefore_suffix {n : Numeral} {behind : Bytes} (h : n.Written behind) :
    n.radix.EndsBefore (n.suffix ++ behind) := by
  rcases h.exponent.eq_nil_or_endsBefore with hexponent | hends
  · -- the suffix comes behind the fraction, or right behind the digits
    have hwhole := h.ends
    have hfraction := h.fraction.eq_nil_or_endsBefore
    rw [hexponent, List.nil_append] at hwhole hfraction
    rcases hfraction with hfraction | hends
    · rwa [hfraction, List.nil_append] at hwhole
    · exact hends
  · exact hends

/-- A numeral is written where each stage of the scanner takes its part. -/
theorem written_iff_stages {n : Numeral} {behind : Bytes} :
    n.Written behind ↔
      n.text.head?.any Byte.isDigit = true ∧ Stages (n.text ++ behind) n behind := by
  have htext : n.text ++ behind =
      n.mark ++ (n.whole ++ (n.fraction ++ (n.exponent ++ (n.suffix ++ behind)))) := by
    simp [text]
  rw [htext]
  constructor
  · intro h
    exact ⟨h.starts, scanMark_eq_iff.2 h.mark, takeWhile_inRun_eq_iff.2 ⟨h.whole, h.ends⟩,
      h.digits, finds_scanFraction.ifDecimal_eq_iff.2 h.fraction,
      finds_scanExponent.ifDecimal_eq_iff.2 h.exponent,
      takeWhile_append_eq_iff.2 ⟨h.suffix, h.behind⟩⟩
  · rintro ⟨hstarts, h⟩
    obtain ⟨hwhole, hends⟩ := takeWhile_inRun_eq_iff.1 h.whole
    obtain ⟨hsuffix, hbehind⟩ := takeWhile_append_eq_iff.1 h.suffix
    exact ⟨hstarts, scanMark_eq_iff.1 h.mark, hwhole, h.digits, hends,
      finds_scanFraction.ifDecimal_eq_iff.1 h.fraction,
      finds_scanExponent.ifDecimal_eq_iff.1 h.exponent, hsuffix, hbehind⟩

theorem Written.scan_eq {n : Numeral} {behind : Bytes} (h : n.Written behind) :
    scan (n.text ++ behind) = (n, behind) :=
  (written_iff_stages.1 h).2.scan_eq

/-- What is left of a run without its underscores are digits. -/
theorem hasDigit_of_mem_digitsOf {radix : Radix} {run : Bytes}
    (h : ∀ b ∈ run, radix.Spells b) : ∀ b ∈ digitsOf run, radix.hasDigit b = true := by
  intro b hb
  obtain ⟨hmem, hdigit⟩ := List.mem_filter.1 hb
  exact Radix.hasDigit_iff.2 ((h b hmem).resolve_right (by simpa using hdigit))

theorem digitsOf_cons_of_ne {b : UInt8} (h : b ≠ ascii '_') (rest : Bytes) :
    digitsOf (b :: rest) = b :: digitsOf rest := by
  simp [digitsOf, h]

theorem digitsOf_cons {d : UInt8} (h : Byte.isDigit d = true) (rest : Bytes) :
    digitsOf (d :: rest) = d :: digitsOf rest := by
  apply digitsOf_cons_of_ne
  rintro rfl
  exact absurd h (by decide)

/-- A digit begins a numeral in base ten that has a digit, or a mark. -/
theorem radix_ne_decimal_of_scan {b : UInt8} {rest behind : Bytes} {n : Numeral}
    (h : scan (b :: rest) = (n, behind)) (hb : Byte.isDigit b = true)
    (hdigits : digitsOf n.whole = []) : n.radix ≠ .decimal := by
  obtain ⟨radix, mark, tail, hmark⟩ :
      ∃ radix mark tail, scanMark (b :: rest) = (radix, mark, tail) := ⟨_, _, _, rfl⟩
  have hinput := scanMark_append (b :: rest)
  rw [hmark] at hinput
  simp only [scan, hmark] at h
  by_cases hnone : digitsOf (tail.takeWhile (inRun radix)) = []
  · rw [if_pos hnone] at h
    obtain ⟨rfl, -⟩ := Prod.mk.inj h
    rintro rfl
    rw [← hinput] at hmark
    obtain rfl := (scanMark_eq_iff.1 hmark).eq_nil
    obtain rfl : tail = b :: rest := hinput
    rw [List.takeWhile_cons_of_pos (inRun_of_isDigit hb), digitsOf_cons hb] at hnone
    cases hnone
  · rw [if_neg hnone] at h
    obtain ⟨rfl, -⟩ := Prod.mk.inj h
    exact absurd hdigits hnone

/-- A numeral with digits that is scanned behind a digit is written there. -/
theorem written_of_scan {b : UInt8} {rest behind : Bytes} {n : Numeral}
    (h : scan (b :: rest) = (n, behind)) (hb : Byte.isDigit b = true)
    (hdigits : digitsOf n.whole ≠ []) : n.Written behind := by
  have hsplit := text_scan (b :: rest)
  have hne := text_scan_ne_nil b rest hb
  rw [h] at hsplit hne
  refine written_iff_stages.2 ⟨?_, hsplit ▸ stages_of_scan h hdigits⟩
  obtain ⟨c, more, htext⟩ := List.exists_cons_of_ne_nil hne
  rw [htext, List.cons_append, List.cons.injEq] at hsplit
  obtain ⟨rfl, -⟩ := hsplit
  rw [htext]
  exact hb

end Numeral

namespace Span

/-- A digit begins a numeral. -/
theorem scan_of_isDigit {b : UInt8} (h : Byte.isDigit b = true) (rest : Bytes) :
    scan b rest = scanNumeral (b :: rest) := by
  have hne : ∀ c, Byte.isDigit c = false → b ≠ c := by
    rintro c hc rfl
    rw [h] at hc
    cases hc
  have hopening : Delimiter.ofOpening? b = none := by
    rw [Delimiter.ofOpening?, List.find?_eq_none]
    intro d _
    simpa using (hne d.opening (by cases d <;> decide)).symm
  have hclosing : Delimiter.ofClosing? b = none := by
    rw [Delimiter.ofClosing?, List.find?_eq_none]
    intro d _
    simpa using (hne d.closing (by cases d <;> decide)).symm
  have hblank : Byte.isBlank b = false := by
    simp [Byte.isBlank, hne Byte.space (by decide), hne Byte.tab (by decide),
      hne Byte.carriageReturn (by decide), hne Byte.newline (by decide)]
  simp [scan, hopening, hclosing, hblank, hne Byte.quote (by decide),
    hne Byte.apostrophe (by decide), hne (ascii '/') (by decide), h]

end Span

/-! ## Numerals in a call -/

theorem Numeral.Written.exists_cons {n : Numeral} {behind : Bytes} (h : n.Written behind) :
    ∃ b rest, n.text ++ behind = b :: rest ∧ Byte.isDigit b = true := by
  have hstarts := h.starts
  cases htext : n.text with
  | nil => simp [htext] at hstarts
  | cons b more => exact ⟨b, more ++ behind, rfl, by simpa [htext] using hstarts⟩

namespace Lexer

section Numeral

variable {lexer : Lexer} {state : State} {b : UInt8} {rest behind : Bytes} {n : Numeral}

theorem Reaches.emits_numeral (h : lexer.Reaches state) (hinput : state.input = b :: rest)
    (hb : Byte.isDigit b = true) (hscan : Numeral.scan (b :: rest) = (n, behind))
    {literal : Literal} (hdecode : n.decode = .ok literal) :
    lexer.Emits state ⟨n.kind, n.text, some literal, n.suffix, state.position⟩ [] behind := by
  apply h.emits hinput
  rw [Span.scan_of_isDigit hb, Span.scanNumeral, hscan]
  simp only [hdecode]

theorem Reaches.givesUp_numeral (h : lexer.Reaches state) (hinput : state.input = b :: rest)
    (hb : Byte.isDigit b = true) (hscan : Numeral.scan (b :: rest) = (n, behind))
    {complaint : Complaint} (hdecode : n.decode = .error complaint) :
    lexer.GivesUp state n.text [complaint] behind := by
  apply h.givesUp hinput
  rw [Span.scan_of_isDigit hb, Span.scanNumeral, hscan]
  simp only [hdecode]

end Numeral
end Lexer
end RealtimeApp
