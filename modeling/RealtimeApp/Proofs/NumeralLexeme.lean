import RealtimeApp.Numeral
import RealtimeApp.Proofs.Boundary

/-!
# Numerals stand on their own

The scanner of numerals looks up to two bytes ahead for a fraction or an exponent.  Cutting a
numeral out of its source and putting a boundary behind it, or behind some of the bytes that
followed it, changes none of these decisions: scanning the text of a numeral again gives the same
parts (`scan_swap`).

Every stage is treated alike (`Stays`).  A stage that took `taken` off `taken ++ (text ++ behind)`
takes the same off `taken ++ (text ++ rest)` when `rest` is bounded; `text` is what the later
stages took.
-/

namespace RealtimeApp
namespace Numeral

theorem stops_inRun {rest : Bytes} (h : Bounded rest) (radix : Radix) :
    Stops (inRun radix) rest := by
  apply h.stops
  cases radix <;> decide

/-- A stage takes the same when what lies behind the later stages is replaced by a boundary. -/
def Stays (stage : Bytes → Bytes × Bytes) : Prop :=
  ∀ taken text behind rest : Bytes, Bounded rest →
    stage (taken ++ (text ++ behind)) = (taken, text ++ behind) →
      stage (taken ++ (text ++ rest)) = (taken, text ++ rest)

/-! ## Marks -/

theorem scanMark_cons_cons (zero letter : UInt8) (rest : Bytes) :
    scanMark (zero :: letter :: rest) =
      match (if zero = ascii '0' then Radix.ofMark? letter else none) with
      | some radix => (radix, [zero, letter], rest)
      | none => (.decimal, [], zero :: letter :: rest) := rfl

theorem scanMark_swap {radix : Radix} {mark rest : Bytes} (text behind : Bytes)
    (h : scanMark (mark ++ (text ++ behind)) = (radix, mark, text ++ behind))
    (hrest : Bounded rest) :
    scanMark (mark ++ (text ++ rest)) = (radix, mark, text ++ rest) := by
  have hletter : Stops (fun b => (Radix.ofMark? b).isSome) rest := hrest.stops (by decide)
  cases mark with
  | nil =>
      have hradix : radix = .decimal := by
        rcases scanMark_eq ([] ++ (text ++ behind)) with hmark | hmark
        · rw [h] at hmark
          exact absurd rfl hmark
        · rw [h] at hmark
          exact congrArg Prod.fst hmark
      subst hradix
      match text, h with
      | [], _ =>
          match rest, hrest with
          | [], _ => rfl
          | [_], _ => rfl
          | b :: c :: more, hrest =>
              have hzero : b ≠ ascii '0' := by
                have hb := Byte.forall_boundary (p := (· != ascii '0')) (by decide)
                  (bounded_cons.1 hrest)
                simpa using hb
              simp [scanMark_cons_cons, hzero]
      | [zero], _ =>
          match rest, hletter with
          | [], _ => rfl
          | b :: more, hletter =>
              have hb : Radix.ofMark? b = none := by simpa using stops_cons.1 hletter
              simp [scanMark_cons_cons, hb]
      | zero :: letter :: more, h =>
          simp only [List.nil_append, List.cons_append, scanMark_cons_cons] at h ⊢
          split at h
          · simp at h
          · rfl
  | cons zero more =>
      cases more with
      | nil =>
          -- a mark has two bytes
          generalize text ++ behind = tail at h
          cases tail with
          | nil => simp [scanMark] at h
          | cons letter tail =>
              simp only [List.cons_append, List.nil_append, scanMark_cons_cons] at h
              split at h <;> simp at h
      | cons letter more =>
          simp only [List.cons_append, scanMark_cons_cons] at h ⊢
          split at h
          · simp only [Prod.mk.injEq, List.cons.injEq, true_and] at h ⊢
            obtain ⟨hradix, hmore, -⟩ := h
            have hmore : more = [] := by simpa using hmore
            exact ⟨hradix, hmore.symm, by simp [hmore]⟩
          · simp at h

/-! ## Fractions -/

theorem scanFraction_cons_cons (point d : UInt8) (rest : Bytes) :
    scanFraction (point :: d :: rest) =
      if point = ascii '.' && Byte.isDigit d then
        (point :: (d :: rest).takeWhile (inRun .decimal),
          (d :: rest).dropWhile (inRun .decimal))
      else ([], point :: d :: rest) := rfl

theorem stays_scanFraction : Stays scanFraction := by
  intro fraction text behind rest hrest h
  have hdigit : Stops Byte.isDigit rest := hrest.stops (by decide)
  cases fraction with
  | nil =>
      match text, h with
      | [], _ =>
          match rest, hrest with
          | [], _ => rfl
          | [_], _ => rfl
          | b :: c :: more, hrest =>
              have hpoint : b ≠ ascii '.' := by
                have hb := Byte.forall_boundary (p := (· != ascii '.')) (by decide)
                  (bounded_cons.1 hrest)
                simpa using hb
              simp [scanFraction_cons_cons, hpoint]
      | [_], _ =>
          match rest, hdigit with
          | [], _ => rfl
          | b :: more, hdigit => simp [scanFraction_cons_cons, stops_cons.1 hdigit]
      | point :: d :: more, h =>
          simp only [List.nil_append, List.cons_append, scanFraction_cons_cons] at h ⊢
          split at h
          · simp at h
          · rename_i hcond
            rw [if_neg hcond]
  | cons point run =>
      cases run with
      | nil =>
          -- a fraction has a digit behind its point
          generalize text ++ behind = tail at h
          cases tail with
          | nil => simp [scanFraction] at h
          | cons d tail =>
              simp only [List.cons_append, List.nil_append, scanFraction_cons_cons] at h
              split at h
              · rename_i hcond
                have hd : inRun .decimal d = true := by
                  simp only [Bool.and_eq_true, decide_eq_true_eq] at hcond
                  simp [inRun, Radix.hasDigit, hcond.2]
                simp [hd] at h
              · simp at h
      | cons d run =>
          simp only [List.cons_append, scanFraction_cons_cons] at h ⊢
          split at h
          · rename_i hcond
            have hrun : (d :: run ++ (text ++ behind)).takeWhile (inRun .decimal) = d :: run :=
              (List.cons.inj (congrArg Prod.fst h)).2
            have hnew := takeWhile_append_swap text behind (stops_inRun hrest .decimal) _ hrun
            have hleft := dropWhile_eq_of_takeWhile_eq hnew
            simp only [List.cons_append] at hnew hleft
            rw [if_pos hcond, hnew, hleft]
          · simp at h

/-! ## Exponents -/

theorem scanSign_eq {input : Bytes} (h : Stops (fun b => b == ascii '+' || b == ascii '-') input) :
    scanSign input = ([], input) := by
  cases input with
  | nil => rfl
  | cons b rest =>
      have hb := stops_cons.1 h
      simp only [Bool.or_eq_false_iff, beq_eq_false_iff_ne] at hb
      simp [scanSign, hb.1, hb.2]

theorem scanSign_cons (s : UInt8) (rest : Bytes) :
    scanSign (s :: rest) =
      if s = ascii '+' || s = ascii '-' then ([s], rest) else ([], s :: rest) := rfl

/-- Whether an exponent begins behind its letter is decided by what a boundary cannot be: a
digit, or a sign before one. -/
theorem any_isDigit_scanSign_swap {text behind rest : Bytes} (hrest : Bounded rest)
    (h : (scanSign (text ++ behind)).2.head?.any Byte.isDigit = false) :
    (scanSign (text ++ rest)).2.head?.any Byte.isDigit = false := by
  have hdigit : Stops Byte.isDigit rest := hrest.stops (by decide)
  have hsign : scanSign rest = ([], rest) := scanSign_eq (hrest.stops (by decide))
  have hhead : rest.head?.any Byte.isDigit = false := by
    cases rest with
    | nil => rfl
    | cons b more => simpa using stops_cons.1 hdigit
  match text, h with
  | [], _ => rw [List.nil_append, hsign, hhead]
  | [s], h =>
      simp only [List.cons_append, List.nil_append, scanSign_cons] at h ⊢
      by_cases hs : (s = ascii '+' || s = ascii '-') = true
      · rw [if_pos hs]
        exact hhead
      · rw [if_neg hs] at h ⊢
        exact h
  | s :: d :: more, h =>
      simp only [List.cons_append, scanSign_cons] at h ⊢
      by_cases hs : (s = ascii '+' || s = ascii '-') = true
      · rw [if_pos hs] at h ⊢
        exact h
      · rw [if_neg hs] at h ⊢
        exact h

theorem inRun_of_isDigit {d : UInt8} (h : Byte.isDigit d = true) : inRun .decimal d = true := by
  simp [inRun, Radix.hasDigit, h]

theorem takeWhile_inRun_ne_nil {digits : Bytes} (h : digits.head?.any Byte.isDigit = true) :
    digits.takeWhile (inRun .decimal) ≠ [] := by
  cases digits with
  | nil => simp at h
  | cons d more =>
      have hd : Byte.isDigit d = true := by simpa using h
      simp [inRun_of_isDigit hd]

/-- A run of digits that begins with a digit does so whatever follows it. -/
theorem any_isDigit_head_swap {run tail : Bytes}
    (hrun : (run ++ tail).takeWhile (inRun .decimal) = run)
    (hdigit : (run ++ tail).head?.any Byte.isDigit = true) (rest : Bytes) :
    (run ++ rest).head?.any Byte.isDigit = true := by
  cases run with
  | nil => exact absurd hrun (takeWhile_inRun_ne_nil hdigit)
  | cons d run => simpa using hdigit

/-- The sign of a text that is not empty does not depend on what follows the text. -/
theorem exists_scanSign_append (s : UInt8) (more : Bytes) :
    ∃ sign digits, s :: more = sign ++ digits ∧
      ∀ tail, scanSign (s :: more ++ tail) = (sign, digits ++ tail) := by
  by_cases hs : (s = ascii '+' || s = ascii '-') = true
  · exact ⟨[s], more, rfl, fun tail => if_pos hs⟩
  · exact ⟨[], s :: more, rfl, fun tail => if_neg hs⟩

theorem scanExponent_cons (e : UInt8) (rest : Bytes) :
    scanExponent (e :: rest) =
      if (e = ascii 'e' || e = ascii 'E') && (scanSign rest).2.head?.any Byte.isDigit then
        (e :: ((scanSign rest).1 ++ (scanSign rest).2.takeWhile (inRun .decimal)),
          (scanSign rest).2.dropWhile (inRun .decimal))
      else ([], e :: rest) := rfl

theorem scanExponent_of_scanSign {rest sign digits : Bytes} (h : scanSign rest = (sign, digits))
    (e : UInt8) :
    scanExponent (e :: rest) =
      if (e = ascii 'e' || e = ascii 'E') && digits.head?.any Byte.isDigit then
        (e :: (sign ++ digits.takeWhile (inRun .decimal)), digits.dropWhile (inRun .decimal))
      else ([], e :: rest) := by
  simp only [scanExponent_cons, h]

theorem scanExponent_swap_nil {text behind rest : Bytes}
    (h : (scanExponent (text ++ behind)).1 = []) (hrest : Bounded rest) :
    scanExponent (text ++ rest) = ([], text ++ rest) := by
  cases text with
  | nil =>
      cases rest with
      | nil => rfl
      | cons b more =>
          have hletter : (b != ascii 'e' && b != ascii 'E') = true :=
            Byte.forall_boundary (p := fun b => b != ascii 'e' && b != ascii 'E') (by decide)
              (bounded_cons.1 hrest)
          simp only [Bool.and_eq_true, bne_iff_ne, ne_eq] at hletter
          simp [scanExponent_cons, hletter.1, hletter.2]
  | cons e text =>
      rw [List.cons_append, scanExponent_cons] at h ⊢
      split at h
      · simp at h
      · rename_i hcond
        refine if_neg ?_
        intro hnew
        rw [Bool.and_eq_true] at hcond hnew
        refine hcond ⟨hnew.1, ?_⟩
        cases hdigit : (scanSign (text ++ behind)).2.head?.any Byte.isDigit with
        | true => rfl
        | false =>
            rw [any_isDigit_scanSign_swap hrest hdigit] at hnew
            exact hnew.2

theorem stays_scanExponent : Stays scanExponent := by
  intro exponent text behind rest hrest h
  match exponent, h with
  | [], h =>
      have hnil : (scanExponent (text ++ behind)).1 = [] := congrArg Prod.fst h
      show scanExponent (text ++ rest) = ([], text ++ rest)
      exact scanExponent_swap_nil hnil hrest
  | [e], h =>
      -- an exponent has a digit behind its letter and sign
      rw [List.cons_append, scanExponent_cons] at h
      split at h
      · rename_i hcond
        rw [Bool.and_eq_true] at hcond
        have hmore := (List.cons.inj (congrArg Prod.fst h)).2
        exact absurd (List.append_eq_nil_iff.1 hmore).2 (takeWhile_inRun_ne_nil hcond.2)
      · simp at h
  | e :: s :: more, h =>
      obtain ⟨sign, digits, hsplit, hscan⟩ := exists_scanSign_append s more
      rw [List.cons_append, scanExponent_of_scanSign (hscan _)] at h ⊢
      split at h
      · rename_i hcond
        rw [Bool.and_eq_true] at hcond
        obtain ⟨hletter, hdigit⟩ := hcond
        have hmore := (List.cons.inj (congrArg Prod.fst h)).2
        rw [hsplit] at hmore ⊢
        have hrun : (digits ++ (text ++ behind)).takeWhile (inRun .decimal) = digits :=
          List.append_cancel_left hmore
        have hnew := takeWhile_append_swap text behind (stops_inRun hrest .decimal) digits hrun
        have hhead := any_isDigit_head_swap hrun hdigit (text ++ rest)
        rw [if_pos (by rw [hletter, hhead]; rfl), hnew, dropWhile_eq_of_takeWhile_eq hnew]
      · simp at h

/-! ## Whole numerals -/

/-- A stage that only decimal numerals have. -/
def ifDecimal (radix : Radix) (stage : Bytes → Bytes × Bytes) (input : Bytes) : Bytes × Bytes :=
  if radix = .decimal then stage input else ([], input)

theorem ifDecimal_eq (radix : Radix) (stage : Bytes → Bytes × Bytes) (input : Bytes) :
    ifDecimal radix stage input = if radix = .decimal then stage input else ([], input) := rfl

theorem Stays.ifDecimal {stage : Bytes → Bytes × Bytes} (h : Stays stage) (radix : Radix) :
    Stays (ifDecimal radix stage) := by
  intro taken text behind rest hrest htaken
  rw [ifDecimal_eq] at htaken ⊢
  split at htaken
  · rename_i hradix
    rw [if_pos hradix]
    exact h taken text behind rest hrest htaken
  · rename_i hradix
    rw [if_neg hradix]
    obtain rfl : [] = taken := congrArg Prod.fst htaken
    rfl

theorem ifDecimal_append {stage : Bytes → Bytes × Bytes}
    (h : ∀ input, (stage input).1 ++ (stage input).2 = input) (radix : Radix) (input : Bytes) :
    (ifDecimal radix stage input).1 ++ (ifDecimal radix stage input).2 = input := by
  rw [ifDecimal_eq]
  split
  · exact h input
  · rfl

/-- The stages of a scan that finds at least one digit: each takes its part off the text that
the one before it left. -/
structure Stages (input : Bytes) (n : Numeral) (behind : Bytes) : Prop where
  mark : scanMark input =
    (n.radix, n.mark, n.whole ++ (n.fraction ++ (n.exponent ++ (n.suffix ++ behind))))
  whole : (n.whole ++ (n.fraction ++ (n.exponent ++ (n.suffix ++ behind)))).takeWhile
    (inRun n.radix) = n.whole
  digits : digitsOf n.whole ≠ []
  fraction : ifDecimal n.radix scanFraction (n.fraction ++ (n.exponent ++ (n.suffix ++ behind))) =
    (n.fraction, n.exponent ++ (n.suffix ++ behind))
  exponent : ifDecimal n.radix scanExponent (n.exponent ++ (n.suffix ++ behind)) =
    (n.exponent, n.suffix ++ behind)
  suffix : (n.suffix ++ behind).takeWhile Byte.isNamePart = n.suffix

theorem Stages.scan_eq {input behind : Bytes} {n : Numeral} (h : Stages input n behind) :
    scan input = (n, behind) := by
  have hbehind := dropWhile_eq_of_takeWhile_eq h.suffix
  have hwhole := dropWhile_eq_of_takeWhile_eq h.whole
  have hfraction := h.fraction
  have hexponent := h.exponent
  rw [ifDecimal_eq] at hfraction hexponent
  simp only [scan, h.mark, h.whole, if_neg h.digits, hwhole, hfraction, hexponent, h.suffix,
    hbehind]

theorem stages_of_scan {input behind : Bytes} {n : Numeral} (h : scan input = (n, behind))
    (hdigits : digitsOf n.whole ≠ []) : Stages input n behind := by
  -- each stage gets a name for its part and for what it left, which is then put together again
  obtain ⟨radix, mark, tail, hmark⟩ :
      ∃ radix mark tail, scanMark input = (radix, mark, tail) := ⟨_, _, _, rfl⟩
  have hwhole := List.takeWhile_append_dropWhile (p := inRun radix) (l := tail)
  simp only [scan, hmark] at h
  generalize hrun : tail.takeWhile (inRun radix) = whole at h hwhole
  generalize hleft : tail.dropWhile (inRun radix) = left at h hwhole
  by_cases hnone : digitsOf whole = []
  · rw [if_pos hnone] at h
    obtain ⟨rfl, -⟩ := Prod.mk.inj h
    exact absurd hnone hdigits
  · rw [if_neg hnone] at h
    obtain ⟨fraction, afterFraction, hfraction⟩ :
        ∃ fraction rest, ifDecimal radix scanFraction left = (fraction, rest) := ⟨_, _, rfl⟩
    have hfractionSplit := ifDecimal_append scanFraction_append radix left
    rw [hfraction] at hfractionSplit
    obtain ⟨exponent, afterExponent, hexponent⟩ :
        ∃ exponent rest, ifDecimal radix scanExponent afterFraction = (exponent, rest) :=
      ⟨_, _, rfl⟩
    have hexponentSplit := ifDecimal_append scanExponent_append radix afterFraction
    rw [hexponent] at hexponentSplit
    simp only [← ifDecimal_eq] at h
    rw [hfraction] at h
    simp only [hexponent] at h
    obtain ⟨rfl, rfl⟩ := Prod.mk.inj h
    have hsuffixSplit := List.takeWhile_append_dropWhile (p := Byte.isNamePart) (l := afterExponent)
    constructor
    case digits => exact hnone
    all_goals simp only [hsuffixSplit, hexponentSplit, hfractionSplit, hwhole]
    case mark => exact hmark
    case whole => exact hrun
    case fraction => exact hfraction
    case exponent => exact hexponent

/-- Scanning the text of a numeral behind which the input goes on alike up to a boundary finds the
same numeral. -/
theorem scan_swap {input behind rest : Bytes} {n : Numeral} (h : scan input = (n, behind))
    (hdigits : digitsOf n.whole ≠ []) (hlike : LikeToBoundary behind rest) :
    scan (n.text ++ rest) = (n, rest) := by
  have hold := stages_of_scan h hdigits
  have hinput : n.text ++ behind = input := by
    have hsplit := text_scan input
    rwa [h] at hsplit
  obtain ⟨shared, tail, rest, rfl, rfl, hrest⟩ := hlike
  have hname : Stops Byte.isNamePart rest := hrest.stops (by decide)
  apply Stages.scan_eq
  -- for every stage, what the later ones take and what the texts share is one text
  constructor
  case mark =>
    have hmark := hold.mark
    rw [← hinput] at hmark
    have hnew := scanMark_swap (n.whole ++ (n.fraction ++ (n.exponent ++ (n.suffix ++ shared))))
      tail (by simpa [text] using hmark) hrest
    simpa [text] using hnew
  case whole =>
    have hnew := takeWhile_append_swap (n.fraction ++ (n.exponent ++ (n.suffix ++ shared))) tail
      (stops_inRun hrest n.radix) n.whole (by simpa using hold.whole)
    simpa using hnew
  case digits => exact hdigits
  case fraction =>
    have hnew := (stays_scanFraction.ifDecimal n.radix) n.fraction
      (n.exponent ++ (n.suffix ++ shared)) tail rest hrest (by simpa using hold.fraction)
    simpa using hnew
  case exponent =>
    have hnew := (stays_scanExponent.ifDecimal n.radix) n.exponent (n.suffix ++ shared) tail rest
      hrest (by simpa using hold.exponent)
    simpa using hnew
  case suffix => exact takeWhile_append_swap shared tail hname n.suffix hold.suffix

end Numeral
end RealtimeApp
