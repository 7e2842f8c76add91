import RealtimeApp.Proofs.Outcome

/-!
# What complaints are about

A complaint is about a construct of the source: a literal, a comment, a byte that begins nothing,
an opener or a closer (`Complaint.IsAbout`).  The complaints of a span are about its own text, and
never about how it is nested (`Span.truthful_of_mem_all`).
-/

namespace RealtimeApp

namespace Complaint

/-- A complaint about an opener or a closer without its partner. -/
def isUnmatched : Complaint → Bool
  | strayCloser _ | mismatchedCloser .. | unclosed _ => true
  | _ => false

/-- A complaint about an opener beyond the limit on nesting. -/
def isTooDeep : Complaint → Bool
  | tooDeep _ => true
  | _ => false

theorem isTooDeep_of_isUnmatched {complaint : Complaint} (h : complaint.isUnmatched = true) :
    complaint.isTooDeep = false := by
  cases complaint with
  | strayCloser _ | mismatchedCloser _ _ _ | unclosed _ => rfl
  | _ => cases h

/-- A complaint can be about a construct with this text. -/
def IsAbout (text : Bytes) : Complaint → Prop
  | unexpectedByte b => text = [b]
  | missingDigits | misplacedFloatSuffix | integerTooLarge | float _ =>
    text.head?.any Byte.isDigit = true
  | unknownEscape b =>
    (text.head? = some Byte.quote ∨ text.head? = some Byte.apostrophe) ∧
      [Byte.backslash, b] <:+: text
  | unterminatedString => text.head? = some Byte.quote
  | unterminatedCharacter => [Byte.apostrophe, Byte.backslash] <+: text
  | invalidCharacter => text = [Byte.apostrophe]
  | unterminatedComment => BlockComment.opening <+: text
  | tooDeep _ => ∃ d : Delimiter, text = [d.opening]
  | strayCloser closer => text = [closer.closing]
  | mismatchedCloser closer _ _ => text = [closer.closing]
  | unclosed opener => text = [opener.opening]

/-- A complaint that a construct with this text gives cause for wherever it stands. -/
structure IsAboutAlone (text : Bytes) (complaint : Complaint) : Prop where
  about : complaint.IsAbout text
  matched : complaint.isUnmatched = false
  within : complaint.isTooDeep = false

end Complaint

/-- An escape that stands for nothing is written in the literal that it is remembered with. -/
theorem Quoted.escape_of_mem_unknown {input : Bytes} {b : UInt8}
    (h : b ∈ (scan input).1.unknown) : [Byte.backslash, b] <:+: (scan input).1.text := by
  fun_induction scan input with
  | case1 | case2 | case3 => cases h
  | case4 e behind _ ih =>
      have hlater : b ∈ (scan behind).1.unknown →
          [Byte.backslash, b] <:+: Byte.backslash :: e :: (scan behind).1.text := by
        intro hb
        exact (ih hb).trans (List.suffix_append [Byte.backslash, e] _).isInfix
      simp only [Prod.map_fst, text_consEscape] at h ⊢
      rw [consEscape] at h
      split at h
      · exact hlater h
      · rcases List.mem_cons.1 h with rfl | hb
        · exact (List.prefix_append [Byte.backslash, b] _).isInfix
        · exact hlater hb
  | case5 c tail _ _ ih => exact (ih h).trans (List.suffix_cons c _).isInfix

namespace Span

/-- The complaints of a span are about its text alone. -/
def Truthful (span : Span) : Prop :=
  ∀ complaint ∈ span.complaints, complaint.IsAboutAlone span.text

theorem truthful_of_complaints_eq_nil {span : Span} (h : span.complaints = []) :
    span.Truthful := by
  intro complaint hcomplaint
  rw [h] at hcomplaint
  cases hcomplaint

/-! ## Scanners -/

theorem truthful_scanString (rest : Bytes) : (scanString rest).1.Truthful := by
  have hunknown : ∀ complaint ∈ (Quoted.scan rest).1.unknown.map Complaint.unknownEscape,
      complaint.IsAboutAlone (Byte.quote :: (Quoted.scan rest).1.text) := by
    intro complaint hcomplaint
    obtain ⟨b, hb, rfl⟩ := List.mem_map.1 hcomplaint
    have hescape := (Quoted.escape_of_mem_unknown hb).trans (List.suffix_cons Byte.quote _).isInfix
    exact ⟨⟨.inl rfl, hescape⟩, rfl, rfl⟩
  simp only [scanString]
  split
  · exact hunknown
  · intro complaint hcomplaint
    rcases List.mem_append.1 hcomplaint with hcomplaint | hcomplaint
    · exact hunknown complaint hcomplaint
    · obtain rfl := List.mem_singleton.1 hcomplaint
      exact ⟨rfl, rfl, rfl⟩

theorem truthful_scanEscapedCharacter (rest : Bytes) :
    (scanEscapedCharacter rest).1.Truthful := by
  have hunterminated : ∀ text, Complaint.unterminatedCharacter.IsAbout
      (Byte.apostrophe :: Byte.backslash :: text) :=
    fun text => List.prefix_append [Byte.apostrophe, Byte.backslash] text
  match rest with
  | [] =>
      intro complaint hcomplaint
      obtain rfl := List.mem_singleton.1 hcomplaint
      exact ⟨hunterminated [], rfl, rfl⟩
  | e :: behind =>
      have hunknown : ∀ complaint ∈ if (unescape? e).isSome then [] else [.unknownEscape e],
          ∀ text, Complaint.IsAboutAlone (Byte.apostrophe :: Byte.backslash :: e :: text)
            complaint := by
        intro complaint hcomplaint text
        split at hcomplaint
        · cases hcomplaint
        · obtain rfl := List.mem_singleton.1 hcomplaint
          exact ⟨⟨.inr rfl, ⟨[Byte.apostrophe], text, rfl⟩⟩, rfl, rfl⟩
      have hboth : ∀ complaint ∈ (if (unescape? e).isSome then [] else [.unknownEscape e]) ++
            [Complaint.unterminatedCharacter],
          ∀ text, Complaint.IsAboutAlone (Byte.apostrophe :: Byte.backslash :: e :: text)
            complaint := by
        intro complaint hcomplaint text
        rcases List.mem_append.1 hcomplaint with hcomplaint | hcomplaint
        · exact hunknown complaint hcomplaint text
        · obtain rfl := List.mem_singleton.1 hcomplaint
          exact ⟨hunterminated (e :: text), rfl, rfl⟩
      match behind with
      | [] => exact fun complaint hcomplaint => hboth complaint hcomplaint []
      | closer :: left =>
          simp only [scanEscapedCharacter]
          split
          · exact fun complaint hcomplaint => hunknown complaint hcomplaint [Byte.apostrophe]
          · exact fun complaint hcomplaint => hboth complaint hcomplaint []

theorem truthful_scanLifetime (rest : Bytes) : (scanLifetime rest).1.Truthful := by
  unfold scanLifetime
  split
  · exact truthful_of_complaints_eq_nil rfl
  · intro complaint hcomplaint
    obtain rfl := List.mem_singleton.1 hcomplaint
    exact ⟨rfl, rfl, rfl⟩

theorem truthful_scanApostrophe (rest : Bytes) : (scanApostrophe rest).1.Truthful := by
  unfold scanApostrophe
  split
  · exact truthful_scanLifetime _
  split
  · exact truthful_scanEscapedCharacter _
  split
  · exact truthful_scanLifetime _
  split
  · exact truthful_of_complaints_eq_nil rfl
  · exact truthful_scanLifetime _

theorem truthful_scanOperator (b : UInt8) (rest : Bytes) : (scanOperator b rest).1.Truthful := by
  unfold scanOperator
  split
  · exact truthful_of_complaints_eq_nil rfl
  · intro complaint hcomplaint
    obtain rfl := List.mem_singleton.1 hcomplaint
    exact ⟨rfl, rfl, rfl⟩

theorem truthful_scanSlash (rest : Bytes) : (scanSlash rest).1.Truthful := by
  unfold scanSlash
  split
  · exact truthful_scanOperator _ _
  split
  · exact truthful_of_complaints_eq_nil rfl
  split
  · rename_i c behind _ hstar
    subst hstar
    intro complaint hcomplaint
    by_cases hclosed : (BlockComment.scan 0 behind).1.closed = true
    · simp [hclosed] at hcomplaint
    · obtain rfl : complaint = .unterminatedComment := by simpa [hclosed] using hcomplaint
      exact ⟨List.prefix_append BlockComment.opening _, rfl, rfl⟩
  · exact truthful_scanOperator _ _

/-- The complaint of a numeral that cannot be decoded is one about numerals. -/
theorem isAbout_of_decode {n : Numeral} {complaint : Complaint} (h : n.decode = .error complaint)
    {text : Bytes} (htext : text.head?.any Byte.isDigit = true) :
    complaint.IsAboutAlone text := by
  unfold Numeral.decode at h
  split at h
  · cases h
    exact ⟨htext, rfl, rfl⟩
  split at h
  · split at h
    · cases h
      exact ⟨htext, rfl, rfl⟩
    · cases h
  split at h
  · cases h
    exact ⟨htext, rfl, rfl⟩
  split at h
  · cases h
    exact ⟨htext, rfl, rfl⟩
  · cases h

theorem truthful_scanNumeral (b : UInt8) (rest : Bytes) (h : Byte.isDigit b = true) :
    (scanNumeral (b :: rest)).1.Truthful := by
  have hsplit := splits_scanNumeral b rest h
  have hfirst : (scanNumeral (b :: rest)).1.text.head?.any Byte.isDigit = true := by
    cases htext : (scanNumeral (b :: rest)).1.text with
    | nil => exact absurd htext hsplit.ne_nil
    | cons c more =>
        have happend := hsplit.append
        rw [htext, List.cons_append, List.cons.injEq] at happend
        rw [happend.1]
        exact h
  generalize hscan : Numeral.scan (b :: rest) = scanned at hfirst
  obtain ⟨n, behind⟩ := scanned
  intro complaint hcomplaint
  cases hdecode : n.decode with
  | ok literal => simp [scanNumeral, hscan, hdecode] at hcomplaint
  | error fault =>
      obtain rfl : complaint = fault := by
        simpa [scanNumeral, hscan, hdecode] using hcomplaint
      exact isAbout_of_decode hdecode hfirst

theorem truthful_scan (b : UInt8) (rest : Bytes) : (scan b rest).1.Truthful := by
  have hscan := scansAs_scan b
  generalize scan b = scanner at hscan ⊢
  cases hscan with
  | opener d h | closer d h | blank h | word h => exact truthful_of_complaints_eq_nil rfl
  | string h => exact truthful_scanString rest
  | apostrophe h => exact truthful_scanApostrophe rest
  | slash h => exact truthful_scanSlash rest
  | numeral h => exact truthful_scanNumeral b rest h
  | operator => exact truthful_scanOperator b rest

/-! ## Spans of a whole source -/

theorem truthful_of_mem_all {source : Bytes} {span : Span} (h : span ∈ all source) :
    span.Truthful :=
  forall_mem_all (p := Truthful) truthful_scan source span h

end Span
end RealtimeApp
