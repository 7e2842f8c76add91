import RealtimeApp.Span
import RealtimeApp.Proofs.NumeralLexeme

/-!
# Lexemes stand on their own

A leaf is scanned from its lexeme alone: scanning the lexeme again gives the same leaf with the
same complaints as long as what follows it goes on alike up to a boundary (`rereads_scan`), and so
with a boundary right behind it, whatever stood there in its source (`standsAlone_of_mem_all`).
-/

namespace RealtimeApp

namespace Quoted

@[simp] theorem closed_consByte (b : UInt8) (q : Quoted) : (q.consByte b).closed = q.closed := rfl

@[simp] theorem closed_consEscape (b : UInt8) (q : Quoted) :
    (q.consEscape b).closed = q.closed := by
  unfold consEscape
  split <;> rfl

theorem scan_quote (rest : Bytes) :
    scan (Byte.quote :: rest) = (⟨[Byte.quote], [], [], true⟩, rest) := by
  rw [scan.eq_def]
  rfl

theorem scan_backslash (e : UInt8) (rest : Bytes) :
    scan (Byte.backslash :: e :: rest) = (scan rest).map (consEscape e) id := by
  rw [scan.eq_def]
  rfl

theorem scan_byte {b : UInt8} (hquote : b ≠ Byte.quote) (hbackslash : b ≠ Byte.backslash)
    (rest : Bytes) : scan (b :: rest) = (scan rest).map (consByte b) id := by
  rw [scan.eq_def]
  simp [hquote, hbackslash]

/-- A closed literal is read in the same way whatever follows it. -/
theorem scan_text_append (input rest : Bytes) :
    (scan input).1.closed = true → scan ((scan input).1.text ++ rest) = ((scan input).1, rest) := by
  fun_induction scan input with
  | case1 => simp
  | case2 => simp [scan_quote]
  | case3 => simp
  | case4 e behind hne ih =>
      intro hclosed
      have hrec := ih (by simpa using hclosed)
      simp [scan_backslash, hrec]
  | case5 b tail hquote hbackslash ih =>
      intro hclosed
      have hrec := ih (by simpa using hclosed)
      simp [scan_byte hquote hbackslash, hrec]

end Quoted

namespace Operator

/-- A prefix of a text and what follows it lies inside the text or reaches the first byte behind
it. -/
theorem prefix_or_head_mem {a text rest : Bytes} (h : a <+: text ++ rest) :
    a <+: text ∨ ∃ b ∈ rest.head?, b ∈ a := by
  rcases List.prefix_or_prefix_of_prefix h (List.prefix_append text rest) with hin | hout
  · exact .inl hin
  · obtain ⟨more, rfl⟩ := hout
    cases more with
    | nil => exact .inl (by simp)
    | cons b more =>
        rw [List.prefix_append_right_inj] at h
        obtain ⟨left, rfl⟩ := h
        exact .inr ⟨b, rfl, by simp⟩

/-- No operator holds a boundary byte. -/
theorem not_isBoundary_of_mem {op : Operator} (hop : op ∈ all) {b : UInt8} (hb : b ∈ op.text) :
    Byte.isBoundary b = false := by
  have hall : (all.all fun op => op.text.all fun b => !Byte.isBoundary b) = true := by decide
  have hop := List.all_eq_true.1 hall op hop
  simpa using List.all_eq_true.1 hop b hb

/-- The longest operator at the beginning of an input stays the longest one when the input goes on
alike up to a boundary. -/
theorem scan?_swap {input behind rest : Bytes} {op : Operator}
    (h : scan? input = some (op, behind)) (hlike : LikeToBoundary behind rest) :
    scan? (op.text ++ rest) = some (op, rest) := by
  have hinput := text_scan? h
  obtain ⟨shared, tail, rest, rfl, rfl, hrest⟩ := hlike
  obtain ⟨found, hfound, heq⟩ := Option.map_eq_some_iff.1 h
  obtain ⟨rfl, -⟩ := Prod.mk.inj heq
  obtain ⟨-, before, after, hall, hbefore⟩ := List.find?_eq_some_iff_append.1 hfound
  refine Option.map_eq_some_iff.2 ⟨found, ?_, by simp⟩
  refine List.find?_eq_some_iff_append.2 ⟨?_, before, after, hall, ?_⟩
  · simp [List.isPrefixOf_iff_prefix]
  intro op hop
  have hmem : op ∈ all := by
    rw [hall]
    exact List.mem_append_left _ hop
  have hnot := hbefore op hop
  simp only [Bool.not_eq_true', ← Bool.not_eq_true, List.isPrefixOf_iff_prefix] at hnot ⊢
  intro hprefix
  rw [← List.append_assoc] at hprefix
  rcases prefix_or_head_mem hprefix with hin | ⟨b, hhead, hb⟩
  · apply hnot
    rw [← hinput, ← List.append_assoc]
    exact hin.trans (List.prefix_append _ _)
  · have hboundary := hrest b hhead
    rw [not_isBoundary_of_mem hmem hb] at hboundary
    cases hboundary

end Operator

/-- Is it the content of a leaf? -/
def Content.isLeaf : Content → Bool
  | .leaf .. => true
  | .skipped | .opener _ | .closer _ => false

namespace Span

/-- A scanner that is called behind the bytes `first` finds the same leaf, with the same
complaints, when the text of that leaf is scanned again and what follows it goes on alike up to a
boundary. -/
def Rereads (first : Bytes) (scanner : Bytes → Span × Bytes) : Prop :=
  ∀ input, (scanner input).1.content.isLeaf = true →
    ∃ text, (scanner input).1.text = first ++ text ∧
      ∀ rest, LikeToBoundary (scanner input).2 rest →
        scanner (text ++ rest) = ((scanner input).1, rest)

theorem rereads_scanString : Rereads [Byte.quote] scanString := by
  intro input hleaf
  refine ⟨(Quoted.scan input).1.text, ?_, ?_⟩
  · simp only [scanString]
    split <;> rfl
  · intro rest _
    have hclosed : (Quoted.scan input).1.closed = true := by
      cases hq : (Quoted.scan input).1.closed with
      | true => rfl
      | false => simp [scanString, hq, Content.isLeaf] at hleaf
    have hagain := Quoted.scan_text_append input rest hclosed
    simp [scanString, hagain, hclosed]

theorem rereads_scanEscapedCharacter :
    Rereads [Byte.apostrophe, Byte.backslash] scanEscapedCharacter := by
  intro input hleaf
  match input, hleaf with
  | [], hleaf => simp [scanEscapedCharacter, Content.isLeaf] at hleaf
  | [_], hleaf => simp [scanEscapedCharacter, Content.isLeaf] at hleaf
  | e :: closer :: left, hleaf =>
      by_cases hcloser : closer = Byte.apostrophe
      · exact ⟨[e, Byte.apostrophe], by simp [scanEscapedCharacter, hcloser],
          fun rest _ => by simp [scanEscapedCharacter, hcloser]⟩
      · simp [scanEscapedCharacter, hcloser, Content.isLeaf] at hleaf

theorem takeWhile_isNamePart_swap (input : Bytes) {rest : Bytes}
    (hlike : LikeToBoundary (input.dropWhile Byte.isNamePart) rest) :
    (input.takeWhile Byte.isNamePart ++ rest).takeWhile Byte.isNamePart =
      input.takeWhile Byte.isNamePart := by
  have hrun := List.takeWhile_append_dropWhile (p := Byte.isNamePart) (l := input)
  exact hlike.takeWhile_eq (by decide) (by rw [hrun])

theorem isNamePart_of_isNameStart {b : UInt8} (h : Byte.isNameStart b = true) :
    Byte.isNamePart b = true := by
  rw [Byte.isNameStart, Bool.or_eq_true] at h
  rcases h with hletter | hunderscore
  · simp [Byte.isNamePart, hletter]
  · simp [Byte.isNamePart, hunderscore]

/-- A text that begins as a name begins with a name. -/
theorem exists_takeWhile_isNamePart {input : Bytes} (h : input.head?.any Byte.isNameStart = true) :
    ∃ b more, Byte.isNameStart b = true ∧ input.takeWhile Byte.isNamePart = b :: more := by
  cases input with
  | nil => simp at h
  | cons b more =>
      have hb : Byte.isNameStart b = true := by simpa using h
      exact ⟨b, more.takeWhile Byte.isNamePart, hb, by simp [isNamePart_of_isNameStart hb]⟩

theorem scanLifetime_of_isNameStart {input : Bytes}
    (h : input.head?.any Byte.isNameStart = true) :
    scanLifetime input =
      (⟨Byte.apostrophe :: input.takeWhile Byte.isNamePart, .leaf .lifetime none [], []⟩,
        input.dropWhile Byte.isNamePart) := if_pos h

theorem isNameStart_of_scanLifetime {input : Bytes}
    (h : (scanLifetime input).1.content.isLeaf = true) :
    input.head?.any Byte.isNameStart = true := by
  cases hstart : input.head?.any Byte.isNameStart with
  | true => rfl
  | false => simp [scanLifetime, hstart, skip, Content.isLeaf] at h

/-- The name of a lifetime is scanned again as the same lifetime. -/
theorem scanLifetime_name_append {input rest : Bytes}
    (h : input.head?.any Byte.isNameStart = true)
    (hlike : LikeToBoundary (input.dropWhile Byte.isNamePart) rest) :
    scanLifetime (input.takeWhile Byte.isNamePart ++ rest) = ((scanLifetime input).1, rest) := by
  obtain ⟨b, more, hb, hname⟩ := exists_takeWhile_isNamePart h
  have hrun := takeWhile_isNamePart_swap input hlike
  have hleft := dropWhile_eq_of_takeWhile_eq hrun
  have hhead : (input.takeWhile Byte.isNamePart ++ rest).head?.any Byte.isNameStart = true := by
    rw [hname]
    exact hb
  rw [scanLifetime_of_isNameStart h, scanLifetime_of_isNameStart hhead, hrun, hleft]

/-- Behind an apostrophe, a byte without another apostrophe behind it begins no character
literal. -/
theorem scanApostrophe_eq_scanLifetime {b : UInt8} {rest : Bytes} (hb : b ≠ Byte.backslash)
    (hrest : Stops (· == Byte.apostrophe) rest) :
    scanApostrophe (b :: rest) = scanLifetime (b :: rest) := by
  cases rest with
  | nil => simp [scanApostrophe, hb]
  | cons closer left =>
      have hcloser : closer ≠ Byte.apostrophe := by simpa using stops_cons.1 hrest
      simp [scanApostrophe, hb, hcloser]

theorem rereads_scanLifetime : Rereads [Byte.apostrophe] scanLifetime := by
  intro input hleaf
  have hstart := isNameStart_of_scanLifetime hleaf
  refine ⟨input.takeWhile Byte.isNamePart, by rw [scanLifetime_of_isNameStart hstart]; rfl, ?_⟩
  intro rest hlike
  rw [scanLifetime_of_isNameStart hstart] at hlike
  exact scanLifetime_name_append hstart hlike

/-- A lifetime is scanned again as one: where no apostrophe stands behind its first byte, none does
when it is scanned again. -/
theorem rereads_lifetime {b : UInt8} {behind : Bytes} (hb : b ≠ Byte.backslash)
    (hbehind : Stops (· == Byte.apostrophe) behind)
    (hleaf : (scanLifetime (b :: behind)).1.content.isLeaf = true) :
    ∃ text, (scanLifetime (b :: behind)).1.text = [Byte.apostrophe] ++ text ∧
      ∀ rest, LikeToBoundary (scanLifetime (b :: behind)).2 rest →
        scanApostrophe (text ++ rest) = ((scanLifetime (b :: behind)).1, rest) := by
  obtain ⟨text, htext, hagain⟩ := rereads_scanLifetime (b :: behind) hleaf
  refine ⟨text, htext, ?_⟩
  intro rest hlike
  rw [← hagain rest hlike]
  have hsplit := (splits_scanLifetime (b :: behind)).append
  rw [htext, List.append_assoc] at hsplit
  have hinput : text ++ (scanLifetime (b :: behind)).2 = b :: behind :=
    List.append_cancel_left hsplit
  cases text with
  | nil =>
      rw [scanLifetime_of_isNameStart (isNameStart_of_scanLifetime hleaf)] at htext
      obtain ⟨c, name, -, hname⟩ := exists_takeWhile_isNamePart (isNameStart_of_scanLifetime hleaf)
      rw [hname] at htext
      cases htext
  | cons c more =>
      rw [List.cons_append, List.cons.injEq] at hinput
      obtain ⟨rfl, hmore⟩ := hinput
      have hlonger := hlike.append more
      rw [hmore] at hlonger
      exact scanApostrophe_eq_scanLifetime hb (hlonger.stops (by decide) hbehind)

theorem rereads_scanApostrophe : Rereads [Byte.apostrophe] scanApostrophe := by
  intro input
  cases input with
  | nil =>
      intro hleaf
      simp [scanApostrophe, scanLifetime, skip, Content.isLeaf] at hleaf
  | cons b behind =>
      by_cases hb : b = Byte.backslash
      · subst hb
        intro hleaf
        obtain ⟨text, htext, hagain⟩ := rereads_scanEscapedCharacter behind hleaf
        exact ⟨Byte.backslash :: text, htext, fun rest hlike => hagain rest hlike⟩
      · -- whatever is no character literal is scanned as a lifetime
        have hlifetime : Stops (· == Byte.apostrophe) behind →
            (scanApostrophe (b :: behind)).1.content.isLeaf = true →
            ∃ text, (scanApostrophe (b :: behind)).1.text = [Byte.apostrophe] ++ text ∧
              ∀ rest, LikeToBoundary (scanApostrophe (b :: behind)).2 rest →
                scanApostrophe (text ++ rest) = ((scanApostrophe (b :: behind)).1, rest) := by
          intro hbehind
          rw [scanApostrophe_eq_scanLifetime hb hbehind]
          exact rereads_lifetime hb hbehind
        cases behind with
        | nil => exact hlifetime stops_nil
        | cons closer left =>
            by_cases hcloser : closer = Byte.apostrophe
            · intro _
              exact ⟨[b, Byte.apostrophe], by simp [scanApostrophe, hb, hcloser],
                fun rest _ => by simp [scanApostrophe, hb, hcloser]⟩
            · exact hlifetime (by simp [Stops, hcloser])

theorem rereads_scanNumeral : Rereads [] scanNumeral := by
  intro input hleaf
  obtain ⟨n, behind, hscan⟩ : ∃ n behind, Numeral.scan input = (n, behind) := ⟨_, _, rfl⟩
  cases hdecode : n.decode with
  | error complaint => simp [scanNumeral, hscan, hdecode, Content.isLeaf] at hleaf
  | ok literal =>
      have hdigits : Numeral.digitsOf n.whole ≠ [] := by
        intro hnone
        simp [Numeral.decode, hnone] at hdecode
      refine ⟨n.text, by simp [scanNumeral, hscan, hdecode], ?_⟩
      intro rest hlike
      simp only [scanNumeral, hscan, hdecode] at hlike
      have hagain := Numeral.scan_swap hscan hdigits hlike
      simp [scanNumeral, hscan, hagain, hdecode]

theorem rereads_scanWord : Rereads [] scanWord := by
  intro input _
  refine ⟨input.takeWhile Byte.isNamePart, rfl, ?_⟩
  intro rest hlike
  have hrun := takeWhile_isNamePart_swap input hlike
  have hleft := dropWhile_eq_of_takeWhile_eq hrun
  simp only [scanWord, hrun, hleft]

theorem rereads_scanOperator (b : UInt8) : Rereads [b] (scanOperator b) := by
  intro input hleaf
  cases hscan : Operator.scan? (b :: input) with
  | none => simp [scanOperator, hscan, skip, Content.isLeaf] at hleaf
  | some found =>
      obtain ⟨op, behind⟩ := found
      have hsplit := splits_scanOperator b input
      simp only [scanOperator, hscan] at hsplit ⊢
      obtain ⟨text, htext⟩ : ∃ text, op.text = b :: text := by
        obtain ⟨happend, hne⟩ := hsplit
        cases hop : op.text with
        | nil => exact absurd hop hne
        | cons c text =>
            simp only [hop, List.cons_append, List.cons.injEq] at happend
            exact ⟨text, by rw [happend.1]⟩
      refine ⟨text, htext, ?_⟩
      intro rest hlike
      have hagain := Operator.scan?_swap hscan hlike
      rw [htext] at hagain
      simp only [List.cons_append] at hagain
      simp only [hagain]

theorem rereads_scanSlash : Rereads [ascii '/'] scanSlash := by
  have hoperator : ∀ rest, Stops (fun c => c == ascii '/' || c == ascii '*') rest →
      scanSlash rest = scanOperator (ascii '/') rest := by
    intro rest hrest
    cases rest with
    | nil => rfl
    | cons c behind =>
        have hc := stops_cons.1 hrest
        simp only [Bool.or_eq_false_iff, beq_eq_false_iff_ne] at hc
        simp [scanSlash, hc.1, hc.2]
  intro input hleaf
  have hstops : Stops (fun c => c == ascii '/' || c == ascii '*') input := by
    intro c hc
    obtain ⟨behind, rfl⟩ : ∃ behind, input = c :: behind := by
      cases input with
      | nil => simp at hc
      | cons first behind => exact ⟨behind, by simpa using hc⟩
    by_cases hslash : c = ascii '/'
    · simp [scanSlash, hslash, Content.isLeaf] at hleaf
    · by_cases hstar : c = ascii '*'
      · simp [scanSlash, hstar, ascii, Content.isLeaf] at hleaf
      · simp [hslash, hstar]
  rw [hoperator input hstops] at hleaf ⊢
  obtain ⟨text, htext, hagain⟩ := rereads_scanOperator (ascii '/') input hleaf
  refine ⟨text, htext, ?_⟩
  intro rest hlike
  rw [hoperator _ ?_, hagain rest hlike]
  -- what stands behind the slash goes on as in the input, where no comment began
  have hinput := (splits_scanOperator (ascii '/') input).append
  rw [htext, List.append_assoc] at hinput
  have htail : text ++ (scanOperator (ascii '/') input).2 = input := List.append_cancel_left hinput
  rw [← htail] at hstops
  exact (hlike.append text).stops (by decide) hstops

/-- A scanner that is given the first byte too rereads the text behind that byte. -/
theorem rereads_of_cons {b : UInt8} {scanner : Bytes → Span × Bytes} (h : Rereads [] scanner)
    (hsplit : ∀ rest, Splits (b :: rest) (scanner (b :: rest))) :
    Rereads [b] fun rest => scanner (b :: rest) := by
  intro input hleaf
  obtain ⟨text, htext, hagain⟩ := h (b :: input) hleaf
  obtain ⟨happend, hne⟩ := hsplit input
  rw [List.nil_append] at htext
  cases text with
  | nil => exact absurd htext hne
  | cons c text =>
      rw [htext, List.cons_append, List.cons.injEq] at happend
      obtain ⟨rfl, -⟩ := happend
      exact ⟨text, htext, hagain⟩

/-- The scanner that a first byte chooses. -/
inductive ScansAs (b : UInt8) : (Bytes → Span × Bytes) → Prop
  | opener (d : Delimiter) (h : b = d.opening) :
      ScansAs b fun rest => (⟨[b], .opener d, []⟩, rest)
  | closer (d : Delimiter) (h : b = d.closing) :
      ScansAs b fun rest => (⟨[b], .closer d, []⟩, rest)
  | blank (h : Byte.isBlank b = true) : ScansAs b fun rest => (skip b [], rest)
  | string (h : b = Byte.quote) : ScansAs b scanString
  | apostrophe (h : b = Byte.apostrophe) : ScansAs b scanApostrophe
  | slash (h : b = ascii '/') : ScansAs b scanSlash
  | numeral (h : Byte.isDigit b = true) : ScansAs b fun rest => scanNumeral (b :: rest)
  | word (h : Byte.isNameStart b = true) : ScansAs b fun rest => scanWord (b :: rest)
  | operator : ScansAs b (scanOperator b)

theorem scansAs_scan (b : UInt8) : ScansAs b (scan b) := by
  cases hopening : Delimiter.ofOpening? b with
  | some d =>
      have hb : d.opening = b := by simpa using List.find?_some hopening
      have hscan : scan b = fun rest => (⟨[b], .opener d, []⟩, rest) := by
        funext rest
        simp only [scan, hopening]
      exact hscan ▸ .opener d hb.symm
  | none =>
      cases hclosing : Delimiter.ofClosing? b with
      | some d =>
          have hb : d.closing = b := by simpa using List.find?_some hclosing
          have hscan : scan b = fun rest => (⟨[b], .closer d, []⟩, rest) := by
            funext rest
            simp only [scan, hopening, hclosing]
          exact hscan ▸ .closer d hb.symm
      | none =>
          have hscan : scan b = fun rest =>
              if Byte.isBlank b then (skip b [], rest)
              else if b = Byte.quote then scanString rest
              else if b = Byte.apostrophe then scanApostrophe rest
              else if b = ascii '/' then scanSlash rest
              else if Byte.isDigit b then scanNumeral (b :: rest)
              else if Byte.isNameStart b then scanWord (b :: rest)
              else scanOperator b rest := by
            funext rest
            simp only [scan, hopening, hclosing]
          rw [hscan]
          split
          · exact .blank (by assumption)
          split
          · exact .string (by assumption)
          split
          · exact .apostrophe (by assumption)
          split
          · exact .slash (by assumption)
          split
          · exact .numeral (by assumption)
          split
          · exact .word (by assumption)
          · exact .operator

theorem rereads_scan (b : UInt8) : Rereads [b] (scan b) := by
  have hscan := scansAs_scan b
  generalize scan b = scanner at hscan ⊢
  cases hscan with
  | opener d h | closer d h | blank h =>
      intro input hleaf
      cases hleaf
  | string h => exact h ▸ rereads_scanString
  | apostrophe h => exact h ▸ rereads_scanApostrophe
  | slash h => exact h ▸ rereads_scanSlash
  | numeral h => exact rereads_of_cons rereads_scanNumeral fun rest => splits_scanNumeral b rest h
  | word h =>
      exact rereads_of_cons rereads_scanWord fun rest =>
        splits_scanWord b rest (isNamePart_of_isNameStart h)
  | operator => exact rereads_scanOperator b

/-! ## Spans of a whole source -/

/-- A span that is read from its own text, whatever boundary stands behind it. -/
def StandsAlone (span : Span) : Prop :=
  ∀ rest, Bounded rest → all (span.text ++ rest) = span :: all rest

/-- What holds of every span that scanning can begin with holds of all spans of a source. -/
theorem forall_mem_all {p : Span → Prop} (h : ∀ b rest, p (scan b rest).1) (source : Bytes) :
    ∀ span ∈ all source, p span := by
  fun_induction all source with
  | case1 =>
      intro span hspan
      cases hspan
  | case2 b rest ih =>
      intro span hspan
      rcases List.mem_cons.1 hspan with rfl | hspan
      · exact h b rest
      · exact ih span hspan

theorem text_ne_nil_of_mem_all {source : Bytes} {span : Span} (h : span ∈ all source) :
    span.text ≠ [] :=
  forall_mem_all (p := fun span => span.text ≠ []) (fun b rest => (splits_scan b rest).ne_nil)
    source span h

theorem standsAlone_of_mem_all {source : Bytes} {span : Span} (h : span ∈ all source)
    (hleaf : span.content.isLeaf = true) : span.StandsAlone := by
  refine forall_mem_all (p := fun span => span.content.isLeaf = true → span.StandsAlone)
    ?_ source span h hleaf
  intro b input hleaf rest hrest
  obtain ⟨text, htext, hagain⟩ := rereads_scan b input hleaf
  rw [htext]
  show all (b :: (text ++ rest)) = _
  rw [all_cons, hagain rest (hrest.likeToBoundary _)]

end Span
end RealtimeApp
