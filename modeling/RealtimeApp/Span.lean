import RealtimeApp.Comment
import RealtimeApp.Numeral
import RealtimeApp.Operator
import RealtimeApp.Quoted

/-!
# Spans

A source falls into spans: leaves, openers, closers, blanks, comments, and pieces that are
given up with a complaint.  Where one span ends depends only on the bytes from its beginning
on, never on the groups around it.  The spans of a source put together are the source
(`textOf_all`).
-/

namespace RealtimeApp

/-- What a span stands for. -/
inductive Content where
  /-- No token: a blank, a comment, or a piece that is given up. -/
  | skipped
  | opener (delimiter : Delimiter)
  | closer (delimiter : Delimiter)
  | leaf (kind : LeafKind) (literal : Option Literal) (suffix : Bytes)
  deriving DecidableEq, Repr

/-- A piece of a source, what it stands for, and what is wrong with it. -/
structure Span where
  text : Bytes
  content : Content
  complaints : List Complaint
  deriving DecidableEq, Repr

namespace Span

/-- A span that is one byte and stands for no token. -/
def skip (b : UInt8) (complaints : List Complaint) : Span := ⟨[b], .skipped, complaints⟩

/-- The string literal behind a quote, and what follows it. -/
def scanString (rest : Bytes) : Span × Bytes :=
  let (q, behind) := Quoted.scan rest
  let unknown := q.unknown.map Complaint.unknownEscape
  if q.closed then
    (⟨Byte.quote :: q.text, .leaf .string (some (.text q.value)) [], unknown⟩, behind)
  else (⟨Byte.quote :: q.text, .skipped, unknown ++ [.unterminatedString]⟩, behind)

/-- The character literal behind an apostrophe and a backslash, and what follows it.  An
unknown escape makes a literal without a byte. -/
def scanEscapedCharacter (rest : Bytes) : Span × Bytes :=
  match rest with
  | [] => (⟨[Byte.apostrophe, Byte.backslash], .skipped, [.unterminatedCharacter]⟩, [])
  | e :: behind =>
    let meant := unescape? e
    let unknown := if meant.isSome then [] else [Complaint.unknownEscape e]
    match behind with
    | [] =>
      (⟨[Byte.apostrophe, Byte.backslash, e], .skipped, unknown ++ [.unterminatedCharacter]⟩, [])
    | closer :: left =>
      if closer = Byte.apostrophe then
        (⟨[Byte.apostrophe, Byte.backslash, e, Byte.apostrophe],
          .leaf .char (some (.text meant.toList)) [], unknown⟩, left)
      else
        (⟨[Byte.apostrophe, Byte.backslash, e], .skipped, unknown ++ [.unterminatedCharacter]⟩,
          behind)

/-- The lifetime behind an apostrophe, and what follows it; the apostrophe alone where no
name follows. -/
def scanLifetime (rest : Bytes) : Span × Bytes :=
  if rest.head?.any Byte.isNameStart then
    (⟨Byte.apostrophe :: rest.takeWhile Byte.isNamePart, .leaf .lifetime none [], []⟩,
      rest.dropWhile Byte.isNamePart)
  else (skip Byte.apostrophe [.invalidCharacter], rest)

/-- The character literal or lifetime behind an apostrophe, and what follows it.  Any byte
other than a backslash makes a character literal when an apostrophe follows it. -/
def scanApostrophe (rest : Bytes) : Span × Bytes :=
  match rest with
  | [] => scanLifetime []
  | b :: behind =>
    if b = Byte.backslash then scanEscapedCharacter behind
    else
      match behind with
      | [] => scanLifetime rest
      | closer :: left =>
        if closer = Byte.apostrophe then
          (⟨[Byte.apostrophe, b, Byte.apostrophe], .leaf .char (some (.text [b])) [], []⟩, left)
        else scanLifetime rest

/-- The numeral at the beginning of an input, and what follows it. -/
def scanNumeral (input : Bytes) : Span × Bytes :=
  let (n, rest) := Numeral.scan input
  match n.decode with
  | .ok literal => (⟨n.text, .leaf n.kind (some literal) n.suffix, []⟩, rest)
  | .error complaint => (⟨n.text, .skipped, [complaint]⟩, rest)

/-- The leaf that a word makes: two words are truth values, the others are names. -/
def wordContent (word : Bytes) : Content :=
  if word = Bytes.ofString "true" then .leaf .bool (some (.bool true)) []
  else if word = Bytes.ofString "false" then .leaf .bool (some (.bool false)) []
  else .leaf .ident (some (.text word)) []

/-- The word at the beginning of an input, and what follows it. -/
def scanWord (input : Bytes) : Span × Bytes :=
  (⟨input.takeWhile Byte.isNamePart, wordContent (input.takeWhile Byte.isNamePart), []⟩,
    input.dropWhile Byte.isNamePart)

/-- The operator at the beginning of an input, or a byte that begins nothing. -/
def scanOperator (b : UInt8) (rest : Bytes) : Span × Bytes :=
  match Operator.scan? (b :: rest) with
  | some (op, behind) => (⟨op.text, .leaf op.kind none [], []⟩, behind)
  | none => (skip b [.unexpectedByte b], rest)

/-- The comment or operator behind a slash, and what follows it. -/
def scanSlash (rest : Bytes) : Span × Bytes :=
  match rest with
  | [] => scanOperator (ascii '/') []
  | c :: behind =>
    if c = ascii '/' then
      (⟨ascii '/' :: c :: behind.takeWhile (· != Byte.newline), .skipped, []⟩,
        behind.dropWhile (· != Byte.newline))
    else if c = ascii '*' then
      let (comment, left) := BlockComment.scan 0 behind
      (⟨ascii '/' :: c :: comment.text, .skipped,
        if comment.closed then [] else [.unterminatedComment]⟩, left)
    else scanOperator (ascii '/') rest

/-- The span that an input of at least one byte begins with, and what follows it. -/
def scan (b : UInt8) (rest : Bytes) : Span × Bytes :=
  match Delimiter.ofOpening? b with
  | some delimiter => (⟨[b], .opener delimiter, []⟩, rest)
  | none =>
    match Delimiter.ofClosing? b with
    | some delimiter => (⟨[b], .closer delimiter, []⟩, rest)
    | none =>
      if Byte.isBlank b then (skip b [], rest)
      else if b = Byte.quote then scanString rest
      else if b = Byte.apostrophe then scanApostrophe rest
      else if b = ascii '/' then scanSlash rest
      else if Byte.isDigit b then scanNumeral (b :: rest)
      else if Byte.isNameStart b then scanWord (b :: rest)
      else scanOperator b rest

/-- Scanning splits `input` into the text of the span and what follows it, and gives at least
one byte to the span. -/
structure Splits (input : Bytes) (scanned : Span × Bytes) : Prop where
  append : scanned.1.text ++ scanned.2 = input
  ne_nil : scanned.1.text ≠ []

theorem splits_skip (b : UInt8) (complaints : List Complaint) (rest : Bytes) :
    Splits (b :: rest) (skip b complaints, rest) :=
  ⟨rfl, List.cons_ne_nil _ _⟩

theorem splits_scanString (rest : Bytes) : Splits (Byte.quote :: rest) (scanString rest) := by
  have split := Quoted.text_scan rest
  simp only [scanString]
  split
  · exact ⟨by simp [split], List.cons_ne_nil _ _⟩
  · exact ⟨by simp [split], List.cons_ne_nil _ _⟩

theorem splits_scanEscapedCharacter (rest : Bytes) :
    Splits (Byte.apostrophe :: Byte.backslash :: rest) (scanEscapedCharacter rest) := by
  unfold scanEscapedCharacter
  split
  · exact ⟨rfl, List.cons_ne_nil _ _⟩
  · simp only
    split
    · exact ⟨rfl, List.cons_ne_nil _ _⟩
    · split
      · rename_i hcloser
        exact ⟨by simp [hcloser], List.cons_ne_nil _ _⟩
      · exact ⟨rfl, List.cons_ne_nil _ _⟩

theorem splits_scanLifetime (rest : Bytes) :
    Splits (Byte.apostrophe :: rest) (scanLifetime rest) := by
  unfold scanLifetime
  split
  · exact ⟨by simp [List.takeWhile_append_dropWhile], List.cons_ne_nil _ _⟩
  · exact splits_skip ..

theorem splits_scanApostrophe (rest : Bytes) :
    Splits (Byte.apostrophe :: rest) (scanApostrophe rest) := by
  unfold scanApostrophe
  split
  · exact splits_scanLifetime _
  · split
    · rename_i hb
      rw [hb]
      exact splits_scanEscapedCharacter _
    · split
      · exact splits_scanLifetime _
      · split
        · rename_i hcloser
          exact ⟨by simp [hcloser], List.cons_ne_nil _ _⟩
        · exact splits_scanLifetime _

theorem splits_scanWord (b : UInt8) (rest : Bytes) (h : Byte.isNamePart b = true) :
    Splits (b :: rest) (scanWord (b :: rest)) :=
  ⟨List.takeWhile_append_dropWhile, by simp [scanWord, h]⟩

theorem splits_scanOperator (b : UInt8) (rest : Bytes) :
    Splits (b :: rest) (scanOperator b rest) := by
  unfold scanOperator
  split
  · rename_i op behind h
    refine ⟨Operator.text_scan? h, ?_⟩
    obtain ⟨found, hfound, heq⟩ := Option.map_eq_some_iff.1 h
    obtain ⟨rfl, -⟩ := Prod.mk.inj heq
    have written : ∀ op ∈ Operator.all, op.text ≠ [] := by decide
    exact written _ (List.mem_of_find?_eq_some hfound)
  · exact splits_skip ..

theorem splits_scanSlash (rest : Bytes) : Splits (ascii '/' :: rest) (scanSlash rest) := by
  unfold scanSlash
  split
  · exact splits_scanOperator ..
  · split
    · exact ⟨by simp [List.takeWhile_append_dropWhile], List.cons_ne_nil _ _⟩
    · split
      · exact ⟨by simp [BlockComment.text_scan], List.cons_ne_nil _ _⟩
      · exact splits_scanOperator ..

theorem splits_scanNumeral (b : UInt8) (rest : Bytes) (h : Byte.isDigit b = true) :
    Splits (b :: rest) (scanNumeral (b :: rest)) := by
  have split := Numeral.text_scan (b :: rest)
  have written := Numeral.text_scan_ne_nil b rest h
  simp only [scanNumeral]
  split <;> exact ⟨split, written⟩

/-- The first span of an input and what follows it make up the input. -/
theorem splits_scan (b : UInt8) (rest : Bytes) : Splits (b :: rest) (scan b rest) := by
  unfold scan
  split
  · exact ⟨rfl, List.cons_ne_nil _ _⟩
  split
  · exact ⟨rfl, List.cons_ne_nil _ _⟩
  split
  · exact splits_skip ..
  split
  · rename_i hb
    exact hb ▸ splits_scanString rest
  split
  · rename_i hb
    exact hb ▸ splits_scanApostrophe rest
  split
  · rename_i hb
    exact hb ▸ splits_scanSlash rest
  split
  · rename_i hb
    exact splits_scanNumeral b rest hb
  split
  · rename_i hb
    refine splits_scanWord b rest ?_
    simp only [Byte.isNameStart, Bool.or_eq_true] at hb
    rcases hb with hb | hb <;> simp [Byte.isNamePart, hb]
  · exact splits_scanOperator ..

/-- What follows the first span is shorter than the input. -/
theorem length_scan_lt (b : UInt8) (rest : Bytes) :
    (scan b rest).2.length < (b :: rest).length := by
  have split := splits_scan b rest
  rw [← split.append, List.length_append]
  have := List.length_pos_iff.2 split.ne_nil
  omega

/-- The spans of a source, in order. -/
def all : Bytes → List Span
  | [] => []
  | b :: rest => (scan b rest).1 :: all (scan b rest).2
termination_by source => source.length
decreasing_by exact length_scan_lt b rest

@[simp] theorem all_nil : all [] = [] := by rw [all]

theorem all_cons (b : UInt8) (rest : Bytes) :
    all (b :: rest) = (scan b rest).1 :: all (scan b rest).2 := by rw [all]

/-- The bytes that a sequence of spans is written with. -/
def textOf (spans : List Span) : Bytes := spans.flatMap text

/-- The spans of a source put together are the source. -/
theorem textOf_all (source : Bytes) : textOf (all source) = source := by
  fun_induction all source with
  | case1 => rfl
  | case2 b rest ih =>
    rw [textOf, List.flatMap_cons]
    rw [textOf] at ih
    rw [ih, (splits_scan b rest).append]

end Span

end RealtimeApp
