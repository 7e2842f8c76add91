import RealtimeApp.Proofs.DecimalDigits

/-!
# Reading written JSON

A value whose numbers have the form of numbers is read back from its text (`read?_text`), so that
the text determines the value.
-/

namespace RealtimeApp
namespace Json

/-! ## Strings -/

/-- The bytes that are escaped by their number. -/
def controls : List UInt8 := (List.range 32).map Nat.toUInt8

theorem mem_controls {b : UInt8} (h : b < Byte.space) : b ∈ controls := by
  refine List.mem_map.2 ⟨b.toNat, List.mem_range.2 ?_, ?_⟩
  · exact UInt8.lt_iff_toNat_lt.1 h
  · simp

theorem hexQuad?_append {a b c d : UInt8} {n : Nat} (h : hexQuad? [a, b, c, d] = some (n, []))
    (rest : Bytes) : hexQuad? (a :: b :: c :: d :: rest) = some (n, rest) := by
  simp only [hexQuad?, Option.ite_none_right_eq_some, Option.some.injEq, Prod.mk.injEq] at h ⊢
  exact ⟨h.1, h.2.1, trivial⟩

/-- The digits of a control byte stand for that byte. -/
theorem hexQuad?_control {b : UInt8} (h : b < Byte.space) (rest : Bytes) :
    hexQuad? (ascii '0' :: ascii '0' :: hexDigit (b / 16) :: hexDigit (b % 16) :: rest) =
      some (b.toNat, rest) ∧ utf8 b.toNat = [b] := by
  have hquads : (controls.all fun b => decide
      (hexQuad? [ascii '0', ascii '0', hexDigit (b / 16), hexDigit (b % 16)] =
        some (b.toNat, []))) = true := by decide
  have hcodes : (controls.all fun b => decide (utf8 b.toNat = [b])) = true := by decide
  have hquad := of_decide_eq_true (List.all_eq_true.1 hquads b (mem_controls h))
  have hutf8 := of_decide_eq_true (List.all_eq_true.1 hcodes b (mem_controls h))
  exact ⟨hexQuad?_append hquad rest, hutf8⟩

theorem unicodeEscape?_control {b : UInt8} (h : b < Byte.space) (rest : Bytes) :
    unicodeEscape? (ascii '0' :: ascii '0' :: hexDigit (b / 16) :: hexDigit (b % 16) :: rest) =
      some ([b], rest) := by
  obtain ⟨hquad, hutf8⟩ := hexQuad?_control h rest
  have hsmall : b.toNat < 0xD800 := by
    have hlt := UInt8.lt_iff_toNat_lt.1 h
    have hspace : Byte.space.toNat = 32 := rfl
    omega
  simp [unicodeEscape?, hquad, hsmall, hutf8]

/-- One escaped byte is read in one step. -/
theorem readString_escape (b : UInt8) (fuel : Nat) (rest : Bytes) :
    readString (fuel + 1) (escape b ++ rest) =
      (readString fuel rest).map fun (value, left) => (b :: value, left) := by
  have hletter : ∀ e, letterEscape? e = some b → e ≠ ascii 'u' →
      readString (fuel + 1) (Byte.backslash :: e :: rest) =
        (readString fuel rest).map fun (value, left) => (b :: value, left) := by
    intro e he hu
    have hquote : Byte.backslash ≠ Byte.quote := by decide
    cases hrest : readString fuel rest <;> simp [readString, hquote, hu, he, hrest]
  unfold escape
  split
  · exact hletter Byte.quote (by simp_all [letterEscape?]) (by decide)
  split
  · exact hletter Byte.backslash (by simp_all [letterEscape?]) (by decide)
  split
  · exact hletter (ascii 'b') (by simp_all; decide) (by decide)
  split
  · exact hletter (ascii 'f') (by simp_all; decide) (by decide)
  split
  · exact hletter (ascii 'n') (by simp_all; decide) (by decide)
  split
  · exact hletter (ascii 'r') (by simp_all; decide) (by decide)
  split
  · exact hletter (ascii 't') (by simp_all; decide) (by decide)
  split
  · rename_i hcontrol
    have hescape := unicodeEscape?_control hcontrol rest
    have hquote : Byte.backslash ≠ Byte.quote := by decide
    cases hrest : readString fuel rest <;> simp [readString, hquote, hescape, hrest]
  · rename_i hquote hbackslash _ _ _ _ _ hcontrol
    cases hrest : readString fuel rest <;>
      simp [readString, hquote, hbackslash, hcontrol, hrest]

theorem readString_flatMap_escape (value rest : Bytes) :
    ∀ fuel, value.length < fuel →
      readString fuel (value.flatMap escape ++ Byte.quote :: rest) = some (value, rest) := by
  induction value with
  | nil =>
      intro fuel hfuel
      match fuel, hfuel with
      | fuel + 1, _ => simp [readString]
  | cons b value ih =>
      intro fuel hfuel
      match fuel, hfuel with
      | fuel + 1, hfuel =>
          have hvalue := ih fuel (Nat.lt_of_succ_lt_succ hfuel)
          rw [List.flatMap_cons, List.append_assoc, readString_escape, hvalue]
          rfl

theorem length_le_length_flatMap_escape (value : Bytes) :
    value.length ≤ (value.flatMap escape).length := by
  have hpos : ∀ b, 0 < (escape b).length := by
    intro b
    unfold escape
    repeat' split
    all_goals exact Nat.succ_pos _
  induction value with
  | nil => exact Nat.le_refl _
  | cons b value ih =>
      have hb := hpos b
      rw [List.flatMap_cons, List.length_append, List.length_cons]
      omega

theorem quoted_append (value rest : Bytes) :
    quoted value ++ rest = Byte.quote :: (value.flatMap escape ++ Byte.quote :: rest) := by
  simp [quoted]

/-- A quoted string is read back. -/
theorem string?_quoted (value rest : Bytes) :
    string? (quoted value ++ rest) = some (value, rest) := by
  have hlength := length_le_length_flatMap_escape value
  rw [quoted_append, string?, if_pos rfl]
  apply readString_flatMap_escape
  rw [List.length_cons, List.length_append]
  omega

/-! ## Values -/

/-- The bytes of which words and numbers consist. -/
def inWord (b : UInt8) : Bool := Byte.isLetter b || inNumber b

/-- Every number in the value is written as a number. -/
inductive Written : Json → Prop
  | null : Written null
  | bool (value : Bool) : Written (bool value)
  | number {text : Bytes} : isNumber text = true → (∀ b ∈ text, inNumber b = true) →
      Written (number text)
  | string (value : Bytes) : Written (string value)
  | array {items : List Json} : (∀ item ∈ items, Written item) → Written (array items)
  | object {entries : List (Bytes × Json)} : (∀ entry ∈ entries, Written entry.2) →
      Written (object entries)

theorem Written.ofInt (n : Int) : Written (Json.ofInt n) :=
  .number (isNumber_ofInt n) (inNumber_of_mem_ofInt n)

/-- The value is read back from its text, whatever follows that is no word, and the text begins
with a byte that begins values only. -/
structure ReadsBack (j : Json) : Prop where
  read : ∀ fuel rest, 2 * j.text.length ≤ fuel → Stops inWord rest →
    readValue fuel (j.text ++ rest) = some (j, rest)
  head : ∃ b more, j.text = b :: more ∧ Byte.isBlank b = false ∧ b ≠ ascii ']'

theorem skipBlanks_cons {b : UInt8} (h : Byte.isBlank b = false) (rest : Bytes) :
    skipBlanks (b :: rest) = b :: rest := by
  simp [skipBlanks, h]

/-- Words and numbers are read to their end. -/
theorem plain?_word {word rest : Bytes} (hword : ∀ b ∈ word, inWord b = true)
    (hrest : Stops inWord rest) :
    plain? (word ++ rest) =
      if word = Bytes.ofString "null" then some (null, rest)
      else if word = Bytes.ofString "true" then some (bool true, rest)
      else if word = Bytes.ofString "false" then some (bool false, rest)
      else if isNumber word then some (number word, rest)
      else none := by
  obtain ⟨htake, hdrop⟩ := takeWhile_run hword hrest
  unfold inWord at htake hdrop
  simp only [plain?, htake, hdrop]

theorem isBlank_of_inWord {b : UInt8} (hb : inWord b = true) : Byte.isBlank b = false := by
  cases hblank : Byte.isBlank b with
  | false => rfl
  | true =>
      have hboundary : Byte.isBoundary b = true := by simp [Byte.isBoundary, hblank]
      have hnot := Byte.forall_boundary (p := fun b => !inWord b) (by decide) hboundary
      simp [hb] at hnot

theorem ne_of_inWord {b c : UInt8} (hb : inWord b = true) (hc : inWord c = false) : b ≠ c := by
  intro heq
  rw [heq, hc] at hb
  cases hb

/-- A byte of a word begins no string, array or object, and is no blank. -/
theorem readValue_word {b : UInt8} (hb : inWord b = true) (fuel : Nat) (more : Bytes) :
    readValue (fuel + 1) (b :: more) = plain? (b :: more) := by
  have hquote : b ≠ Byte.quote := ne_of_inWord hb (by decide)
  have hbracket : b ≠ ascii '[' := ne_of_inWord hb (by decide)
  have hbrace : b ≠ ascii '{' := ne_of_inWord hb (by decide)
  rw [readValue, skipBlanks_cons (isBlank_of_inWord hb)]
  simp only [if_neg hquote, if_neg hbracket, if_neg hbrace]

theorem readsBack_word {j : Json} (hne : j.text ≠ []) (hword : ∀ b ∈ j.text, inWord b = true)
    (hplain : ∀ rest, Stops inWord rest → plain? (j.text ++ rest) = some (j, rest)) :
    ReadsBack j := by
  cases htext : j.text with
  | nil => exact absurd htext hne
  | cons b more =>
      have hb : inWord b = true := hword b (by simp [htext])
      constructor
      · intro fuel rest hfuel hrest
        rw [htext, List.length_cons] at hfuel
        match fuel, hfuel with
        | fuel + 1, _ =>
            have hread := hplain rest hrest
            rw [htext] at hread ⊢
            rw [List.cons_append, readValue_word hb]
            exact hread
      · exact ⟨b, more, htext, isBlank_of_inWord hb, ne_of_inWord hb (by decide)⟩

theorem readsBack_null : ReadsBack null := by
  have hall : null.text.all inWord = true := by decide
  have hword := List.all_eq_true.1 hall
  refine readsBack_word (by decide) hword ?_
  intro rest hrest
  rw [plain?_word hword hrest]
  rfl

theorem readsBack_bool (value : Bool) : ReadsBack (bool value) := by
  have hall : (bool value).text.all inWord = true := by cases value <;> decide
  have hword := List.all_eq_true.1 hall
  refine readsBack_word (by cases value <;> decide) hword ?_
  intro rest hrest
  rw [plain?_word hword hrest]
  cases value <;> rfl

theorem readsBack_number {text : Bytes} (hnumber : isNumber text = true)
    (hbytes : ∀ b ∈ text, inNumber b = true) : ReadsBack (number text) := by
  have hword : ∀ b ∈ (number text).text, inWord b = true := by
    intro b hb
    rw [inWord, hbytes b hb, Bool.or_true]
  refine readsBack_word ?_ hword ?_
  · rintro rfl
    exact absurd hnumber (by decide)
  · intro rest hrest
    have hnot : ∀ word, isNumber word = false → text ≠ word := by
      rintro word hword rfl
      rw [hnumber] at hword
      cases hword
    rw [plain?_word hword hrest, Json.text, if_neg (hnot _ (by decide)),
      if_neg (hnot _ (by decide)), if_neg (hnot _ (by decide)), if_pos hnumber]

theorem readsBack_string (value : Bytes) : ReadsBack (string value) := by
  constructor
  · intro fuel rest hfuel _
    rw [Json.text, quoted, List.length_cons] at hfuel
    match fuel, hfuel with
    | fuel + 1, _ =>
        have hread := string?_quoted value rest
        rw [quoted, List.cons_append] at hread
        rw [Json.text, quoted, List.cons_append, readValue, skipBlanks_cons (by decide)]
        simp only [if_pos, hread]
        rfl
  · exact ⟨Byte.quote, _, rfl, by decide, by decide⟩

/-! ## Arrays and objects -/

theorem readItems_last {fuel : Nat} {input rest : Bytes} {item : Json}
    (hitem : readValue fuel input = some (item, ascii ']' :: rest)) :
    readItems (fuel + 1) input = some ([item], rest) := by
  have hblanks := skipBlanks_cons (b := ascii ']') (by decide) rest
  simp [readItems, hitem, hblanks]

theorem readItems_more {fuel : Nat} {input rest left : Bytes} {item : Json} {items : List Json}
    (hitem : readValue fuel input = some (item, ascii ',' :: rest))
    (hitems : readItems fuel rest = some (items, left)) :
    readItems (fuel + 1) input = some (item :: items, left) := by
  have hblanks := skipBlanks_cons (b := ascii ',') (by decide) rest
  have hcomma : ascii ',' ≠ ascii ']' := by decide
  simp [readItems, hitem, hblanks, hcomma, hitems]

/-- Items are read back up to the end of the array. -/
theorem readItems_text (items : List Json) :
    ∀ item, (∀ other ∈ item :: items, ReadsBack other) → ∀ fuel rest,
      2 * (item.text ++ itemsTail items).length ≤ fuel →
        readItems fuel (item.text ++ (itemsTail items ++ rest)) = some (item :: items, rest) := by
  -- going on costs one step, for which the comma or the bracket behind the item leaves two
  induction items with
  | nil =>
      intro item hitems fuel rest hfuel
      rw [itemsTail, List.length_append, List.length_singleton] at hfuel
      match fuel, hfuel with
      | fuel + 1, hfuel =>
          apply readItems_last
          exact (hitems item List.mem_cons_self).read fuel _ (by omega) (stops_cons.2 (by decide))
  | cons second items ih =>
      intro item hitems fuel rest hfuel
      rw [itemsTail, List.length_append, List.length_cons] at hfuel
      match fuel, hfuel with
      | fuel + 1, hfuel =>
          rw [itemsTail, List.cons_append, List.append_assoc]
          refine readItems_more ((hitems item List.mem_cons_self).read fuel _ (by omega)
            (stops_cons.2 (by decide))) ?_
          exact ih second (List.forall_mem_cons.1 hitems).2 fuel rest (by omega)

theorem readValue_array_nil (fuel : Nat) (rest : Bytes) :
    readValue (fuel + 1) (ascii '[' :: ascii ']' :: rest) = some (array [], rest) := by
  have hopening := skipBlanks_cons (b := ascii '[') (by decide) (ascii ']' :: rest)
  have hclosing := skipBlanks_cons (b := ascii ']') (by decide) rest
  have hquote : ascii '[' ≠ Byte.quote := by decide
  simp [readValue, hopening, hclosing, hquote]

theorem readValue_array {b : UInt8} (hblank : Byte.isBlank b = false) (hb : b ≠ ascii ']')
    (fuel : Nat) (more : Bytes) :
    readValue (fuel + 1) (ascii '[' :: b :: more) =
      (readItems fuel (b :: more)).map fun (items, left) => (array items, left) := by
  have hopening := skipBlanks_cons (b := ascii '[') (by decide) (b :: more)
  have hfirst := skipBlanks_cons hblank more
  have hquote : ascii '[' ≠ Byte.quote := by decide
  simp [readValue, hopening, hfirst, hquote, hb]

theorem readsBack_array {items : List Json} (h : ∀ item ∈ items, ReadsBack item) :
    ReadsBack (array items) := by
  cases items with
  | nil =>
      refine ⟨?_, ascii '[', _, rfl, by decide, by decide⟩
      intro fuel rest hfuel _
      match fuel, hfuel with
      | fuel + 1, _ => exact readValue_array_nil fuel rest
  | cons item items =>
      refine ⟨?_, ascii '[', _, rfl, by decide, by decide⟩
      intro fuel rest hfuel _
      rw [Json.text, List.length_cons] at hfuel
      match fuel, hfuel with
      | fuel + 1, hfuel =>
          have hread := readItems_text items item h fuel rest (by omega)
          obtain ⟨b, more, htext, hblank, hb⟩ := (h item List.mem_cons_self).head
          rw [Json.text, List.cons_append, List.append_assoc]
          rw [htext, List.cons_append] at hread ⊢
          rw [readValue_array hblank hb, hread]
          rfl

theorem skipBlanks_quoted (key rest : Bytes) :
    skipBlanks (quoted key ++ rest) = quoted key ++ rest := by
  rw [quoted_append]
  exact skipBlanks_cons (by decide) _

theorem readEntries_last {fuel : Nat} {key behind rest : Bytes} {value : Json}
    (hvalue : readValue fuel behind = some (value, ascii '}' :: rest)) :
    readEntries (fuel + 1) (quoted key ++ ascii ':' :: behind) = some ([(key, value)], rest) := by
  have hkey := string?_quoted key (ascii ':' :: behind)
  have hcolon := skipBlanks_cons (b := ascii ':') (by decide) behind
  have hblanks := skipBlanks_cons (b := ascii '}') (by decide) rest
  simp [readEntries, skipBlanks_quoted, hkey, hcolon, hvalue, hblanks]

theorem readEntries_more {fuel : Nat} {key behind rest left : Bytes} {value : Json}
    {entries : List (Bytes × Json)}
    (hvalue : readValue fuel behind = some (value, ascii ',' :: rest))
    (hentries : readEntries fuel rest = some (entries, left)) :
    readEntries (fuel + 1) (quoted key ++ ascii ':' :: behind) =
      some ((key, value) :: entries, left) := by
  have hkey := string?_quoted key (ascii ':' :: behind)
  have hcolon := skipBlanks_cons (b := ascii ':') (by decide) behind
  have hblanks := skipBlanks_cons (b := ascii ',') (by decide) rest
  have hcomma : ascii ',' ≠ ascii '}' := by decide
  simp [readEntries, skipBlanks_quoted, hkey, hcolon, hvalue, hblanks, hcomma, hentries]

/-- Entries are read back up to the end of the object. -/
theorem readEntries_text (entries : List (Bytes × Json)) :
    ∀ key value, (∀ other ∈ (key, value) :: entries, ReadsBack other.2) → ∀ fuel rest,
      2 * (quoted key ++ ascii ':' :: (value.text ++ entriesTail entries)).length ≤ fuel →
        readEntries fuel
            (quoted key ++ ascii ':' :: (value.text ++ (entriesTail entries ++ rest))) =
          some ((key, value) :: entries, rest) := by
  induction entries with
  | nil =>
      intro key value hentries fuel rest hfuel
      rw [entriesTail, List.length_append, List.length_cons, List.length_append,
        List.length_singleton] at hfuel
      match fuel, hfuel with
      | fuel + 1, hfuel =>
          have hvalue : ReadsBack value := hentries (key, value) List.mem_cons_self
          apply readEntries_last
          exact hvalue.read fuel _ (by omega) (stops_cons.2 (by decide))
  | cons second entries ih =>
      intro key value hentries fuel rest hfuel
      obtain ⟨key', value'⟩ := second
      rw [entriesTail, List.length_append, List.length_cons, List.length_append,
        List.length_cons] at hfuel
      match fuel, hfuel with
      | fuel + 1, hfuel =>
          have hvalue : ReadsBack value := hentries (key, value) List.mem_cons_self
          have hread := hvalue.read fuel
            (ascii ',' ::
              (quoted key' ++ ascii ':' :: (value'.text ++ (entriesTail entries ++ rest))))
            (by omega) (stops_cons.2 (by decide))
          have happend : entriesTail ((key', value') :: entries) ++ rest =
              ascii ',' ::
                (quoted key' ++ ascii ':' :: (value'.text ++ (entriesTail entries ++ rest))) := by
            simp [entriesTail]
          rw [happend]
          exact readEntries_more hread
            (ih key' value' (List.forall_mem_cons.1 hentries).2 fuel rest (by omega))

theorem readValue_object_nil (fuel : Nat) (rest : Bytes) :
    readValue (fuel + 1) (ascii '{' :: ascii '}' :: rest) = some (object [], rest) := by
  have hopening := skipBlanks_cons (b := ascii '{') (by decide) (ascii '}' :: rest)
  have hclosing := skipBlanks_cons (b := ascii '}') (by decide) rest
  have hquote : ascii '{' ≠ Byte.quote := by decide
  have hbracket : ascii '{' ≠ ascii '[' := by decide
  simp [readValue, hopening, hclosing, hquote, hbracket]

theorem readValue_object (key : Bytes) (fuel : Nat) (more : Bytes) :
    readValue (fuel + 1) (ascii '{' :: (quoted key ++ more)) =
      (readEntries fuel (quoted key ++ more)).map
        fun (entries, left) => (object entries, left) := by
  have hopening := skipBlanks_cons (b := ascii '{') (by decide) (quoted key ++ more)
  have hkey := skipBlanks_quoted key more
  have hquote : ascii '{' ≠ Byte.quote := by decide
  have hbracket : ascii '{' ≠ ascii '[' := by decide
  have hclose : Byte.quote ≠ ascii '}' := by decide
  rw [quoted_append] at hopening hkey ⊢
  simp [readValue, hopening, hkey, hquote, hbracket, hclose]

theorem readsBack_object {entries : List (Bytes × Json)}
    (h : ∀ entry ∈ entries, ReadsBack entry.2) : ReadsBack (object entries) := by
  cases entries with
  | nil =>
      refine ⟨?_, ascii '{', _, rfl, by decide, by decide⟩
      intro fuel rest hfuel _
      match fuel, hfuel with
      | fuel + 1, _ => exact readValue_object_nil fuel rest
  | cons entry entries =>
      obtain ⟨key, value⟩ := entry
      refine ⟨?_, ascii '{', _, rfl, by decide, by decide⟩
      intro fuel rest hfuel _
      rw [Json.text, List.length_cons] at hfuel
      match fuel, hfuel with
      | fuel + 1, hfuel =>
          have hread := readEntries_text entries key value h fuel rest (by omega)
          rw [Json.text, List.cons_append, List.append_assoc, readValue_object]
          simp only [List.cons_append, List.append_assoc] at hread ⊢
          rw [hread]
          rfl

/-- Every value whose numbers are written as numbers is read back. -/
theorem Written.readsBack {j : Json} (h : Written j) : ReadsBack j := by
  induction h with
  | null => exact readsBack_null
  | bool value => exact readsBack_bool value
  | number hnumber hbytes => exact readsBack_number hnumber hbytes
  | string value => exact readsBack_string value
  | array _ ih => exact readsBack_array ih
  | object _ ih => exact readsBack_object ih

/-- Reading undoes writing. -/
theorem read?_text {j : Json} (h : Written j) : read? j.text = some j := by
  have hread := h.readsBack.read (2 * j.text.length + 2) [] (by omega) stops_nil
  rw [List.append_nil] at hread
  rw [read?, hread]
  rfl

end Json
end RealtimeApp
