import RealtimeApp.Grammar.Value
import RealtimeApp.Proofs.Boundary
import RealtimeApp.Proofs.FieldReading

/-!
# Reading the values of fields

Truth values, bytes and paths are read as they are written, and so is an entry of storage, which
ends with its semicolon.
-/

namespace RealtimeApp
namespace Grammar

open Rule Written

/-! ## Values of one token -/

theorem readBool_eq_ok_iff {found : Option Token} {value : Bool} :
    readBool found = .ok value ↔
      ∃ l, found = some (.leaf l) ∧ l.kind = .bool ∧ l.literal = some (.bool value) := by
  constructor
  · intro h
    unfold readBool at h
    split at h
    · cases h
      exact ⟨_, rfl, rfl, rfl⟩
    · cases h
  · rintro ⟨⟨kind, lexeme, literal, suffix, position⟩, rfl, hkind, hliteral⟩
    obtain rfl : kind = .bool := hkind
    obtain rfl : literal = _ := hliteral
    rfl

theorem plainInteger?_eq_some_iff {found : Option Token} {n : UInt64} :
    plainInteger? found = some n ↔
      ∃ l, found = some (.leaf l) ∧ l.kind = .integer ∧ l.suffix = [] ∧
        l.literal = some (.integer n) := by
  constructor
  · intro h
    unfold plainInteger? at h
    split at h
    · cases h
      exact ⟨_, rfl, rfl, rfl, rfl⟩
    · cases h
  · rintro ⟨⟨kind, lexeme, literal, suffix, position⟩, rfl, hkind, hsuffix, hliteral⟩
    obtain rfl : kind = .integer := hkind
    obtain rfl : suffix = [] := hsuffix
    obtain rfl : literal = _ := hliteral
    rfl

theorem readByte_eq_ok_iff {found : Option Token} {value : UInt8} :
    readByte found = .ok value ↔
      ∃ n, plainInteger? found = some n ∧ n < 256 ∧ value = n.toUInt8 := by
  rw [readByte]
  cases plainInteger? found with
  | none => simp
  | some n =>
      by_cases hn : 256 ≤ n
      · have hnot : ¬n < 256 := UInt64.not_lt.2 hn
        simp [hn, hnot]
      · have hlt : n < 256 := UInt64.not_le.1 hn
        simp [hn, hlt, eq_comm]

theorem reads_bool : bool.Reads IsBool := by
  refine Reads.congr (reads_ofNext ?_) ?_
  · intro value h
    cases h
  · intro value run
    constructor
    · rintro ⟨t, rfl, hread⟩
      obtain ⟨l, ht, hkind, hliteral⟩ := readBool_eq_ok_iff.1 hread
      cases ht
      exact ⟨l, rfl, hkind, hliteral⟩
    · rintro ⟨l, rfl, hkind, hliteral⟩
      exact ⟨_, rfl, readBool_eq_ok_iff.2 ⟨l, rfl, hkind, hliteral⟩⟩

theorem reads_byte : byte.Reads IsByte := by
  refine Reads.congr (reads_ofNext ?_) ?_
  · intro value h
    cases h
  · intro value run
    constructor
    · rintro ⟨t, rfl, hread⟩
      obtain ⟨n, hn, hlt, hvalue⟩ := readByte_eq_ok_iff.1 hread
      obtain ⟨l, ht, hkind, hsuffix, hliteral⟩ := plainInteger?_eq_some_iff.1 hn
      cases ht
      exact ⟨l, n, rfl, hkind, hsuffix, hliteral, hlt, hvalue⟩
    · rintro ⟨l, n, rfl, hkind, hsuffix, hliteral, hlt, hvalue⟩
      refine ⟨_, rfl, readByte_eq_ok_iff.2 ⟨n, ?_, hlt, hvalue⟩⟩
      exact plainInteger?_eq_some_iff.2 ⟨l, rfl, hkind, hsuffix, hliteral⟩

/-! ## Runs of tokens -/

theorem takeWhile_stopless {p : Token → Bool} {run rest : List Token}
    (hrun : ∀ t ∈ run, p t = false) (hrest : ∀ t ∈ rest.head?, p t = true) :
    (run ++ rest).takeWhile (!p ·) = run ∧ (run ++ rest).dropWhile (!p ·) = rest := by
  apply takeWhile_run
  · intro t ht
    show (!p t) = true
    rw [hrun t ht]
    rfl
  · intro t ht
    show (!p t) = false
    rw [hrest t ht]
    rfl

/-- A sequence is cut before its first token with a property. -/
theorem stopless_of_takeWhile {p : Token → Bool} {tokens run rest : List Token}
    (htake : tokens.takeWhile (!p ·) = run) (hdrop : tokens.dropWhile (!p ·) = rest) :
    tokens = run ++ rest ∧ (∀ t ∈ run, p t = false) ∧ ∀ t ∈ rest.head?, p t = true := by
  have hsplit := List.takeWhile_append_dropWhile (p := (!p ·)) (l := tokens)
  have hhead := List.head?_dropWhile_not (!p ·) tokens
  rw [htake, hdrop] at hsplit
  rw [hdrop] at hhead
  refine ⟨hsplit.symm, ?_, ?_⟩
  · intro t ht
    rw [← htake] at ht
    simpa using List.all_eq_true.1 List.all_takeWhile t ht
  · intro t ht
    rw [ht] at hhead
    simpa using hhead

/-- A path is what stands before the first comma. -/
theorem run_path_eq_ok_iff {tokens rest : List Token} {fragment : Fragment} :
    path.run tokens = (.ok fragment, rest) ↔
      tokens = fragment ++ rest ∧ IsRun .comma fragment ∧ AtComma rest := by
  have hcases : path.run tokens = (.ok fragment, rest) ↔
      fragment ≠ [] ∧ tokens.takeWhile (!·.isLeaf .comma) = fragment ∧
        tokens.dropWhile (!·.isLeaf .comma) = rest := by
    simp only [path]
    split
    · rename_i hnil
      rw [hnil]
      constructor
      · intro h
        cases h
      · rintro ⟨hne, hfragment, -⟩
        exact absurd hfragment.symm hne
    · rename_i first more hcons
      rw [hcons]
      constructor
      · intro h
        simp only [Prod.mk.injEq, Except.ok.injEq] at h
        exact ⟨by simp [← h.1], h.1, h.2⟩
      · rintro ⟨-, rfl, hdrop⟩
        rw [hdrop]
  rw [hcases]
  constructor
  · rintro ⟨hne, htake, hdrop⟩
    obtain ⟨hsplit, hstopless, hrest⟩ := stopless_of_takeWhile htake hdrop
    exact ⟨hsplit, ⟨hne, hstopless⟩, hrest⟩
  · rintro ⟨rfl, ⟨hne, hstopless⟩, hrest⟩
    exact ⟨hne, takeWhile_stopless hstopless hrest⟩

theorem reads_path : path.Reads IsPath := by
  intro fragment run rest hrest
  rw [run_path_eq_ok_iff, IsPath, List.append_left_inj]
  exact ⟨fun h => ⟨h.1, h.2.1⟩, fun h => ⟨h.1, h.2, hrest⟩⟩

theorem hasKind_leaf (kind : LeafKind) (t : Token) : t.hasKind (.leaf kind) = t.isLeaf kind := by
  cases t with
  | leaf l =>
      rw [Bool.eq_iff_iff]
      simp [Token.hasKind, Token.kind, Token.isLeaf]
  | group d position members => simp [Token.hasKind, Token.kind, Token.isLeaf]

/-- A run up to a stop is what stands before the first token of that kind. -/
theorem run_upTo_eq_ok_iff {stop : TokenKind} {tokens rest : List Token} {fragment : Fragment} :
    (upTo stop).run tokens = (.ok fragment, rest) ↔
      ∃ t, tokens = fragment ++ t :: rest ∧ t.hasKind stop = true ∧
        ∀ u ∈ fragment, u.hasKind stop = false := by
  simp only [upTo]
  constructor
  · intro h
    split at h
    · cases h
    · rename_i t left hdrop
      simp only [Prod.mk.injEq, Except.ok.injEq] at h
      obtain ⟨htake, rfl⟩ := h
      obtain ⟨hsplit, hstopless, hrest⟩ := stopless_of_takeWhile htake hdrop
      exact ⟨t, hsplit, hrest t rfl, hstopless⟩
  · rintro ⟨t, rfl, ht, hfragment⟩
    have hrest : ∀ u ∈ (t :: rest).head?, u.hasKind stop = true := by simpa using ht
    obtain ⟨htake, hdrop⟩ := takeWhile_stopless hfragment hrest
    rw [htake, hdrop]

theorem run_filledUpTo_eq_ok_iff {stop : LeafKind} {ifEmpty : Cause} {tokens rest : List Token}
    {fragment : Fragment} :
    (filledUpTo (.leaf stop) ifEmpty).run tokens = (.ok fragment, rest) ↔
      ∃ t, tokens = fragment ++ t :: rest ∧ t.isLeaf stop = true ∧ IsRun stop fragment := by
  constructor
  · intro h
    rw [filledUpTo, run_bind] at h
    split at h
    · rename_i found left hfound
      split at h
      · cases h
      · rename_i hne
        simp only [run_pure, Prod.mk.injEq, Except.ok.injEq] at h
        obtain ⟨rfl, rfl⟩ := h
        obtain ⟨t, htokens, ht, hstopless⟩ := run_upTo_eq_ok_iff.1 hfound
        simp only [hasKind_leaf] at ht hstopless
        exact ⟨t, htokens, ht, by simpa using hne, hstopless⟩
    · cases h
  · rintro ⟨t, htokens, ht, hne, hstopless⟩
    simp only [← hasKind_leaf] at ht hstopless
    have hrun := run_upTo_eq_ok_iff.2 ⟨t, htokens, ht, hstopless⟩
    rw [filledUpTo, run_bind_of_ok hrun, if_neg (by simpa using hne)]
    rfl

/-- An entry is a type, an equal sign, an initial value and a semicolon. -/
theorem run_static_eq_ok_iff {tokens rest : List Token} {value : Static} :
    static.run tokens = (.ok value, rest) ↔
      ∃ equal semicolon, tokens = value.type ++ equal :: (value.initial ++ semicolon :: rest) ∧
        IsRun .equal value.type ∧ equal.isLeaf .equal = true ∧
        IsRun .semicolon value.initial ∧ semicolon.isLeaf .semicolon = true := by
  constructor
  · intro h
    rw [static, run_bind] at h
    split at h
    · rename_i type behind htype
      rw [run_bind] at h
      split at h
      · rename_i initial left hinitial
        simp only [run_pure, Prod.mk.injEq, Except.ok.injEq] at h
        obtain ⟨rfl, rfl⟩ := h
        obtain ⟨equal, rfl, hequal, hrun⟩ := run_filledUpTo_eq_ok_iff.1 htype
        obtain ⟨semicolon, rfl, hsemicolon, hrun'⟩ := run_filledUpTo_eq_ok_iff.1 hinitial
        exact ⟨equal, semicolon, rfl, hrun, hequal, hrun', hsemicolon⟩
      · cases h
    · cases h
  · rintro ⟨equal, semicolon, rfl, hrun, hequal, hrun', hsemicolon⟩
    have htype : (filledUpTo (.leaf .equal) .missingType).run
        (value.type ++ equal :: (value.initial ++ semicolon :: rest)) =
        (.ok value.type, value.initial ++ semicolon :: rest) :=
      run_filledUpTo_eq_ok_iff.2 ⟨equal, rfl, hequal, hrun⟩
    have hinitial : (filledUpTo (.leaf .semicolon) .missingInitialValue).run
        (value.initial ++ semicolon :: rest) = (.ok value.initial, rest) :=
      run_filledUpTo_eq_ok_iff.2 ⟨semicolon, rfl, hsemicolon, hrun'⟩
    rw [static, run_bind_of_ok htype, run_bind_of_ok hinitial]
    rfl

end Grammar
end RealtimeApp
