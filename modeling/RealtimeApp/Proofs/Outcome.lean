import RealtimeApp.Proofs.Lexeme
import RealtimeApp.Proofs.Skipped

/-!
# What becomes of the bytes of a source

Every span of a source is a leaf, one byte that opens or closes a group, a complaint, or a blank
or a comment (`Span.outcome_scan`): no scanner drops anything else without a complaint, and none
complains about a leaf but for an escape in it that stands for nothing.
-/

namespace RealtimeApp

/-- A complaint about an escape that stands for nothing. -/
def Complaint.IsUnknownEscape (complaint : Complaint) : Prop := ∃ b, complaint = .unknownEscape b

namespace Span

/-- What a span that stands in front of `behind` can be. -/
inductive Outcome (behind : Bytes) : Span → Prop
  | leaf {text : Bytes} {kind : LeafKind} {literal : Option Literal} {suffix : Bytes}
      {complaints : List Complaint} : (∀ complaint ∈ complaints, complaint.IsUnknownEscape) →
      Outcome behind ⟨text, .leaf kind literal suffix, complaints⟩
  | opener (d : Delimiter) : Outcome behind ⟨[d.opening], .opener d, []⟩
  | closer (d : Delimiter) : Outcome behind ⟨[d.closing], .closer d, []⟩
  | fault {text : Bytes} {complaints : List Complaint} : complaints ≠ [] →
      Outcome behind ⟨text, .skipped, complaints⟩
  | skipped {text : Bytes} : Skipped behind text → Outcome behind ⟨text, .skipped, []⟩

/-- What a scanner took off is an outcome in front of what it left. -/
def HasOutcome (scanned : Span × Bytes) : Prop := Outcome scanned.2 scanned.1

/-! ## Scanners -/

theorem Outcome.flawless {behind text : Bytes} {kind : LeafKind} {literal : Option Literal}
    {suffix : Bytes} : Outcome behind ⟨text, .leaf kind literal suffix, []⟩ :=
  .leaf (by simp)

theorem outcome_scanString (rest : Bytes) : HasOutcome (scanString rest) := by
  simp only [scanString]
  split
  · refine .leaf ?_
    intro complaint hcomplaint
    obtain ⟨b, -, rfl⟩ := List.mem_map.1 hcomplaint
    exact ⟨b, rfl⟩
  · exact .fault (by simp)

theorem outcome_scanEscapedCharacter (rest : Bytes) :
    HasOutcome (scanEscapedCharacter rest) := by
  unfold scanEscapedCharacter
  split
  · exact .fault (by simp)
  · rename_i e behind
    have hunknown : ∀ complaint ∈ if (unescape? e).isSome then [] else [.unknownEscape e],
        Complaint.IsUnknownEscape complaint := by
      intro complaint hcomplaint
      split at hcomplaint
      · cases hcomplaint
      · exact ⟨e, List.mem_singleton.1 hcomplaint⟩
    simp only
    split
    · exact .fault (by simp)
    · split
      · exact .leaf hunknown
      · exact .fault (by simp)

theorem outcome_scanLifetime (rest : Bytes) : HasOutcome (scanLifetime rest) := by
  unfold scanLifetime
  split
  · exact .flawless
  · exact .fault (by simp)

theorem outcome_scanApostrophe (rest : Bytes) : HasOutcome (scanApostrophe rest) := by
  unfold scanApostrophe
  split
  · exact outcome_scanLifetime _
  · split
    · exact outcome_scanEscapedCharacter _
    · split
      · exact outcome_scanLifetime _
      · split
        · exact .flawless
        · exact outcome_scanLifetime _

theorem outcome_scanOperator (b : UInt8) (rest : Bytes) : HasOutcome (scanOperator b rest) := by
  unfold scanOperator
  split
  · exact .flawless
  · exact .fault (by simp)

theorem outcome_scanSlash (rest : Bytes) : HasOutcome (scanSlash rest) := by
  unfold scanSlash
  split
  · exact outcome_scanOperator ..
  · rename_i c behind
    split
    · rename_i hc
      subst hc
      exact .skipped (skipped_line behind)
    · split
      · rename_i hc
        subst hc
        have hbalanced := BlockComment.balanced_scan behind
        generalize BlockComment.scan 0 behind = scanned at hbalanced ⊢
        obtain ⟨comment, left⟩ := scanned
        simp only
        split
        · rename_i hclosed
          exact .skipped (Skipped.block (hbalanced hclosed))
        · exact .fault (by simp)
      · exact outcome_scanOperator ..

theorem outcome_scanNumeral (input : Bytes) : HasOutcome (scanNumeral input) := by
  simp only [scanNumeral]
  split
  · exact .flawless
  · exact .fault (by simp)

theorem outcome_scanWord (input : Bytes) : HasOutcome (scanWord input) := by
  simp only [scanWord, wordContent]
  split
  · exact .flawless
  · split <;> exact .flawless

theorem outcome_scan (b : UInt8) (rest : Bytes) : HasOutcome (scan b rest) := by
  have hscan := scansAs_scan b
  generalize scan b = scanner at hscan ⊢
  cases hscan with
  | opener d h => exact h ▸ .opener d
  | closer d h => exact h ▸ .closer d
  | blank h => exact .skipped (Skipped.blank h)
  | string h => exact outcome_scanString rest
  | apostrophe h => exact outcome_scanApostrophe rest
  | slash h => exact outcome_scanSlash rest
  | numeral h => exact outcome_scanNumeral _
  | word h => exact outcome_scanWord _
  | operator => exact outcome_scanOperator b rest

/-! ## Spans of a whole source -/

theorem exists_outcome_of_mem_all {source : Bytes} {span : Span} (h : span ∈ all source) :
    ∃ behind, Outcome behind span :=
  forall_mem_all (p := fun span => ∃ behind, Outcome behind span)
    (fun b rest => ⟨_, outcome_scan b rest⟩) source span h

/-- The only complaint that a leaf can have is an unknown escape. -/
theorem unknownEscape_of_mem_all {source : Bytes} {span : Span} (h : span ∈ all source)
    (hleaf : span.content.isLeaf = true) :
    ∀ complaint ∈ span.complaints, complaint.IsUnknownEscape := by
  obtain ⟨behind, houtcome⟩ := exists_outcome_of_mem_all h
  cases houtcome with
  | leaf hunknown => exact hunknown
  | opener d | closer d | fault hfault | skipped hskipped => cases hleaf

/-- An opener or a closer is one byte, its own, with nothing to complain about. -/
structure Delimited (span : Span) : Prop where
  opener : ∀ d, span.content = .opener d → span = ⟨[d.opening], .opener d, []⟩
  closer : ∀ d, span.content = .closer d → span = ⟨[d.closing], .closer d, []⟩

theorem delimited_of_mem_all {source : Bytes} {span : Span} (h : span ∈ all source) :
    span.Delimited := by
  obtain ⟨behind, houtcome⟩ := exists_outcome_of_mem_all h
  constructor
  · intro d hd
    cases houtcome with
    | opener e =>
        cases hd
        rfl
    | leaf | closer | fault | skipped => cases hd
  · intro d hd
    cases houtcome with
    | closer e =>
        cases hd
        rfl
    | leaf | opener | fault | skipped => cases hd

end Span
end RealtimeApp
