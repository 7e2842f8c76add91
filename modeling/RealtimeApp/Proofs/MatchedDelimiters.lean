import RealtimeApp.Proofs.Sites

/-!
# Matched delimiters

The delimiters of a source are matched when openers and closers come in pairs that nest
(`Span.Matched`).  They are so exactly when no closer fails to end a group and no group stays open
(`Span.matched_all_iff`), which is what reading the source finds out from left to right.
-/

namespace RealtimeApp

/-- Is it the content of an opener or a closer? -/
def Content.isDelimiter : Content → Bool
  | .opener _ | .closer _ => true
  | .skipped | .leaf .. => false

namespace Span

/-- Openers and closers come in pairs that nest; everything else may stand between them. -/
inductive Matched : List Span → Prop
  | nil : Matched []
  | other {span : Span} {rest : List Span} (content : span.content.isDelimiter = false)
      (others : Matched rest) : Matched (span :: rest)
  | group {opener closer : Span} {d : Delimiter} {inner rest : List Span}
      (opening : opener.content = .opener d) (members : Matched inner)
      (closing : closer.content = .closer d) (others : Matched rest) :
      Matched (opener :: (inner ++ closer :: rest))

/-- The closers of a source that end no group. -/
def looseClosers (source : Bytes) : List Site := (sites 0 [] (all source)).filter Site.isLoose

/-- The openers of a source without a closer, innermost first. -/
def unclosedOpeners (source : Bytes) : List Opener := openBehind 0 [] (all source)

section Matched

variable {offset : Nat} {opened : List Opener} {span : Span} {spans : List Span}

theorem openBy_of_not_isDelimiter (offset : Nat) (opened : List Opener)
    (h : span.content.isDelimiter = false) :
    span.openBy offset opened = opened ∧ Site.isLoose ⟨span, offset, opened⟩ = false := by
  cases hcontent : span.content with
  | skipped | leaf _ _ _ => simp [openBy, Site.isLoose, hcontent]
  | opener d | closer d => simp [hcontent, Content.isDelimiter] at h

theorem openBy_opener (offset : Nat) (opened : List Opener) {d : Delimiter}
    (h : span.content = .opener d) :
    span.openBy offset opened = ⟨d, offset⟩ :: opened ∧
      Site.isLoose ⟨span, offset, opened⟩ = false := by
  simp [openBy, Site.isLoose, h]

theorem openBy_closer (offset : Nat) (opener : Opener) (opened : List Opener) {d : Delimiter}
    (h : span.content = .closer d) (hopener : opener.delimiter = d) :
    span.openBy offset (opener :: opened) = opened ∧
      Site.isLoose ⟨span, offset, opener :: opened⟩ = false := by
  simp [openBy, Site.isLoose, fits, h, hopener]

/-- A closer that is not loose ends the innermost open group. -/
theorem exists_of_isLoose_eq_false {d : Delimiter} (h : span.content = .closer d)
    (hloose : Site.isLoose ⟨span, offset, opened⟩ = false) :
    ∃ opener outer, opened = opener :: outer ∧ opener.delimiter = d := by
  cases opened with
  | nil => simp [Site.isLoose, fits, h] at hloose
  | cons opener outer => exact ⟨opener, outer, rfl, by simpa [Site.isLoose, fits, h] using hloose⟩

/-- Matched delimiters leave the open groups as they were, and no closer among them is loose. -/
theorem Matched.openBehind_eq (h : Matched spans) : ∀ offset opened,
    openBehind offset opened spans = opened ∧
      (sites offset opened spans).filter Site.isLoose = [] := by
  induction h with
  | nil =>
      intro offset opened
      exact ⟨rfl, rfl⟩
  | other hcontent _ ih =>
      intro offset opened
      obtain ⟨hopen, hloose⟩ := openBy_of_not_isDelimiter offset opened hcontent
      rw [openBehind, sites_cons, List.filter_cons, hopen, hloose]
      exact ih _ opened
  | @group opener closer d inner rest hopener _ hcloser _ ihinner ihrest =>
      intro offset opened
      -- the opener adds a group, what is inside leaves it alone, and the closer ends it
      obtain ⟨hopen, hloose⟩ := openBy_opener offset opened hopener
      obtain ⟨hinner, hinnerLoose⟩ := ihinner (offset + opener.text.length) (⟨d, offset⟩ :: opened)
      obtain ⟨hclose, hcloserLoose⟩ := openBy_closer
        (offset + opener.text.length + (textOf inner).length) ⟨d, offset⟩ opened hcloser rfl
      rw [openBehind, sites_cons, List.filter_cons, hopen, hloose, openBehind_append, sites_append,
        List.filter_append, hinner, hinnerLoose, openBehind, sites_cons, List.filter_cons, hclose,
        hcloserLoose]
      exact ihrest _ opened

/-- Spans that close these groups, innermost first, with matched delimiters before and between the
closers and behind the last one. -/
inductive Closes : List Opener → List Span → Prop
  | last {spans : List Span} (others : Matched spans) : Closes [] spans
  | closer {opener : Opener} {opened : List Opener} {inner rest : List Span} {span : Span}
      (members : Matched inner) (closing : span.content = .closer opener.delimiter)
      (others : Closes opened rest) : Closes (opener :: opened) (inner ++ span :: rest)

theorem Closes.other (h : Closes opened spans) (hcontent : span.content.isDelimiter = false) :
    Closes opened (span :: spans) := by
  cases h with
  | last hothers => exact .last (.other hcontent hothers)
  | closer hmembers hclosing hothers =>
      exact .closer (.other hcontent hmembers) hclosing hothers

theorem Closes.group {opener : Opener} (h : Closes (opener :: opened) spans)
    (hopening : span.content = .opener opener.delimiter) : Closes opened (span :: spans) := by
  cases h with
  | closer hmembers hclosing hothers =>
      cases hothers with
      | last hrest => exact .last (.group hopening hmembers hclosing hrest)
      | closer hinner hcloser hrest =>
          -- the whole group now stands before the next closer
          rw [← List.cons_append, ← List.cons_append, ← List.append_assoc, List.cons_append]
          exact .closer (.group hopening hmembers hclosing hinner) hcloser hrest

/-- Where no closer is loose and no group stays open, the groups that were open are closed. -/
theorem closes_of_openBehind_eq (hopen : openBehind offset opened spans = [])
    (hloose : (sites offset opened spans).filter Site.isLoose = []) : Closes opened spans := by
  induction spans generalizing offset opened with
  | nil =>
      obtain rfl : opened = [] := hopen
      exact .last .nil
  | cons span rest ih =>
      rw [sites_cons, List.filter_cons] at hloose
      split at hloose
      · cases hloose
      rename_i hfits
      rw [Bool.not_eq_true] at hfits
      have hrest := ih hopen hloose
      cases hcontent : span.content with
      | skipped | leaf _ _ _ =>
          have hother : span.content.isDelimiter = false := by simp [hcontent, Content.isDelimiter]
          rw [(openBy_of_not_isDelimiter _ _ hother).1] at hrest
          exact hrest.other hother
      | opener d =>
          rw [(openBy_opener _ _ hcontent).1] at hrest
          exact hrest.group hcontent
      | closer d =>
          obtain ⟨opener, outer, rfl, hdelimiter⟩ := exists_of_isLoose_eq_false hcontent hfits
          rw [(openBy_closer _ _ _ hcontent hdelimiter).1] at hrest
          have hcloser : span.content = .closer opener.delimiter := by rw [hcontent, hdelimiter]
          exact .closer .nil hcloser hrest

/-- The delimiters of a source are matched where none of them lacks its partner. -/
theorem matched_all_iff (source : Bytes) :
    Matched (all source) ↔ looseClosers source = [] ∧ unclosedOpeners source = [] := by
  constructor
  · intro h
    obtain ⟨hopen, hloose⟩ := h.openBehind_eq 0 []
    exact ⟨hloose, hopen⟩
  · rintro ⟨hloose, hopen⟩
    cases closes_of_openBehind_eq hopen hloose with
    | last h => exact h

end Matched
end Span

end RealtimeApp
