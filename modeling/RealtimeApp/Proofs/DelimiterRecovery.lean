import RealtimeApp.Proofs.MatchedDelimiters
import RealtimeApp.Proofs.Rescanning

/-!
# Recovery from delimiters without partners

A closer that ends no group is dropped, and a group without a closer ends with the source.  So a
source with such delimiters is read like the one in which those closers are blanks and the missing
closers stand behind the last line (`mended`): the same groups are open at all of its sites
(`Nest.RunAt.mended`), and it is read as the same tokens without a fault (`lex_mended`).
-/

namespace RealtimeApp

/-! ## The edit -/

/-- A text with spaces in place of the bytes at some offsets. -/
def overwritten (text : Bytes) (offsets : List Nat) : Bytes :=
  offsets.foldl (fun text offset => text.set offset Byte.space) text

/-- A source with spaces in place of the closers that end no group, and behind it, on a line of
their own, the closers that are missing, innermost first. -/
def mended (source : Bytes) : Bytes :=
  overwritten source ((Span.looseClosers source).map Site.offset) ++
    Byte.newline :: (Span.unclosedOpeners source).map (·.delimiter.closing)

/-- The span that takes the place of the one at a site: a space for a closer that ends no group. -/
def Site.mended (site : Site) : Span :=
  if site.isLoose then .skip Byte.space [] else site.span

/-- The spans that take the place of those from an offset on. -/
def Span.mendedFrom (offset : Nat) (opened : List Opener) (spans : List Span) : List Span :=
  (sites offset opened spans).map Site.mended

namespace Span

section Mended

variable {source : Bytes} {offset : Nat} {opened : List Opener} {span : Span} {spans : List Span}

theorem mendedFrom_cons (offset : Nat) (opened : List Opener) (span : Span) (rest : List Span) :
    mendedFrom offset opened (span :: rest) = Site.mended ⟨span, offset, opened⟩ ::
      mendedFrom (offset + span.text.length) (span.openBy offset opened) rest := rfl

/-- A loose closer is one byte, which is not the end of a line. -/
theorem Delimited.text_of_isLoose (hspan : span.Delimited)
    (hloose : Site.isLoose ⟨span, offset, opened⟩ = true) :
    ∃ d : Delimiter, span.text = [d.closing] := by
  cases hcontent : span.content with
  | closer d => exact ⟨d, congrArg Span.text (hspan.closer d hcontent)⟩
  | skipped | leaf _ _ _ | opener _ => simp [Site.isLoose, hcontent] at hloose

/-- Writing spaces over the loose closers of spans gives the text of the spans in their place. -/
theorem overwritten_textOf (hspans : ∀ span ∈ spans, span.Delimited) (front : Bytes)
    (opened : List Opener) :
    overwritten (front ++ textOf spans)
        (((sites front.length opened spans).filter Site.isLoose).map Site.offset) =
      front ++ textOf (mendedFrom front.length opened spans) := by
  induction spans generalizing front opened with
  | nil => rfl
  | cons span rest ih =>
      -- the front grows by one span at a time, so its length stays the offset
      obtain ⟨hspan, hrest⟩ := List.forall_mem_cons.1 hspans
      rw [sites_cons, List.filter_cons, mendedFrom_cons, Site.mended]
      split
      · rename_i hloose
        obtain ⟨d, htext⟩ := hspan.text_of_isLoose hloose
        have hothers := ih hrest (front ++ [Byte.space]) (span.openBy front.length opened)
        rw [List.length_append, List.append_assoc, List.append_assoc] at hothers
        rw [List.map_cons, overwritten, List.foldl_cons, textOf_cons, textOf_cons, htext]
        simpa [overwritten, skip] using hothers
      · have hothers := ih hrest (front ++ span.text) (span.openBy front.length opened)
        rw [List.length_append, List.append_assoc, List.append_assoc] at hothers
        exact hothers

/-- Spans go on like those in their place up to the first blank that is new. -/
theorem likeToBoundary_mendedFrom (offset : Nat) (opened : List Opener) (spans : List Span)
    {left : Bytes} (hleft : Bounded left) :
    LikeToBoundary (textOf spans) (textOf (mendedFrom offset opened spans) ++ left) := by
  induction spans generalizing offset opened with
  | nil => exact hleft.likeToBoundary _
  | cons span rest ih =>
      rw [mendedFrom_cons, Site.mended]
      split
      · exact Bounded.likeToBoundary (bounded_cons.2 Byte.isBoundary_space) _
      · rw [textOf_cons, textOf_cons, List.append_assoc]
        exact (ih _ _).append span.text

/-- Where a line ends in front of spans, it ends in front of those in their place. -/
theorem stops_mendedFrom (hspans : ∀ span ∈ spans, span.Delimited ∧ span.text ≠ [])
    (hstops : Stops (· != Byte.newline) (textOf spans)) (left : Bytes) :
    Stops (· != Byte.newline)
      (textOf (mendedFrom offset opened spans) ++ Byte.newline :: left) := by
  cases spans with
  | nil => exact stops_cons.2 rfl
  | cons span rest =>
      obtain ⟨hdelimited, hwritten⟩ := hspans span List.mem_cons_self
      rw [mendedFrom_cons, Site.mended]
      split
      · -- no line ends in front of a closer
        rename_i hloose
        obtain ⟨d, htext⟩ := hdelimited.text_of_isLoose hloose
        rw [textOf_cons, htext] at hstops
        cases d <;> exact absurd (stops_cons.1 hstops) (by decide)
      · obtain ⟨b, more, htext⟩ := List.exists_cons_of_ne_nil hwritten
        rw [textOf_cons, htext] at hstops ⊢
        exact hstops

/-- Before the end of a line, the spans in place of others are scanned as they are. -/
theorem all_mendedFrom (hall : all source = spans) (hspans : ∀ span ∈ spans, span.complaints = [])
    (offset : Nat) (opened : List Opener) (left : Bytes) :
    all (textOf (mendedFrom offset opened spans) ++ Byte.newline :: left) =
      mendedFrom offset opened spans ++ all (Byte.newline :: left) := by
  induction spans generalizing source offset opened with
  | nil => rfl
  | cons span rest ih =>
      obtain ⟨hspan, hothers⟩ := List.forall_mem_cons.1 hspans
      have hrest := all_textOf_of_cons hall
      have hagain := ih hrest hothers (offset + span.text.length) (span.openBy offset opened)
      rw [mendedFrom_cons, Site.mended, textOf_cons, List.append_assoc, List.cons_append, ← hagain]
      split
      · exact all_space _
      · -- the first byte that is new behind the span is a blank
        apply all_cons_swap hall hspan
        · exact likeToBoundary_mendedFrom _ _ rest (bounded_cons.2 (by decide))
        · intro _ hstops
          refine stops_mendedFrom ?_ hstops left
          intro other hother
          have hmem : other ∈ all source := by
            rw [hall]
            exact List.mem_cons_of_mem _ hother
          exact ⟨delimited_of_mem_all hmem, text_ne_nil_of_mem_all hmem⟩

/-- Closers on their own are scanned one by one. -/
theorem all_closers (opened : List Opener) :
    all (opened.map (·.delimiter.closing)) =
      (opened.map Opener.delimiter).map fun d => ⟨[d.closing], .closer d, []⟩ := by
  induction opened with
  | nil => exact all_nil
  | cons opener opened ih => rw [List.map_cons, all_closing, ih, List.map_cons, List.map_cons]

/-- The spans of the edited source: those of the source with blanks for the closers that end no
group, the newline, and the closers that are missing. -/
theorem all_mended (hspans : ∀ span ∈ all source, span.complaints = []) :
    all (mended source) = mendedFrom 0 [] (all source) ++ skip Byte.newline [] ::
      ((unclosedOpeners source).map Opener.delimiter).map fun d => ⟨[d.closing], .closer d, []⟩ := by
  have hdelimited : ∀ span ∈ all source, span.Delimited := fun _ => delimited_of_mem_all
  have htext := overwritten_textOf hdelimited [] []
  rw [List.nil_append, List.nil_append, textOf_all, List.length_nil] at htext
  rw [mended, looseClosers, htext, all_mendedFrom rfl hspans, all_newline, all_closers]

end Mended
end Span

/-! ## Reading the edited source -/

namespace Nest

section Run

variable {source : Bytes} {limit : Int} {nest next last : Nest} {position : Position} {span : Span}
  {spans : List Span} {opened : List Opener} {offset : Nat} {complaints : List Complaint}
  {faults : List Fault}

/-- What takes the place of a span has the same effect, and is nothing to complain about. -/
theorem Takes.mended (h : Takes limit nest (placeAt source offset) span next complaints)
    (hopened : nest.OpensAt source opened) (hspan : span.Delimited)
    (hcomplaints : span.complaints = []) :
    Takes limit nest (placeAt source offset) (Site.mended ⟨span, offset, opened⟩) next [] ∧
      (placeAt source offset).after (Site.mended ⟨span, offset, opened⟩).text =
        (placeAt source offset).after span.text := by
  have hkept : Site.isLoose ⟨span, offset, opened⟩ = false →
      Takes limit nest (placeAt source offset) span next [] →
      Takes limit nest (placeAt source offset) (Site.mended ⟨span, offset, opened⟩) next [] ∧
        (placeAt source offset).after (Site.mended ⟨span, offset, opened⟩).text =
          (placeAt source offset).after span.text := by
    intro hloose hsame
    rw [Site.mended, hloose]
    exact ⟨hsame, rfl⟩
  cases h with
  | skipped h => exact hkept (by simp [Site.isLoose, h]) (hcomplaints ▸ .skipped h)
  | leaf h => exact hkept (by simp [Site.isLoose, h]) (hcomplaints ▸ .leaf h)
  | opener h hdepth => exact hkept (by simp [Site.isLoose, h]) (hcomplaints ▸ .opener h hdepth)
  | closer h hleave =>
      have hfits := (hopened.leave_ok hleave).1
      exact hkept (by simp [Site.isLoose, h, hfits]) (hcomplaints ▸ .closer h hleave)
  | @dropped d _ h hleave =>
      have hloose : Site.isLoose ⟨span, offset, opened⟩ = true := by
        simp [Site.isLoose, h, hopened.leave_error hleave]
      rw [Site.mended, hloose, congrArg Span.text (hspan.closer d h)]
      refine ⟨.skipped rfl, ?_⟩
      cases d <;> rfl

/-- A run goes over the spans in place of its own with the same nest and without faults. -/
theorem RunAt.mended (h : RunAt source limit offset nest spans last faults)
    (hopened : nest.OpensAt source opened)
    (hspans : ∀ span ∈ spans, span.Delimited ∧ span.complaints = []) :
    Run limit nest (placeAt source offset) (Span.mendedFrom offset opened spans) last [] := by
  induction h generalizing opened with
  | done offset nest => exact .done nest _
  | next first hstands _ ih =>
      obtain ⟨⟨hdelimited, hcomplaints⟩, hrest⟩ := List.forall_mem_cons.1 hspans
      obtain ⟨hfirst, hbehind⟩ := first.mended hopened hdelimited hcomplaints
      have hothers := ih (first.opensAt hopened) hrest
      rw [← hstands.after_placeAt, ← hbehind] at hothers
      exact .next hfirst hothers

/-- The closers of all open groups end them, with the tokens that the end of the source gives. -/
theorem exists_run_closers (limit : Int) (nest : Nest) (position : Position) :
    ∃ closed, Run limit nest position
      ((nest.around.map Frame.delimiter).map fun d => ⟨[d.closing], .closer d, []⟩) closed [] ∧
      closed.around = [] ∧ closed.tokens = nest.tokens := by
  obtain ⟨members, around⟩ := nest
  induction around generalizing members position with
  | nil => exact ⟨_, .done _ _, rfl, rfl⟩
  | cons frame outer ih =>
      have hleave : leave ⟨members, frame :: outer⟩ frame.delimiter =
          .ok ⟨frame.close members, outer⟩ := if_pos rfl
      obtain ⟨closed, hrun, haround, htokens⟩ := ih (position.after [frame.delimiter.closing])
        (frame.close members)
      exact ⟨closed, .next (.closer rfl hleave) hrun, haround, by rw [htokens, tokens_leave hleave]⟩

theorem OpensAt.delimiters_eq (h : nest.OpensAt source opened) :
    nest.around.map Frame.delimiter = opened.map Opener.delimiter := by
  rw [OpensAt] at h
  generalize nest.around = around at h ⊢
  induction h with
  | nil => rfl
  | cons hframe _ ih => rw [List.map_cons, List.map_cons, ih, hframe.1]

/-- Every complaint of a span is reported by a run over it. -/
theorem Run.exists_fault (h : Run limit nest position spans last faults) {complaint : Complaint}
    (hspan : span ∈ spans) (hcomplaint : complaint ∈ span.complaints) :
    ∃ fault ∈ faults, fault.complaint = complaint := by
  induction h with
  | done nest position => cases hspan
  | @next nest next last position first rest complaints faults htakes _ ih =>
      rcases List.mem_cons.1 hspan with rfl | hspan
      · refine ⟨⟨position.line, complaint⟩, List.mem_append_left _ (List.mem_map_of_mem ?_), rfl⟩
        cases htakes with
        | skipped _ | leaf _ | opener _ _ | closer _ _ => exact hcomplaint
        | dropped _ _ => exact List.mem_append_left _ hcomplaint
      · obtain ⟨fault, hfault, heq⟩ := ih hspan
        exact ⟨fault, List.mem_append_right _ hfault, heq⟩

end Run
end Nest

/-- Where all faults are about delimiters without partners, no span gives cause for complaint by
itself. -/
theorem complaints_eq_nil_of_isUnmatched {source : Bytes} {limit : Int} {last : Nest}
    {faults : List Fault} (hrun : Nest.Run limit .empty .start (Span.all source) last faults)
    (hunmatched : ∀ fault ∈ faults, fault.complaint.isUnmatched = true) :
    ∀ span ∈ Span.all source, span.complaints = [] := by
  intro span hspan
  refine List.eq_nil_iff_forall_not_mem.2 ?_
  intro complaint hcomplaint
  obtain ⟨fault, hfault, rfl⟩ := hrun.exists_fault hspan hcomplaint
  have hmatched := (Span.truthful_of_mem_all hspan _ hcomplaint).matched
  rw [hunmatched fault hfault] at hmatched
  cases hmatched

/-- The edited source is read as the same tokens. -/
theorem lex_mended_eq {source : Bytes} {limit : Int} {last : Nest} {faults : List Fault}
    (hrun : Nest.Run limit .empty .start (Span.all source) last faults)
    (hspans : ∀ span ∈ Span.all source, span.complaints = []) :
    lex (mended source) limit = (last.tokens, []) := by
  have hat := hrun.runAt (placeAt_zero source).symm (stands_all source)
  have hopened := hat.opensAt Nest.opensAt_empty
  have hmended := hat.mended Nest.opensAt_empty
    fun span hspan => ⟨Span.delimited_of_mem_all hspan, hspans span hspan⟩
  -- behind the spans of the source, the newline stands for nothing and the closers end all groups
  obtain ⟨closed, hclosers, haround, htokens⟩ := Nest.exists_run_closers limit last
    ((placeAt source 0).after (Span.textOf (Span.mendedFrom 0 [] (Span.all source)))
      |>.after [Byte.newline])
  have hnewline : Nest.Takes limit last
      ((placeAt source 0).after (Span.textOf (Span.mendedFrom 0 [] (Span.all source))))
      (.skip Byte.newline []) last [] := .skipped rfl
  have hwhole := hmended.append (.next hnewline hclosers)
  rw [hopened.delimiters_eq] at hwhole
  have hall := Span.all_mended hspans
  rw [Span.unclosedOpeners] at hall
  rw [← hall] at hwhole
  have hlex := lex_of_run hwhole
  rw [htokens, Nest.unclosed, haround] at hlex
  exact hlex

/-- Where no span gives cause for complaint by itself, the flaws of sites are those of the closers
that end no group, one for each. -/
theorem flatMap_flaws_eq (source : Bytes) {sites : List Site}
    (h : ∀ site ∈ sites, site.span.complaints = []) :
    sites.flatMap (Site.flaws source) = (sites.filter Site.isLoose).flatMap (Site.flaws source) ∧
      (sites.flatMap (Site.flaws source)).length = (sites.filter Site.isLoose).length := by
  induction sites with
  | nil => exact ⟨rfl, rfl⟩
  | cons site sites ih =>
      obtain ⟨hsite, hothers⟩ := List.forall_mem_cons.1 h
      obtain ⟨hflaws, hlength⟩ := ih hothers
      have hown := Site.length_flaws source hsite
      rw [List.filter_cons, List.flatMap_cons, List.length_append, hlength, hown]
      split
      · exact ⟨by rw [List.flatMap_cons, hflaws], Nat.add_comm _ _⟩
      · rename_i hloose
        rw [if_neg hloose] at hown
        exact ⟨by rw [List.length_eq_zero_iff.1 hown, List.nil_append, hflaws], Nat.zero_add _⟩

/-- Delimiters without partners are recovered from by an edit.  Where a source has no other faults,
the source with spaces over the closers that end no group, and with the closers of the open groups
behind it, is read under the same limit without a fault and as the same tokens, their places
included.  There is one fault for each closer that is overwritten, and behind these, innermost first,
one for each opener without a closer, on its line.  So there is no fault exactly if the delimiters
are matched. -/
theorem lex_mended {source : Bytes} {limit : Int}
    (h : ∀ fault ∈ (lex source limit).2, fault.complaint.isUnmatched = true) :
    lex (mended source) limit = ((lex source limit).1, []) ∧
      Token.sameAll (lex (mended source) limit).1 (lex source limit).1 = true ∧
      (lex source limit).2 = ((Span.looseClosers source).flatMap (Site.flaws source) ++
        (Span.unclosedOpeners source).map Opener.unclosed).map (Flaw.fault source) ∧
      (lex source limit).2.length =
        (Span.looseClosers source).length + (Span.unclosedOpeners source).length ∧
      ((lex source limit).2 = [] ↔ Span.Matched (Span.all source)) := by
  have hshallow : ∀ fault ∈ (lex source limit).2, fault.complaint.isTooDeep = false :=
    fun fault hfault => Complaint.isTooDeep_of_isUnmatched (h fault hfault)
  obtain ⟨last, faults, hrun⟩ := exists_run_of_isTooDeep_eq_false hshallow
  have hlex := lex_of_run hrun
  have hspans : ∀ span ∈ Span.all source, span.complaints = [] := by
    refine complaints_eq_nil_of_isUnmatched hrun fun fault hfault => h fault ?_
    rw [hlex]
    exact List.mem_append_left _ hfault
  have hmended : lex (mended source) limit = ((lex source limit).1, []) := by
    rw [lex_mended_eq hrun hspans, hlex]
  have hsites : ∀ site ∈ Span.sites 0 [] (Span.all source), site.span.complaints = [] :=
    fun site hsite => hspans _ (Span.span_mem_of_mem_sites hsite)
  obtain ⟨hloose, hcount⟩ := flatMap_flaws_eq source hsites
  have hfaults := faults_lex_of_run hrun
  have hlength : (lex source limit).2.length =
      (Span.looseClosers source).length + (Span.unclosedOpeners source).length := by
    rw [hfaults, List.length_map, List.length_append, List.length_map, hcount]
    rfl
  refine ⟨hmended, ?_, ?_, hlength, ?_⟩
  · rw [hmended]
    exact (Token.sameAll_iff_bareAll_eq _ _).2 rfl
  · rw [hfaults, hloose]
    rfl
  · rw [Span.matched_all_iff, ← List.length_eq_zero_iff, hlength, Nat.add_eq_zero_iff,
      List.length_eq_zero_iff, List.length_eq_zero_iff]

/-- A bracket that ends nothing, and a brace that is open where the last line is a comment. -/
theorem lex_mended_comment :
    let source := Bytes.ofString "(1.])\x7b'a // )"
    (∀ fault ∈ (lex source 2).2, fault.complaint.isUnmatched = true) ∧
      (lex source 2).2 = [⟨1, .mismatchedCloser .bracket .paren 1⟩, ⟨1, .unclosed .brace⟩] ∧
      mended source = Bytes.ofString "(1. )\x7b'a // )\n\x7d" ∧
      lex (mended source) 2 = ((lex source 2).1, []) := by
  have hunmatched : ∀ fault ∈ (lex (Bytes.ofString "(1.])\x7b'a // )") 2).2,
      fault.complaint.isUnmatched = true := by
    decide +kernel
  exact ⟨hunmatched, by decide +kernel, by decide +kernel, (lex_mended hunmatched).1⟩

end RealtimeApp
