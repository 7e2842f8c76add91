import RealtimeApp.Proofs.OpenGroups

/-!
# Sites

Every span of a source stands at an offset, and behind openers that are not closed there
(`Span.sites`).  That is all it takes to say what a run complains about: the flaws of its sites,
each on the line that its construct begins on (`Nest.RunAt.faults_eq`), whatever was dropped before.
-/

namespace RealtimeApp

/-- A construct that is complained about, and the offset that it stands at. -/
structure Flaw where
  offset : Nat
  text : Bytes
  complaint : Complaint
  deriving DecidableEq, Repr

namespace Flaw

/-- The fault that is reported for a flaw, on the line of the first byte of its construct. -/
def fault (source : Bytes) (flaw : Flaw) : Fault :=
  ⟨(placeAt source flaw.offset).line, flaw.complaint⟩

/-- The construct stands in the source, and it is one that the complaint can be about. -/
structure Genuine (source : Bytes) (flaw : Flaw) : Prop where
  stands : Stands source flaw.offset flaw.text
  about : flaw.complaint.IsAbout flaw.text

end Flaw

namespace Opener

/-- The flaw of an opener without a closer. -/
def unclosed (opener : Opener) : Flaw :=
  ⟨opener.offset, [opener.delimiter.opening], .unclosed opener.delimiter⟩

/-- What is wrong with a closer where these groups are open, innermost first. -/
def misfit (source : Bytes) (closer : Delimiter) : List Opener → List Complaint
  | [] => [.strayCloser closer]
  | opener :: _ =>
    if opener.delimiter = closer then []
    else [.mismatchedCloser closer opener.delimiter (placeAt source opener.offset).line]

/-- A closer is complained about once if it does not fit. -/
theorem length_misfit (source : Bytes) (closer : Delimiter) (opened : List Opener) :
    (misfit source closer opened).length = if Span.fits opened closer then 0 else 1 := by
  cases opened with
  | nil => rfl
  | cons opener outer => by_cases h : opener.delimiter = closer <;> simp [misfit, Span.fits, h]

theorem isAbout_of_mem_misfit {source : Bytes} {closer : Delimiter} {opened : List Opener}
    {complaint : Complaint} (h : complaint ∈ misfit source closer opened) :
    complaint.IsAbout [closer.closing] := by
  cases opened with
  | nil =>
      obtain rfl := List.mem_singleton.1 h
      rfl
  | cons opener outer =>
      by_cases hcloser : opener.delimiter = closer
      · simp [misfit, hcloser] at h
      · simp only [misfit, if_neg hcloser] at h
        obtain rfl := List.mem_singleton.1 h
        rfl

end Opener

/-- A span, the offset that it stands at, and the groups that are open in front of it, innermost
first. -/
structure Site where
  span : Span
  offset : Nat
  opened : List Opener
  deriving DecidableEq, Repr

namespace Site

/-- A closer that ends no group. -/
def isLoose (site : Site) : Bool :=
  match site.span.content with
  | .closer d => !Span.fits site.opened d
  | .opener _ | .leaf .. | .skipped => false

/-- What there is to complain about at a site. -/
def complaints (source : Bytes) (site : Site) : List Complaint :=
  site.span.complaints ++
    match site.span.content with
    | .closer d => Opener.misfit source d site.opened
    | .opener _ | .leaf .. | .skipped => []

/-- The flaws of the construct at a site. -/
def flaws (source : Bytes) (site : Site) : List Flaw :=
  (site.complaints source).map fun complaint => ⟨site.offset, site.span.text, complaint⟩

/-- Where a span gives no cause for complaint by itself, only a closer that ends no group is
complained about, once. -/
theorem length_flaws (source : Bytes) {site : Site} (h : site.span.complaints = []) :
    (site.flaws source).length = if site.isLoose then 1 else 0 := by
  rw [flaws, List.length_map, complaints, h, List.nil_append, isLoose]
  cases site.span.content with
  | closer d =>
      cases hfits : Span.fits site.opened d with
      | true => simp [Opener.length_misfit, hfits]
      | false => simp [Opener.length_misfit, hfits]
  | skipped | leaf _ _ _ | opener _ => rfl

end Site

namespace Span

/-- The sites of spans from an offset on, where these groups are open. -/
def sites (offset : Nat) (opened : List Opener) : List Span → List Site
  | [] => []
  | span :: rest =>
    ⟨span, offset, opened⟩ :: sites (offset + span.text.length) (span.openBy offset opened) rest

@[simp] theorem sites_nil (offset : Nat) (opened : List Opener) : sites offset opened [] = [] := rfl

@[simp] theorem sites_cons (offset : Nat) (opened : List Opener) (span : Span)
    (rest : List Span) :
    sites offset opened (span :: rest) =
      ⟨span, offset, opened⟩ ::
        sites (offset + span.text.length) (span.openBy offset opened) rest := rfl

theorem sites_append (offset : Nat) (opened : List Opener) (before after : List Span) :
    sites offset opened (before ++ after) = sites offset opened before ++
      sites (offset + (textOf before).length) (openBehind offset opened before) after := by
  induction before generalizing offset opened with
  | nil => rfl
  | cons span before ih =>
      rw [List.cons_append, sites_cons, sites_cons, ih, textOf_cons, List.length_append,
        Nat.add_assoc, List.cons_append, openBehind]

section Sites

variable {source : Bytes} {offset : Nat} {opened : List Opener} {spans : List Span} {site : Site}

theorem span_mem_of_mem_sites (h : site ∈ sites offset opened spans) : site.span ∈ spans := by
  induction spans generalizing offset opened with
  | nil => cases h
  | cons span rest ih =>
      rcases List.mem_cons.1 h with rfl | h
      · exact List.mem_cons_self
      · exact List.mem_cons_of_mem _ (ih h)

theorem le_offset_of_mem_sites (h : site ∈ sites offset opened spans) : offset ≤ site.offset := by
  induction spans generalizing offset opened with
  | nil => cases h
  | cons span rest ih =>
      rcases List.mem_cons.1 h with rfl | h
      · exact Nat.le_refl _
      · exact Nat.le_trans (Nat.le_add_right _ _) (ih h)

/-- No two spans share a byte, and they come in the order of the source. -/
theorem pairwise_sites (offset : Nat) (opened : List Opener) (spans : List Span) :
    (sites offset opened spans).Pairwise fun first second =>
      first.offset + first.span.text.length ≤ second.offset := by
  induction spans generalizing offset opened with
  | nil => exact .nil
  | cons span rest ih =>
      rw [sites_cons, List.pairwise_cons]
      exact ⟨fun _ => le_offset_of_mem_sites, ih _ _⟩

/-- Spans that stand behind one another in a source stand there one by one. -/
theorem stands_of_mem_sites (hstands : Stands source offset (textOf spans))
    (h : site ∈ sites offset opened spans) : Stands source site.offset site.span.text := by
  induction spans generalizing offset opened with
  | nil => cases h
  | cons span rest ih =>
      rw [textOf_cons] at hstands
      rcases List.mem_cons.1 h with rfl | h
      · exact hstands.left
      · exact ih hstands.right h

/-- The groups that are open behind spans were opened among them, or were open before. -/
theorem mem_openBehind {opener : Opener} (h : opener ∈ openBehind offset opened spans) :
    opener ∈ opened ∨ ∃ site ∈ sites offset opened spans,
      site.offset = opener.offset ∧ site.span.content = .opener opener.delimiter := by
  induction spans generalizing offset opened with
  | nil => exact .inl h
  | cons span rest ih =>
      rcases ih h with hopened | ⟨site, hsite, hopener⟩
      · rw [openBy] at hopened
        split at hopened
        · rename_i d hcontent
          rcases List.mem_cons.1 hopened with rfl | hopened
          · exact .inr ⟨_, List.mem_cons_self, rfl, hcontent⟩
          · exact .inl hopened
        · split at hopened
          · exact .inl (List.mem_of_mem_tail hopened)
          · exact .inl hopened
        · exact .inl hopened
        · exact .inl hopened
      · exact .inr ⟨site, List.mem_cons_of_mem _ hsite, hopener⟩

end Sites
end Span

/-! ## Flaws of a source -/

section Genuine

variable {source rest : Bytes} {offset : Nat} {opened : List Opener} {spans : List Span}

/-- The flaws of the sites of a source are about what stands there. -/
theorem genuine_of_mem_flaws (hspans : spans ⊆ Span.all rest)
    (hstands : Stands source offset (Span.textOf spans)) :
    ∀ flaw ∈ (Span.sites offset opened spans).flatMap (Site.flaws source),
      flaw.Genuine source := by
  intro flaw hflaw
  obtain ⟨site, hsite, hflaw⟩ := List.mem_flatMap.1 hflaw
  obtain ⟨complaint, hcomplaint, rfl⟩ := List.mem_map.1 hflaw
  have hspan := hspans (Span.span_mem_of_mem_sites hsite)
  refine ⟨Span.stands_of_mem_sites hstands hsite, ?_⟩
  rcases List.mem_append.1 hcomplaint with hcomplaint | hcomplaint
  · exact (Span.truthful_of_mem_all hspan complaint hcomplaint).about
  · split at hcomplaint
    · rename_i d hcontent
      rw [congrArg Span.text ((Span.delimited_of_mem_all hspan).closer d hcontent)]
      exact Opener.isAbout_of_mem_misfit hcomplaint
    all_goals cases hcomplaint

/-- The flaws of the openers that are open behind spans are about those openers. -/
theorem genuine_unclosed (hspans : spans ⊆ Span.all rest)
    (hstands : Stands source offset (Span.textOf spans)) :
    ∀ flaw ∈ (Span.openBehind offset [] spans).map Opener.unclosed, flaw.Genuine source := by
  intro flaw hflaw
  obtain ⟨opener, hopener, rfl⟩ := List.mem_map.1 hflaw
  rcases Span.mem_openBehind hopener with hnone | ⟨site, hsite, hoffset, hcontent⟩
  · cases hnone
  · have hspan := Span.delimited_of_mem_all (hspans (Span.span_mem_of_mem_sites hsite))
    have hsite := Span.stands_of_mem_sites hstands hsite
    rw [hoffset, hspan.opener _ hcontent] at hsite
    exact ⟨hsite, rfl⟩

end Genuine

namespace Nest

section Faults

variable {source : Bytes} {limit : Int} {nest next last : Nest} {span : Span} {spans : List Span}
  {opened : List Opener} {offset : Nat} {complaints : List Complaint} {faults : List Fault}

theorem OpensAt.misfit_eq_nil {d : Delimiter} {outer : Nest} (h : nest.OpensAt source opened)
    (hleave : nest.leave d = .ok outer) : Opener.misfit source d opened = [] := by
  rw [← List.length_eq_zero_iff, Opener.length_misfit, (h.leave_ok hleave).1, if_pos rfl]

theorem OpensAt.misfit_eq {d : Delimiter} {complaint : Complaint} (h : nest.OpensAt source opened)
    (hleave : nest.leave d = .error complaint) : Opener.misfit source d opened = [complaint] := by
  obtain ⟨members, around⟩ := nest
  cases h with
  | nil =>
      cases hleave
      rfl
  | @cons frame opener outer _ hframe _ =>
      by_cases hcloser : frame.delimiter = d
      · simp [leave, hcloser] at hleave
      · simp only [leave, if_neg hcloser, Except.error.injEq] at hleave
        rw [Opener.misfit, ← hframe.1, ← hframe.2, if_neg hcloser, hleave]

/-- A span is complained about as its site says. -/
theorem Takes.complaints_eq (h : Takes limit nest (placeAt source offset) span next complaints)
    (hopened : nest.OpensAt source opened) :
    complaints = Site.complaints source ⟨span, offset, opened⟩ := by
  cases h with
  | skipped h | leaf h | opener h _ => simp [Site.complaints, h]
  | closer h hleave => simp [Site.complaints, h, hopened.misfit_eq_nil hleave]
  | dropped h hleave => simp [Site.complaints, h, hopened.misfit_eq hleave]

/-- The faults of a run are the flaws of its sites. -/
theorem RunAt.faults_eq (h : RunAt source limit offset nest spans last faults)
    (hopened : nest.OpensAt source opened) :
    faults =
      ((Span.sites offset opened spans).flatMap (Site.flaws source)).map (Flaw.fault source) := by
  induction h generalizing opened with
  | done offset nest => rfl
  | next first _ _ ih =>
      rw [Span.sites_cons, List.flatMap_cons, List.map_append, ← ih (first.opensAt hopened),
        first.complaints_eq hopened, Site.flaws, List.map_map]
      rfl

/-- The faults of the groups that a nest leaves open. -/
theorem OpensAt.unclosed_eq (h : nest.OpensAt source opened) :
    nest.unclosed = (opened.map Opener.unclosed).map (Flaw.fault source) := by
  rw [OpensAt] at h
  rw [unclosed]
  generalize nest.around = around at h ⊢
  induction h with
  | nil => rfl
  | cons hframe _ ih =>
      rw [List.map_cons, List.map_cons, List.map_cons, ih, Frame.unclosed, hframe.1, hframe.2]
      rfl

end Faults
end Nest

/-- The faults of a source whose spans are all taken. -/
theorem faults_lex_of_run {source : Bytes} {limit : Int} {last : Nest} {faults : List Fault}
    (hrun : Nest.Run limit .empty .start (Span.all source) last faults) :
    (lex source limit).2 =
      ((Span.sites 0 [] (Span.all source)).flatMap (Site.flaws source) ++
        (Span.openBehind 0 [] (Span.all source)).map Opener.unclosed).map (Flaw.fault source) := by
  have hat := hrun.runAt (placeAt_zero source).symm (stands_all source)
  have hopened := hat.opensAt Nest.opensAt_empty
  rw [lex_of_run hrun, List.map_append, ← hat.faults_eq Nest.opensAt_empty, ← hopened.unclosed_eq]

end RealtimeApp
