import RealtimeApp.Proofs.FieldReading

/-!
# Where the reading of a listing stops

A listing is a group in braces of entries `key : value` between commas.  It is walked from left
to right: the entries before the stop are accepted by the rules of their keys
(`Listing.Walks`), and the stop says what is wrong with the next one, or which key is missing
behind the last one (`Listing.StopsAt`).  Nothing here speaks about what is made of the values.

A way of reading that treats every key as the listing says (`Listing.Reacts`) fails exactly where
the walk stops, with the error of the stop (`Listing.result_bind_eq_error_iff`).
-/

namespace RealtimeApp

/-! ## Rules without values -/

namespace Rule

variable {α : Type}

/-- The rule without the value that it makes. -/
def void (rule : Rule α) : Rule Unit :=
  ⟨fun tokens => ((rule.run tokens).1.map fun _ => (), (rule.run tokens).2), rule.forward⟩

theorem void_run_eq_ok_iff {rule : Rule α} {tokens rest : List Token} :
    rule.void.run tokens = (.ok (), rest) ↔ ∃ a, rule.run tokens = (.ok a, rest) := by
  show ((rule.run tokens).1.map fun _ => (), (rule.run tokens).2) = _ ↔ _
  rcases rule.run tokens with ⟨e | a, left⟩
  · simp [Except.map]
  · simp [Except.map]

theorem void_value_eq_error_iff {rule : Rule α} {tokens : List Token} {e : ParseError} :
    rule.void.value tokens = .error e ↔ rule.value tokens = .error e := by
  show (rule.run tokens).1.map (fun _ => ()) = _ ↔ (rule.run tokens).1 = _
  cases (rule.run tokens).1 with
  | error e' => simp [Except.map]
  | ok a => simp [Except.map]

variable {β : Type}

/-- The error of a value stands under the note. -/
theorem value_within_bind_of_error {rule : Rule α} {tokens : List Token} {e : ParseError}
    (h : rule.void.value tokens = .error e) (note : Note) (set : α → β) :
    (rule.within note >>= fun value => Pure.pure (set value)).value tokens =
      .error (e.within note) := by
  have hvalue := void_value_eq_error_iff.1 h
  rcases hrun : rule.run tokens with ⟨result, rest⟩
  rw [value, hrun] at hvalue
  obtain rfl : result = .error e := hvalue
  rw [value, run_bind, run_within, hrun]
  rfl

/-- An accepted value leaves no note. -/
theorem exists_run_within_bind {rule : Rule α} {tokens rest : List Token}
    (h : rule.void.run tokens = (.ok (), rest)) (note : Note) (set : α → β) :
    ∃ value, (rule.within note >>= fun value => Pure.pure (set value)).run tokens =
      (.ok (set value), rest) := by
  obtain ⟨value, hvalue⟩ := void_run_eq_ok_iff.1 h
  refine ⟨value, ?_⟩
  rw [run_bind, run_within, hvalue]
  rfl

end Rule

/-! ## Groups -/

/-- What goes wrong with a group of this shape: there is no group, or one of another shape, or
something goes wrong with the members. -/
inductive FailsInGroup (d : Delimiter) (Inside : List Token → ParseError → Prop) :
    List Token → ParseError → Prop
  | noGroup {tokens : List Token} :
      (∀ d' position members, tokens.head? ≠ some (.group d' position members)) →
      FailsInGroup d Inside tokens (.ofCause (.wantedGroup d tokens.head?))
  | otherGroup {d' : Delimiter} {position : Position} {members rest : List Token} :
      d' ≠ d → FailsInGroup d Inside (.group d' position members :: rest)
        (.ofCause (.wantedDelimiter d (.group d' position members)))
  | inside {position : Position} {members rest : List Token} {e : ParseError} :
      Inside members e → FailsInGroup d Inside (.group d position members :: rest) e

/-- A group is refused as its members are. -/
theorem Rule.value_delimited_eq_error_iff {α : Type} {d : Delimiter}
    {body : List Token → Except ParseError α} {Inside : List Token → ParseError → Prop}
    (hbody : ∀ members e, body members = .error e ↔ Inside members e) {tokens : List Token}
    {e : ParseError} :
    (delimited d body).value tokens = .error e ↔ FailsInGroup d Inside tokens e := by
  show readGroup d body tokens.head? = .error e ↔ _
  constructor
  · intro h
    rcases tokens with _ | ⟨_ | ⟨d', position, members⟩, rest⟩
    · cases h
      exact .noGroup (by simp)
    · cases h
      exact .noGroup (by simp)
    · rw [List.head?_cons, readGroup] at h
      by_cases hd : d' = d
      · subst hd
        rw [if_pos rfl, hbody] at h
        exact .inside h
      · rw [if_neg hd] at h
        cases h
        exact .otherGroup hd
  · intro h
    cases h with
    | noGroup hnone =>
        unfold readGroup
        split
        · rename_i hsome
          exact absurd hsome (hnone _ _ _)
        · rfl
    | otherGroup hd => exact if_neg hd
    | inside hinside =>
        rw [List.head?_cons, readGroup, if_pos rfl]
        exact (hbody _ _).2 hinside

/-! ## Listings -/

/-- What a listing allows for. -/
structure Listing where
  /-- The rule for the value under a key, if the key is known. -/
  rule? : Bytes → Option (Rule Unit)
  /-- What notes the construct under a key. -/
  note : Bytes → Note
  /-- What is wrong with a key that was listed before. -/
  duplicate : Bytes → Cause
  /-- The keys that must be listed, in the order in which they are asked for. -/
  required : List Bytes

namespace Listing

/-- The next entry has a known key that is new, and its value begins behind the colon. -/
structure Opens (listing : Listing) (seen : List Bytes) (tokens : List Token) (key : Bytes)
    (rule : Rule Unit) (behind : List Token) : Prop where
  named : ∃ l colon, tokens = .leaf l :: colon :: behind ∧ l.kind = .ident ∧ l.lexeme = key ∧
    colon.isLeaf .colon = true
  new : key ∉ seen
  known : listing.rule? key = some rule

/-- The next entry begins behind a comma, and nothing begins at the end. -/
inductive Separated : List Token → List Token → Prop
  | atEnd : Separated [] []
  | atComma {comma : Token} {rest : List Token} :
      comma.isLeaf .comma = true → Separated (comma :: rest) rest

/-- Entries with these keys, each accepted by the rule of its key, lead from the front of the
tokens to what is left. -/
inductive Walks (listing : Listing) (tokens : List Token) : List Bytes → List Token → Prop
  | start : Walks listing tokens [] tokens
  | entry {seen : List Bytes} {left behind rest next : List Token} {key : Bytes}
      {rule : Rule Unit} :
      Walks listing tokens seen left → listing.Opens seen left key rule behind →
      rule.run behind = (.ok (), rest) → Separated rest next →
      Walks listing tokens (seen ++ [key]) next

/-- What is wrong with the next entry when these keys were listed before, or at the end. -/
inductive StopsAt (listing : Listing) (seen : List Bytes) : List Token → ParseError → Prop
  | missing {name : Bytes} :
      listing.required.find? (· ∉ seen) = some name →
      StopsAt listing seen [] (.ofCause (.missingField name))
  | noName {first : Token} {rest : List Token} :
      first.ident? = none →
      StopsAt listing seen (first :: rest) (.ofCause (.wanted .ident (some first)))
  | noColon {l : Leaf} {rest : List Token} :
      l.kind = .ident → (∀ t ∈ rest.head?, t.isLeaf .colon = false) →
      StopsAt listing seen (.leaf l :: rest) (.ofCause (.wanted .colon rest.head?))
  | unknown {l : Leaf} {colon : Token} {behind : List Token} :
      l.kind = .ident → colon.isLeaf .colon = true → listing.rule? l.lexeme = none →
      StopsAt listing seen (.leaf l :: colon :: behind) (.ofCause (.unknownField l.lexeme))
  | duplicate {l : Leaf} {colon : Token} {behind : List Token} :
      l.kind = .ident → colon.isLeaf .colon = true → (listing.rule? l.lexeme).isSome = true →
      l.lexeme ∈ seen →
      StopsAt listing seen (.leaf l :: colon :: behind) (.ofCause (listing.duplicate l.lexeme))
  -- the only stop with notes: the value's own error, under the note of its key
  | value {tokens behind : List Token} {key : Bytes} {rule : Rule Unit} {e : ParseError} :
      listing.Opens seen tokens key rule behind → rule.value behind = .error e →
      StopsAt listing seen tokens (e.within (listing.note key))
  | noComma {tokens behind rest : List Token} {key : Bytes} {rule : Rule Unit} {extra : Token} :
      listing.Opens seen tokens key rule behind → rule.run behind = (.ok (), extra :: rest) →
      extra.isLeaf .comma = false →
      StopsAt listing seen tokens (.ofCause (.wanted .comma (some extra)))

/-- The first thing that is wrong with the members of a listing. -/
def Fails (listing : Listing) (members : List Token) (e : ParseError) : Prop :=
  ∃ seen left, listing.Walks members seen left ∧ listing.StopsAt seen left e

/-- A rule treats a key as the listing says; `Filled` are the states behind the listed keys. -/
structure Reacts {σ : Type} (listing : Listing) (Filled : List Bytes → σ → Prop)
    (seen : List Bytes) (key : Bytes) (visited : Rule σ) : Prop where
  unknown : listing.rule? key = none →
    ∀ tokens, visited.value tokens = .error (.ofCause (.unknownField key))
  duplicate : (listing.rule? key).isSome = true → key ∈ seen →
    ∀ tokens, visited.value tokens = .error (.ofCause (listing.duplicate key))
  refused : ∀ {rule tokens e}, listing.rule? key = some rule → key ∉ seen →
    rule.value tokens = .error e → visited.value tokens = .error (e.within (listing.note key))
  accepted : ∀ {rule tokens rest}, listing.rule? key = some rule → key ∉ seen →
    rule.run tokens = (.ok (), rest) →
    ∃ next, visited.run tokens = (.ok next, rest) ∧ Filled (seen ++ [key]) next

/-- Values are read in states behind the listed keys, and every key is treated as the listing
says. -/
def Visits {σ : Type} (listing : Listing) (visit : Leaf → σ → Rule σ)
    (Filled : List Bytes → σ → Prop) : Prop :=
  ∀ l seen state, Filled seen state → listing.Reacts Filled seen l.lexeme (visit l state)

section Reacts

variable {σ : Type} {listing : Listing} {Filled : List Bytes → σ → Prop} {seen : List Bytes}
  {l : Leaf} {colon : Token} {visited : Rule σ} {behind : List Token}

/-- What an error behind a key and its colon says about the entry. -/
theorem Reacts.stopsAt (h : listing.Reacts Filled seen l.lexeme visited) (hname : l.kind = .ident)
    (hcolon : colon.isLeaf .colon = true) {e : ParseError} (he : visited.value behind = .error e) :
    listing.StopsAt seen (.leaf l :: colon :: behind) e := by
  cases hrule : listing.rule? l.lexeme with
  | none =>
      rw [h.unknown hrule] at he
      cases he
      exact .unknown hname hcolon hrule
  | some rule =>
      by_cases hseen : l.lexeme ∈ seen
      · have hknown : (listing.rule? l.lexeme).isSome = true := by rw [hrule]; rfl
        rw [h.duplicate hknown hseen] at he
        cases he
        exact .duplicate hname hcolon hknown hseen
      · have hopens : listing.Opens seen (.leaf l :: colon :: behind) l.lexeme rule behind :=
          ⟨⟨l, colon, rfl, hname, rfl, hcolon⟩, hseen, hrule⟩
        rcases hrun : rule.run behind with ⟨e' | ⟨⟩, rest⟩
        · have hvalue : rule.value behind = .error e' := congrArg Prod.fst hrun
          rw [h.refused hrule hseen hvalue] at he
          cases he
          exact .value hopens hvalue
        · obtain ⟨next, hnext, -⟩ := h.accepted hrule hseen hrun
          rw [Rule.value, hnext] at he
          cases he

/-- What a state behind an entry says about the entry. -/
theorem Reacts.exists_opens (h : listing.Reacts Filled seen l.lexeme visited)
    (hname : l.kind = .ident) (hcolon : colon.isLeaf .colon = true) {next : σ} {rest : List Token}
    (hnext : visited.run behind = (.ok next, rest)) :
    ∃ rule, listing.Opens seen (.leaf l :: colon :: behind) l.lexeme rule behind ∧
      rule.run behind = (.ok (), rest) ∧ Filled (seen ++ [l.lexeme]) next := by
  have hvalue : visited.value behind = .ok next := congrArg Prod.fst hnext
  cases hrule : listing.rule? l.lexeme with
  | none =>
      rw [h.unknown hrule] at hvalue
      cases hvalue
  | some rule =>
      by_cases hseen : l.lexeme ∈ seen
      · rw [h.duplicate (by rw [hrule]; rfl) hseen] at hvalue
        cases hvalue
      · refine ⟨rule, ⟨⟨l, colon, rfl, hname, rfl, hcolon⟩, hseen, hrule⟩, ?_⟩
        rcases hrun : rule.run behind with ⟨e' | ⟨⟩, left⟩
        · rw [h.refused hrule hseen (congrArg Prod.fst hrun)] at hvalue
          cases hvalue
        · obtain ⟨next', hnext', hfilled⟩ := h.accepted hrule hseen hrun
          rw [hnext] at hnext'
          cases hnext'
          exact ⟨rfl, hfilled⟩

end Reacts

section Visits

variable {σ : Type} {listing : Listing} {visit : Leaf → σ → Rule σ}
  {Filled : List Bytes → σ → Prop}

/-- Reading behind a key and its colon, when the value is refused. -/
theorem result_read_of_error {l : Leaf} {colon : Token} {state : σ} {behind : List Token}
    {e : ParseError} (hname : l.kind = .ident) (hcolon : colon.isLeaf .colon = true)
    (h : (visit l state).value behind = .error e) :
    (Fields.read (.ofRules visit) state (.leaf l :: colon :: behind)).result = .error e := by
  rw [Fields.read_ofRules_of_error hname hcolon h]
  rfl

/-- Reading goes on behind an accepted entry and its comma, in the state behind its key. -/
theorem read_of_walks
    (hvisit : listing.Visits visit Filled) {start : σ} (hstart : Filled [] start)
    {tokens left : List Token} {seen : List Bytes}
    (h : listing.Walks tokens seen left) :
    ∃ state, Filled seen state ∧
      (Fields.read (.ofRules visit) start tokens).result =
        (Fields.read (.ofRules visit) state left).result := by
  induction h with
  | start => exact ⟨start, hstart, rfl⟩
  | entry _ hopens hrun hseparated ih =>
      obtain ⟨state, hfilled, hread⟩ := ih
      obtain ⟨l, colon, rfl, hname, rfl, hcolon⟩ := hopens.named
      obtain ⟨next, hnext, hfilled'⟩ :=
        (hvisit l _ state hfilled).accepted hopens.known hopens.new hrun
      refine ⟨next, hfilled', ?_⟩
      rw [hread, Fields.read_ofRules_field hname hcolon, hnext]
      cases hseparated with
      | atEnd => rw [Fields.read_nil]
      | atComma hcomma => simp only [if_pos hcomma]

/-- Reading fails with the error of the stop. -/
theorem result_read_of_stopsAt
    (hvisit : listing.Visits visit Filled) {state : σ} {seen : List Bytes}
    (hfilled : Filled seen state) {left : List Token} {e : ParseError}
    (h : listing.StopsAt seen left e) (hne : left ≠ []) :
    (Fields.read (.ofRules visit) state left).result = .error e := by
  cases h with
  | missing => exact absurd rfl hne
  | noName hident =>
      rw [Fields.read_of_ident?_eq_none hident]
      rfl
  | noColon hname hcolon =>
      rw [Fields.read_of_no_colon hname hcolon]
      rfl
  | @unknown l colon behind hname hcolon hunknown =>
      exact result_read_of_error hname hcolon
        ((hvisit l seen state hfilled).unknown hunknown behind)
  | @duplicate l colon behind hname hcolon hknown hseen =>
      exact result_read_of_error hname hcolon
        ((hvisit l seen state hfilled).duplicate hknown hseen behind)
  | value hopens herror =>
      obtain ⟨l, colon, rfl, hname, rfl, hcolon⟩ := hopens.named
      exact result_read_of_error hname hcolon
        ((hvisit l seen state hfilled).refused hopens.known hopens.new herror)
  | noComma hopens hrun hextra =>
      obtain ⟨l, colon, rfl, hname, rfl, hcolon⟩ := hopens.named
      obtain ⟨next, hnext, -⟩ :=
        (hvisit l seen state hfilled).accepted hopens.known hopens.new hrun
      rw [Fields.read_ofRules_field hname hcolon, hnext]
      simp only [hextra, Bool.false_eq_true, if_false]
      rfl

/-- What a handler that refuses a value says about the entry. -/
theorem Visits.stopsAt (hvisit : listing.Visits visit Filled) {seen : List Bytes}
    {state next : σ} (hfilled : Filled seen state) {l : Leaf} {colon : Token}
    {behind rest : List Token} {e : ParseError} (hname : l.kind = .ident)
    (hcolon : colon.isLeaf .colon = true)
    (h : (Fields.Handler.ofRules visit).handle l state behind = ⟨.error e, next, rest⟩) :
    listing.StopsAt seen (.leaf l :: colon :: behind) e := by
  obtain ⟨-, hread⟩ := Fields.Handler.handle_ofRules_eq_error_iff.1 h
  exact (hvisit l seen state hfilled).stopsAt hname hcolon (congrArg Prod.fst hread)

/-- What a handler that takes a value says about the entry. -/
theorem Visits.exists_opens (hvisit : listing.Visits visit Filled) {seen : List Bytes}
    {state next : σ} (hfilled : Filled seen state) {l : Leaf} {colon : Token}
    {behind rest : List Token} (hname : l.kind = .ident) (hcolon : colon.isLeaf .colon = true)
    (h : (Fields.Handler.ofRules visit).handle l state behind = ⟨.ok (), next, rest⟩) :
    ∃ rule, listing.Opens seen (.leaf l :: colon :: behind) l.lexeme rule behind ∧
      rule.run behind = (.ok (), rest) ∧ Filled (seen ++ [l.lexeme]) next :=
  (hvisit l seen state hfilled).exists_opens hname hcolon
    (Fields.Handler.handle_ofRules_eq_ok_iff.1 h)

/-- Reading comes to the end of a walk, or fails where a walk stops. -/
theorem walks_of_read
    (hvisit : listing.Visits visit Filled) {all : List Token} (state : σ) (tokens : List Token) :
    ∀ {seen}, Filled seen state → listing.Walks all seen tokens →
      (∃ seen' final, (Fields.read (.ofRules visit) state tokens).result = .ok final ∧
        Filled seen' final ∧ listing.Walks all seen' []) ∨
      ∃ e, (Fields.read (.ofRules visit) state tokens).result = .error e ∧
        listing.Fails all e := by
  -- the walk to the tokens that are left is carried along; the state is one behind its keys
  fun_induction Fields.read (.ofRules visit) state tokens with
  | case1 state =>
      intro seen hfilled hwalks
      exact .inl ⟨seen, state, rfl, hfilled, hwalks⟩
  | case2 state first afterKey hident =>
      intro seen _ hwalks
      exact .inr ⟨_, rfl, seen, _, hwalks, .noName hident⟩
  | case3 state first l hident =>
      intro seen _ hwalks
      obtain ⟨rfl, hname⟩ := Token.ident?_eq_some.1 hident
      exact .inr ⟨_, rfl, seen, _, hwalks, .noColon hname (by simp)⟩
  | case8 state first l hident second tokens hcolon =>
      intro seen _ hwalks
      obtain ⟨rfl, hname⟩ := Token.ident?_eq_some.1 hident
      exact .inr ⟨_, rfl, seen, _, hwalks, .noColon hname (by simpa using hcolon)⟩
  | case4 state first l hident second tokens hcolon error next rest hhandle =>
      intro seen hfilled hwalks
      obtain ⟨rfl, hname⟩ := Token.ident?_eq_some.1 hident
      have hstop := hvisit.stopsAt hfilled hname hcolon hhandle
      exact .inr ⟨_, rfl, seen, _, hwalks, hstop⟩
  | case5 state first l hident second tokens hcolon next hhandle =>
      intro seen hfilled hwalks
      obtain ⟨rfl, hname⟩ := Token.ident?_eq_some.1 hident
      obtain ⟨rule, hopens, hrun, hnext⟩ := hvisit.exists_opens hfilled hname hcolon hhandle
      exact .inl ⟨_, next, rfl, hnext, .entry hwalks hopens hrun .atEnd⟩
  | case6 state first l hident second tokens hcolon next separator rest hhandle hcomma ih =>
      intro seen hfilled hwalks
      obtain ⟨rfl, hname⟩ := Token.ident?_eq_some.1 hident
      obtain ⟨rule, hopens, hrun, hnext⟩ := hvisit.exists_opens hfilled hname hcolon hhandle
      exact ih hnext (.entry hwalks hopens hrun (.atComma hcomma))
  | case7 state first l hident second tokens hcolon next separator rest hhandle hcomma =>
      intro seen hfilled hwalks
      obtain ⟨rfl, hname⟩ := Token.ident?_eq_some.1 hident
      obtain ⟨rule, hopens, hrun, -⟩ := hvisit.exists_opens hfilled hname hcolon hhandle
      exact .inr ⟨_, rfl, seen, _, hwalks, .noComma hopens hrun (by simpa using hcomma)⟩

/-- A listing is read to its end, and its required keys are found, or it fails where the walk
stops. -/
theorem result_bind_eq_error_iff
    (hvisit : listing.Visits visit Filled) {start : σ} (hstart : Filled [] start)
    {α : Type} {finish : σ → Except ParseError α}
    (hfinish : ∀ seen state, Filled seen state → ∀ e, finish state = .error e ↔
      listing.StopsAt seen [] e)
    {members : List Token} {e : ParseError} :
    (Fields.read (.ofRules visit) start members).result >>= finish = .error e ↔
      listing.Fails members e := by
  constructor
  · intro h
    rcases walks_of_read hvisit start members hstart .start with
      ⟨seen, final, hread, hfilled, hwalks⟩ | ⟨e', hread, hfails⟩
    · rw [hread] at h
      exact ⟨seen, [], hwalks, (hfinish seen final hfilled e).1 h⟩
    · rw [hread] at h
      cases h
      exact hfails
  · rintro ⟨seen, left, hwalks, hstop⟩
    obtain ⟨state, hfilled, hread⟩ := read_of_walks hvisit hstart hwalks
    rw [hread]
    by_cases hleft : left = []
    · subst hleft
      rw [Fields.read_nil]
      exact (hfinish seen state hfilled e).2 hstop
    · rw [result_read_of_stopsAt hvisit hfilled hstop hleft]
      rfl

end Visits

end Listing

end RealtimeApp
