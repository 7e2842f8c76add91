import RealtimeApp.Proofs.ExportReading
import RealtimeApp.Proofs.Places
import RealtimeApp.Proofs.Relexing
import RealtimeApp.Proofs.SessionSteps

/-!
# Sameness is enough for the grammar

Sameness of tokens looks at kinds and lexemes, the grammar at decoded values and suffixes too.
For tokens of a lexer this is no difference: a leaf is decoded from its lexeme alone, whatever
stands around it (`Span.eq_of_text_eq`), so that tokens that are the same differ in their places
only (`Token.unplaced_eq_of_same`).  And places only show where a message ends with one
(`ParseError.chain_alike`).
-/

namespace RealtimeApp

/-! ## Leaves are decoded from their lexemes -/

/-- Spans that stand alone are known by their texts. -/
theorem Span.eq_of_text_eq {first second : Span} (hfirst : first.StandsAlone)
    (hsecond : second.StandsAlone) (htext : first.text = second.text) : first = second := by
  have hall := hfirst [] bounded_nil
  rw [htext, hsecond [] bounded_nil] at hall
  exact (List.cons.inj hall).1.symm

namespace Token

/-- The tokens that a lexer reads come from spans that stand alone. -/
theorem fromSpans_standsAlone (lexer : Lexer) :
    ∀ t ∈ lexer.tokenize.1, t.FromSpans Span.StandsAlone := by
  intro t ht l hl
  obtain ⟨span, ⟨hspan, hleaf⟩, htext, hcontent⟩ := fromSpans_tokenize lexer t ht l hl
  exact ⟨span, Span.standsAlone_of_mem_all hspan hleaf, htext, hcontent⟩

theorem decoded_eq_of_same {l m : Leaf} (hl : (leaf l).FromSpans Span.StandsAlone)
    (hm : (leaf m).FromSpans Span.StandsAlone) (hsame : same (leaf l) (leaf m) = true) :
    l.literal = m.literal ∧ l.suffix = m.suffix := by
  obtain ⟨span, halone, htext, hcontent⟩ := hl l List.mem_cons_self
  obtain ⟨span', halone', htext', hcontent'⟩ := hm m List.mem_cons_self
  rw [same, Bool.and_eq_true, beq_iff_eq, beq_iff_eq] at hsame
  have hspan := Span.eq_of_text_eq halone halone' (by rw [htext, htext', hsame.2])
  rw [hspan, hcontent', Content.leaf.injEq] at hcontent
  exact ⟨hcontent.2.1.symm, hcontent.2.2.symm⟩

theorem map_unplaced_eq_of_forall {ts : List Token}
    (h : ∀ t ∈ ts, ∀ u, u.FromSpans Span.StandsAlone → same t u = true → t.unplaced = u.unplaced)
    {us : List Token} (hus : ∀ u ∈ us, u.FromSpans Span.StandsAlone)
    (hsame : sameAll ts us = true) : ts.map unplaced = us.map unplaced := by
  induction ts generalizing us with
  | nil =>
      cases us with
      | nil => rfl
      | cons u us => simp [sameAll] at hsame
  | cons t ts ih =>
      cases us with
      | nil => simp [sameAll] at hsame
      | cons u us =>
          rw [sameAll, Bool.and_eq_true] at hsame
          have hfirst := h t List.mem_cons_self u (hus u List.mem_cons_self) hsame.1
          have hrest := ih (fun s hs => h s (List.mem_cons_of_mem t hs))
            (fun v hv => hus v (List.mem_cons_of_mem u hv)) hsame.2
          rw [List.map_cons, List.map_cons, hfirst, hrest]

/-- Tokens whose leaves stand alone and that are the same differ in their places only. -/
theorem unplaced_eq_of_same {t u : Token} (ht : t.FromSpans Span.StandsAlone)
    (hu : u.FromSpans Span.StandsAlone) (hsame : same t u = true) : t.unplaced = u.unplaced := by
  induction t using Token.induction generalizing u with
  | leaf l =>
      cases u with
      | group e position others => simp [same] at hsame
      | leaf m =>
          obtain ⟨hliteral, hsuffix⟩ := decoded_eq_of_same ht hu hsame
          rw [same, Bool.and_eq_true, beq_iff_eq, beq_iff_eq] at hsame
          rw [unplaced, unplaced, hsame.1, hsame.2, hliteral, hsuffix]
  | group d position members ih =>
      cases u with
      | leaf m => simp [same] at hsame
      | group e place others =>
          rw [same, Bool.and_eq_true, beq_iff_eq] at hsame
          have hmembers := map_unplaced_eq_of_forall
            (fun t ht' u hu' hsame => ih t ht' (fromSpans_group.1 ht t ht') hu' hsame)
            (fromSpans_group.1 hu) hsame.2
          rw [unplaced_group, unplaced_group, hsame.1, hmembers]

theorem map_unplaced_eq_of_sameAll {ts us : List Token}
    (hts : ∀ t ∈ ts, t.FromSpans Span.StandsAlone) (hus : ∀ u ∈ us, u.FromSpans Span.StandsAlone)
    (hsame : sameAll ts us = true) : ts.map unplaced = us.map unplaced :=
  map_unplaced_eq_of_forall (fun t ht _ hu hsame => unplaced_eq_of_same (hts t ht) hu hsame) hus
    hsame

end Token

/-! ## Messages -/

/-- Two messages that differ at most in the place that they end with. -/
def AlikeUpToPlace (first second : Bytes) : Prop :=
  ∃ text place other,
    first = text ++ Token.placeText place ∧ second = text ++ Token.placeText other

theorem AlikeUpToPlace.refl (message : Bytes) : AlikeUpToPlace message message :=
  ⟨message, Token.nowhere, Token.nowhere, (List.append_nil _).symm, (List.append_nil _).symm⟩

/-- A description of a token ends with its place. -/
theorem Token.describe_eq (found : Option Token) :
    ∃ place, describe found = describe (found.map unplaced) ++ placeText place := by
  have hnowhere : placeText nowhere = [] := rfl
  rcases found with _ | (l | ⟨d, position, members⟩)
  · exact ⟨nowhere, (List.append_nil _).symm⟩
  · exact ⟨l.position, by simp [describe, unplaced, hnowhere]⟩
  · exact ⟨position, by simp [describe, unplaced, hnowhere]⟩

/-- A message ends with the place of the token that it names. -/
theorem Cause.message_eq (cause : Cause) :
    ∃ place, cause.message = (cause.mapTokens Token.unplaced).message ++ Token.placeText place := by
  cases cause with
  | wantedGroup delimiter found | wanted kind found | wantedPath found | wantedBoolean found
    | wantedInteger found =>
      obtain ⟨place, hplace⟩ := Token.describe_eq found
      exact ⟨place, by simp [message, mapTokens, foundText, hplace]⟩
  | wantedDelimiter delimiter found | trailing found =>
      obtain ⟨place, hplace⟩ := Token.describe_eq (some found)
      rw [Option.map_some] at hplace
      exact ⟨place, by simp [message, mapTokens, foundText, hplace]⟩
  | _ => exact ⟨Token.nowhere, (List.append_nil _).symm⟩

/-- Errors that agree without places have chains that differ at most in places. -/
theorem ParseError.chain_alike {first second : ParseError}
    (h : first.mapTokens Token.unplaced = second.mapTokens Token.unplaced) :
    List.Forall₂ AlikeUpToPlace first.chain second.chain := by
  obtain ⟨hnotes, hcause⟩ := ParseError.mk.inj h
  obtain ⟨place, hplace⟩ := first.cause.message_eq
  obtain ⟨other, hother⟩ := second.cause.message_eq
  have hmessage : AlikeUpToPlace first.message second.message :=
    ⟨_, place, other, hplace, by rw [message, hother]; exact congrArg (·.message ++ _) hcause.symm⟩
  rw [chain, chain, hnotes]
  apply List.rel_append
  · exact List.forall₂_same.2 fun message _ => AlikeUpToPlace.refl message
  · exact .cons hmessage .nil

/-! ## Applications -/

theorem Fragment.same_of_map_unplaced_eq {a b : Fragment}
    (h : a.map Token.unplaced = b.map Token.unplaced) : Fragment.Same a b := by
  apply Token.sameAll_of_unplacedAll_eq
  rw [Token.unplacedAll_eq_map, Token.unplacedAll_eq_map, h]

theorem Statics.same_of_unplaced_eq {a b : Statics} (h : Statics.unplaced a = Statics.unplaced b) :
    Statics.Same a b := by
  have hentries : a.entries.map _ = b.entries.map _ := congrArg NameMap.entries h
  rw [← List.forall₂_eq_eq_eq, List.forall₂_map_left_iff, List.forall₂_map_right_iff] at hentries
  apply hentries.imp
  rintro ⟨name, storage⟩ ⟨other, storage'⟩ heq
  obtain ⟨hname, hstorage⟩ := Prod.mk.inj heq
  obtain ⟨htype, hinitial⟩ := Static.mk.inj hstorage
  exact ⟨hname, Fragment.same_of_map_unplaced_eq htype, Fragment.same_of_map_unplaced_eq hinitial⟩

/-- Applications that agree without places are the same. -/
theorem App.same_of_unplaced_eq {a b : App} (h : a.unplaced = b.unplaced) : App.Same a b := by
  obtain ⟨hdevice, hidle, hinit, hresources, htasks⟩ := App.mk.inj h
  obtain ⟨hlocals, hpath, hidents⟩ := Idle.mk.inj hidle
  exact {
    device := Fragment.same_of_map_unplaced_eq hdevice
    idle := {
      locals := Statics.same_of_unplaced_eq hlocals
      path := Fragment.same_of_map_unplaced_eq hpath
      resources := hidents }
    init := Fragment.same_of_map_unplaced_eq (Init.mk.inj hinit)
    resources := Statics.same_of_unplaced_eq hresources
    tasks := htasks }

/-- Both descriptions have an application and these are the same, or neither has one and their
messages differ at most in places. -/
inductive Description.ParsedAlike (first second : Description) : Prop
  | accepted (app other : App) (h : first.parse.1 = some app) (h' : second.parse.1 = some other)
      (same : app.Same other)
  | refused (h : first.parse.1 = none) (h' : second.parse.1 = none)
      (messages : List.Forall₂ AlikeUpToPlace first.parse.2.errors second.parse.2.errors)

theorem App.ofSource_of_faults_eq_nil {source : Bytes} {limit : Int}
    (h : (lex source limit).2 = []) :
    App.ofSource source limit = (App.ofTokens (lex source limit).1).mapError .ofGrammar := by
  rw [App.ofSource, App.ofReading, h]
  rfl

/-- Tokens that agree without places are read alike. -/
theorem Description.parsedAlike_of_map_unplaced_eq {source other : Bytes} {limit limit' : Int}
    (hnone : (lex source limit).2 = []) (hnone' : (lex other limit').2 = [])
    (h : (lex source limit).1.map Token.unplaced = (lex other limit').1.map Token.unplaced) :
    ParsedAlike (ofSource source limit) (ofSource other limit') := by
  have hfirst := App.ofSource_of_faults_eq_nil hnone
  have hsecond := App.ofSource_of_faults_eq_nil hnone'
  have hcarry := App.ofTokens_unplaced (lex source limit).1
  rw [h, App.ofTokens_unplaced] at hcarry
  rcases carry_eq_carry hcarry with ⟨app', app, hread', hread, heq⟩ | ⟨e', e, hread', hread, heq⟩
  · rw [hread] at hfirst
    rw [hread'] at hsecond
    exact .accepted app app' (parse_of_ok hfirst).1 (parse_of_ok hsecond).1
      (App.same_of_unplaced_eq heq.symm)
  · rw [hread] at hfirst
    rw [hread'] at hsecond
    obtain ⟨happ, herrors⟩ := parse_of_error hfirst
    obtain ⟨happ', herrors'⟩ := parse_of_error hsecond
    refine .refused happ happ' ?_
    rw [herrors, herrors']
    exact ParseError.chain_alike heq.symm

/-- Sameness is enough for the grammar.  Leaves that any two lexers read, at any place and under
any limit, and that are the same are decoded alike.  So sources that are lexed without faults to
tokens that are the same have the same application, or they are both refused, with messages that
differ at most in places. -/
theorem sameness_decides_parsing :
    (∀ first second : Lexer, ∀ l ∈ Token.leavesAll first.tokenize.1,
      ∀ m ∈ Token.leavesAll second.tokenize.1, Token.same (.leaf l) (.leaf m) = true →
        l.literal = m.literal ∧ l.suffix = m.suffix) ∧
    ∀ (source other : Bytes) (limit limit' : Int),
      (lex source limit).2 = [] → (lex other limit').2 = [] →
      Token.sameAll (lex source limit).1 (lex other limit').1 = true →
      Description.ParsedAlike (.ofSource source limit) (.ofSource other limit') := by
  have hleaf : ∀ (lexer : Lexer), ∀ l ∈ Token.leavesAll lexer.tokenize.1,
      (Token.leaf l).FromSpans Span.StandsAlone := by
    intro lexer l hl
    obtain ⟨t, ht, hl⟩ := Token.mem_leavesAll.1 hl
    intro l' hl'
    obtain rfl := List.mem_singleton.1 hl'
    exact Token.fromSpans_standsAlone lexer t ht l' hl
  constructor
  · intro first second l hl m hm hsame
    exact Token.decoded_eq_of_same (hleaf first l hl) (hleaf second m hm) hsame
  · intro source other limit limit' hnone hnone' hsame
    apply Description.parsedAlike_of_map_unplaced_eq hnone hnone'
    exact Token.map_unplaced_eq_of_sameAll
      (Token.fromSpans_standsAlone (.ofSource source limit))
      (Token.fromSpans_standsAlone (.ofSource other limit')) hsame

/-- A number behind a stray closer is decoded as it is alone, and a missing colon is missed at
another place. -/
theorem sameness_decides_parsing_small :
    (let first := Lexer.ofSource (Bytes.ofString "7u8") 0
     let second := Lexer.ofSource (Bytes.ofString ") 7u8") 3
     ∃ l ∈ Token.leavesAll first.tokenize.1, ∃ m ∈ Token.leavesAll second.tokenize.1,
      l.position ≠ m.position ∧ Token.same (.leaf l) (.leaf m) = true ∧
        l.literal = m.literal ∧ l.suffix = m.suffix) ∧
    (let source := Bytes.ofString "\x7bdevice d\x7d"
     let other := Bytes.ofString "\x7b device  d \x7d"
     (lex source 1).2 = [] ∧ (lex other 64).2 = [] ∧
      Token.sameAll (lex source 1).1 (lex other 64).1 = true ∧
      (Description.ofSource source 1).parse.2.errors ≠
        (Description.ofSource other 64).parse.2.errors ∧
      Description.ParsedAlike (.ofSource source 1) (.ofSource other 64)) := by
  constructor
  · have hl : Leaf.mk .integer (Bytes.ofString "7u8") (some (.integer 7)) (Bytes.ofString "u8")
        ⟨1, 1⟩ ∈ Token.leavesAll (Lexer.ofSource (Bytes.ofString "7u8") 0).tokenize.1 := by
      decide +kernel
    have hm : Leaf.mk .integer (Bytes.ofString "7u8") (some (.integer 7)) (Bytes.ofString "u8")
        ⟨1, 3⟩ ∈ Token.leavesAll (Lexer.ofSource (Bytes.ofString ") 7u8") 3).tokenize.1 := by
      decide +kernel
    exact ⟨_, hl, _, hm, by decide, by decide,
      sameness_decides_parsing.1 _ _ _ hl _ hm (by decide)⟩
  · refine ⟨by decide +kernel, by decide +kernel, by decide +kernel, by decide +kernel, ?_⟩
    exact sameness_decides_parsing.2 _ _ _ _ (by decide +kernel) (by decide +kernel)
      (by decide +kernel)

end RealtimeApp
