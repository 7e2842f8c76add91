import Mathlib.Data.List.Forall2
import RealtimeApp.Proofs.TokenChanges
import RealtimeApp.Proofs.ValueReading

/-!
# Captured runs

Paths, types and initial values are captured as runs of tokens, which end at a comma, an equal sign
or a semicolon.  A run is what was taken, no more and no less, and a group is one token of it,
whatever it holds: with other members in any of its groups a sequence is cut at the same places and
refused with the same messages (`Rule.IsOpaque`).

Emptying all groups (`Token.hollow`) makes sequences equal that differ in members only, and the
rules for runs commute with it, so both readings are compared through the same hollow one.
-/

namespace RealtimeApp

/-! ## Other members -/

namespace Token

/-- The second token is the first one, but for the members of a group. -/
inductive Refilled : Token → Token → Prop
  | leaf (l : Leaf) : Refilled (leaf l) (leaf l)
  | group (d : Delimiter) (position : Position) (members others : List Token) :
      Refilled (group d position members) (group d position others)

/-- The token with nothing in it. -/
def hollow : Token → Token
  | leaf l => leaf l
  | group d position _ => group d position []

theorem refilled_iff {t u : Token} : Refilled t u ↔ t.hollow = u.hollow := by
  constructor
  · intro h
    cases h with
    | leaf l => rfl
    | group d position members others => rfl
  · intro h
    cases t with
    | leaf l =>
        cases u with
        | leaf m =>
            obtain rfl := Token.leaf.inj h
            exact .leaf l
        | group e place others => cases h
    | group d position members =>
        cases u with
        | leaf m => cases h
        | group e place others =>
            obtain ⟨rfl, rfl, -⟩ := Token.group.inj h
            exact .group d position members others

theorem forall₂_refilled_iff {ts us : List Token} :
    List.Forall₂ Refilled ts us ↔ ts.map hollow = us.map hollow := by
  have hrefilled : Refilled = fun t u => t.hollow = u.hollow := by
    funext t u
    exact propext refilled_iff
  rw [hrefilled, ← List.forall₂_eq_eq_eq, List.forall₂_map_left_iff, List.forall₂_map_right_iff]

@[simp] theorem kind_hollow (t : Token) : t.hollow.kind = t.kind := by
  cases t <;> rfl

@[simp] theorem hasKind_hollow (kind : TokenKind) (t : Token) :
    t.hollow.hasKind kind = t.hasKind kind := by
  rw [hasKind, hasKind, kind_hollow]

@[simp] theorem isLeaf_hollow (kind : LeafKind) (t : Token) :
    t.hollow.isLeaf kind = t.isLeaf kind := by
  cases t <;> rfl

/-- A description does not look into groups. -/
theorem describe_hollow (found : Option Token) :
    describe (found.map hollow) = describe found := by
  rcases found with _ | (l | ⟨d, position, members⟩) <;> rfl

end Token

/-- No message looks into groups. -/
theorem Cause.message_hollow (cause : Cause) :
    (cause.mapTokens Token.hollow).message = cause.message := by
  cases cause with
  | wantedGroup delimiter found | wanted kind found | wantedPath found | wantedBoolean found
    | wantedInteger found => simp [message, mapTokens, foundText, Token.describe_hollow]
  | wantedDelimiter delimiter found | trailing found =>
      have hdescribe := Token.describe_hollow (some found)
      rw [Option.map_some] at hdescribe
      simp [message, mapTokens, foundText, hdescribe]
  | _ => rfl

theorem ParseError.chain_hollow (error : ParseError) :
    (error.mapTokens Token.hollow).chain = error.chain := by
  simp [chain, message, mapTokens, Cause.message_hollow]

/-! ## Rules that do not look into groups -/

namespace Rule

variable {α β : Type}

/-- Two runs end in the same way, but for the members of groups: in values that are the same, or in
errors with the same notes and message. -/
inductive SameResult (Same : α → α → Prop) :
    Except ParseError α × List Token → Except ParseError α × List Token → Prop
  | value {a b : α} {rest others : List Token} (h : Same a b)
      (hrest : List.Forall₂ Token.Refilled rest others) :
      SameResult Same (.ok a, rest) (.ok b, others)
  | error {e f : ParseError} {rest others : List Token} (h : e.chain = f.chain)
      (hrest : List.Forall₂ Token.Refilled rest others) :
      SameResult Same (.error e, rest) (.error f, others)

theorem SameResult.length_eq {Same : α → α → Prop}
    {first second : Except ParseError α × List Token} (h : SameResult Same first second) :
    first.2.length = second.2.length := by
  cases h with
  | value _ hrest => exact hrest.length_eq
  | error _ hrest => exact hrest.length_eq

/-- The place in a sequence where the rule stops when it starts at another place. -/
def stop (rule : Rule α) (tokens : List Token) (start : Nat) : Nat :=
  tokens.length - (rule.rest (tokens.drop start)).length

/-- Other members in the groups of a sequence change nothing: from every place on the rule ends in
the same way and stops at the same place. -/
def IsOpaque (Same : α → α → Prop) (rule : Rule α) : Prop :=
  ∀ tokens others start, List.Forall₂ Token.Refilled tokens others →
    SameResult Same (rule.run (tokens.drop start)) (rule.run (others.drop start)) ∧
      rule.stop tokens start = rule.stop others start

/-- What reads hollow tokens as the rule reads the tokens themselves cannot look into groups. -/
theorem Commutes.isOpaque {g : α → β} {rule : Rule α} {rule' : Rule β}
    (h : Commutes Token.hollow g rule rule') {Same : α → α → Prop}
    (hsame : ∀ a b, g a = g b → Same a b) : rule.IsOpaque Same := by
  intro tokens others start hrefilled
  have hhollow : (tokens.drop start).map Token.hollow = (others.drop start).map Token.hollow := by
    rw [List.map_drop, List.map_drop, Token.forall₂_refilled_iff.1 hrefilled]
  have hrun := h (tokens.drop start)
  rw [hhollow, h (others.drop start), Prod.mk.injEq] at hrun
  obtain ⟨hresult, hrest⟩ := hrun
  have hresults :
      SameResult Same (rule.run (tokens.drop start)) (rule.run (others.drop start)) := by
    have hrefilled' := Token.forall₂_refilled_iff.2 hrest.symm
    rcases hread : rule.run (tokens.drop start) with ⟨result, rest⟩
    rcases hread' : rule.run (others.drop start) with ⟨result', rest'⟩
    rw [hread, hread'] at hresult hrefilled'
    rcases carry_eq_carry hresult with ⟨b, a, rfl, rfl, heq⟩ | ⟨f, e, rfl, rfl, heq⟩
    · exact .value (hsame a b heq.symm) hrefilled'
    · refine .error ?_ hrefilled'
      rw [← e.chain_hollow, ← f.chain_hollow, heq]
  refine ⟨hresults, ?_⟩
  rw [stop, stop, rest, rest, hresults.length_eq, hrefilled.length_eq]

end Rule

/-! ## The rules for runs -/

/-- The same storage, but for the members of groups. -/
structure Static.Refilled (first second : Static) : Prop where
  type : List.Forall₂ Token.Refilled first.type second.type
  initial : List.Forall₂ Token.Refilled first.initial second.initial

namespace Grammar

open Rule Written

theorem isOpaque_path : path.IsOpaque (List.Forall₂ Token.Refilled) :=
  (commutes_path (Token.isLeaf_hollow .comma)).isOpaque
    fun _ _ => Token.forall₂_refilled_iff.2

theorem isOpaque_upTo (stop : TokenKind) :
    (upTo stop).IsOpaque (List.Forall₂ Token.Refilled) :=
  (commutes_upTo (Token.hasKind_hollow stop)).isOpaque
    fun _ _ => Token.forall₂_refilled_iff.2

theorem isOpaque_static : static.IsOpaque Static.Refilled := by
  apply (commutes_static Token.hasKind_hollow).isOpaque
  intro a b heq
  obtain ⟨htype, hinitial⟩ := Static.mk.inj heq
  exact ⟨Token.forall₂_refilled_iff.2 htype, Token.forall₂_refilled_iff.2 hinitial⟩

/-- Runs are captured without loss, and groups in them are opaque.  A path is what stands before the
first comma or the end, a run up to a stop is what stands before the first token of that kind,
which is taken with it, and storage is a type, an equal sign, an initial value and a semicolon.
With other members in any groups all three end in the same way, at the same place. -/
theorem captures_lossless_opaque :
    (∀ tokens fragment rest, path.run tokens = (.ok fragment, rest) ↔
      tokens = fragment ++ rest ∧ IsRun .comma fragment ∧ AtComma rest) ∧
    (∀ stop tokens fragment rest, (upTo stop).run tokens = (.ok fragment, rest) ↔
      ∃ t, tokens = fragment ++ t :: rest ∧ t.hasKind stop = true ∧
        ∀ u ∈ fragment, u.hasKind stop = false) ∧
    (∀ tokens value rest, static.run tokens = (.ok value, rest) ↔
      ∃ equal semicolon, tokens = value.type ++ equal :: (value.initial ++ semicolon :: rest) ∧
        IsRun .equal value.type ∧ equal.isLeaf .equal = true ∧
        IsRun .semicolon value.initial ∧ semicolon.isLeaf .semicolon = true) ∧
    path.IsOpaque (List.Forall₂ Token.Refilled) ∧
    (∀ stop, (upTo stop).IsOpaque (List.Forall₂ Token.Refilled)) ∧
    static.IsOpaque Static.Refilled := by
  refine ⟨?_, ?_, ?_, isOpaque_path, isOpaque_upTo, isOpaque_static⟩
  · intro tokens fragment rest
    exact run_path_eq_ok_iff
  · intro stop tokens fragment rest
    exact run_upTo_eq_ok_iff
  · intro tokens value rest
    exact run_static_eq_ok_iff

end Grammar

end RealtimeApp
