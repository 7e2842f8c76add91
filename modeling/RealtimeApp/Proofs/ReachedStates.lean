import Mathlib.Logic.Relation
import RealtimeApp.Proofs.NestRuns
import RealtimeApp.Proofs.TokenTree

/-!
# States of a call

A call of a lexer goes from span to span (`Lexer.Step`), and the states it comes to are those that
steps lead to from its beginning (`Lexer.Reaches`), up to the one it ends in
(`Lexer.exists_reaches_last`).  What a call has found in a state it keeps to its end: the leaves are
among its tokens, and the faults among those of the lexer.

The first span that is left in a state decides the next step.  A leaf is pushed
(`Lexer.Emits`), and a span that is given up adds complaints only (`Lexer.GivesUp`).
-/

namespace RealtimeApp

namespace Nest

/-- The leaves of a nest are those of the innermost group and those before each open group. -/
theorem mem_leavesAll_tokens {leaf : Leaf} {nest : Nest} :
    leaf ∈ Token.leavesAll nest.tokens ↔ leaf ∈ Token.leavesAll nest.members ∨
      ∃ frame ∈ nest.around, leaf ∈ Token.leavesAll frame.before := by
  have hreverse : ∀ ts : List Token,
      leaf ∈ Token.leavesAll ts.reverse ↔ leaf ∈ Token.leavesAll ts := by
    simp [Token.mem_leavesAll]
  obtain ⟨members, around⟩ := nest
  rw [tokens, hreverse]
  show leaf ∈ Token.leavesAll (around.foldl _ members) ↔ leaf ∈ Token.leavesAll members ∨
    ∃ frame ∈ around, leaf ∈ Token.leavesAll frame.before
  induction around generalizing members with
  | nil => simp
  | cons frame outer ih =>
      have hclose : leaf ∈ Token.leavesAll (frame.close members) ↔
          leaf ∈ Token.leavesAll members ∨ leaf ∈ Token.leavesAll frame.before := by
        rw [Frame.close, Token.leavesAll, Token.leaves, List.mem_append, hreverse]
      rw [List.foldl_cons, ih, hclose, or_assoc]
      simp only [List.mem_cons, exists_eq_or_imp]

/-- A leaf that was read stays among the tokens. -/
theorem mem_leavesAll_read {limit : Int} {leaf : Leaf} {nest : Nest} {position : Position}
    (spans : List Span) (h : leaf ∈ Token.leavesAll nest.tokens) :
    leaf ∈ Token.leavesAll (read limit nest position spans).nest.tokens := by
  refine read_induction (P := fun nest => leaf ∈ Token.leavesAll nest.tokens) ?_ ?_ ?_
    nest position h
  · intro nest span place kind literal suffix _ _ hleaf
    rw [mem_leavesAll_tokens] at hleaf ⊢
    rw [push, Token.leavesAll, List.mem_append]
    exact hleaf.imp_left .inr
  · intro nest d place _ hleaf
    rw [mem_leavesAll_tokens] at hleaf ⊢
    simp only [enter, List.mem_cons, exists_eq_or_imp]
    exact .inr hleaf
  · intro nest d outer hleave hleaf
    rwa [tokens_leave hleave]

section Takes

variable {limit : Int} {nest next : Nest} {position : Position} {span : Span}
  {complaints : List Complaint}

theorem takes_skipped_iff (h : span.content = .skipped) :
    Takes limit nest position span next complaints ↔
      next = nest ∧ complaints = span.complaints := by
  constructor
  · intro htakes
    cases htakes with
    | skipped _ => exact ⟨rfl, rfl⟩
    | leaf hcontent | opener hcontent _ | closer hcontent _ | dropped hcontent _ =>
        cases h.symm.trans hcontent
  · rintro ⟨rfl, rfl⟩
    exact .skipped h

theorem takes_leaf_iff {kind : LeafKind} {literal : Option Literal} {suffix : Bytes}
    (h : span.content = .leaf kind literal suffix) :
    Takes limit nest position span next complaints ↔
      next = nest.push (.leaf ⟨kind, span.text, literal, suffix, position⟩) ∧
        complaints = span.complaints := by
  constructor
  · intro htakes
    cases htakes with
    | leaf hcontent =>
        cases h.symm.trans hcontent
        exact ⟨rfl, rfl⟩
    | skipped hcontent | opener hcontent _ | closer hcontent _ | dropped hcontent _ =>
        cases h.symm.trans hcontent
  · rintro ⟨rfl, rfl⟩
    exact .leaf h

end Takes

/-- A fault of a run is about a closer without its partner, or one of the spans gives cause for
it. -/
theorem Run.cause_of_mem_faults {limit : Int} {nest last : Nest} {position : Position}
    {spans : List Span} {faults : List Fault} (h : Run limit nest position spans last faults) :
    ∀ fault ∈ faults, fault.complaint.isUnmatched = true ∨
      ∃ span ∈ spans, fault.complaint ∈ span.complaints := by
  induction h with
  | done nest position =>
      intro fault hfault
      cases hfault
  | @next nest next last position span rest complaints faults first _ ih =>
      intro fault hfault
      rcases List.mem_append.1 hfault with hfault | hfault
      · obtain ⟨complaint, hcomplaint, rfl⟩ := List.mem_map.1 hfault
        cases first with
        | skipped _ | leaf _ | opener _ _ | closer _ _ =>
            exact .inr ⟨span, List.mem_cons_self, hcomplaint⟩
        | dropped _ hleave =>
            rcases List.mem_append.1 hcomplaint with hcomplaint | hcomplaint
            · exact .inr ⟨span, List.mem_cons_self, hcomplaint⟩
            · obtain rfl := List.mem_singleton.1 hcomplaint
              rcases leave_eq_error hleave with rfl | ⟨frame, outer, -, rfl⟩
              · exact .inl rfl
              · exact .inl rfl
      · rcases ih fault hfault with hunmatched | ⟨other, hother, hcomplaint⟩
        · exact .inl hunmatched
        · exact .inr ⟨other, List.mem_cons_of_mem span hother, hcomplaint⟩

end Nest

namespace Lexer

/-- Where a call is between two spans: the nest and the faults so far, and the bytes that are left
with the place of the first one. -/
structure State where
  nest : Nest
  faults : List Fault
  position : Position
  input : Bytes

/-- The first span that is left is taken. -/
inductive Step (limit : Int) : State → State → Prop
  | take {nest next : Nest} {position : Position} {b : UInt8} {rest : Bytes}
      {complaints : List Complaint} (faults : List Fault)
      (h : Nest.Takes limit nest position (Span.scan b rest).1 next complaints) :
      Step limit ⟨nest, faults, position, b :: rest⟩
        ⟨next, faults ++ complaints.map (Fault.mk position.line),
          position.after (Span.scan b rest).1.text, (Span.scan b rest).2⟩

/-- Where a call begins. -/
def entry (lexer : Lexer) : State := ⟨.empty, [], lexer.position, lexer.rest⟩

/-- A call of the lexer comes to this state. -/
def Reaches (lexer : Lexer) : State → Prop := Relation.ReflTransGen (Step lexer.limit) lexer.entry

section Reaches

variable {lexer : Lexer} {state : State}

/-- A call reads on from every state that it comes to. -/
theorem Reaches.read_eq (h : lexer.Reaches state) :
    Nest.empty.read lexer.limit lexer.position (Span.all lexer.rest) =
      (state.nest.read lexer.limit state.position (Span.all state.input)).withFaults
        state.faults := by
  induction h with
  | refl => rfl
  | tail _ hstep ih =>
      cases hstep with
      | take faults htakes =>
          rw [ih, Span.all_cons, htakes.read_cons, Reading.withFaults_withFaults]

/-- The leaves in a state are among the tokens of the call. -/
theorem Reaches.mem_leavesAll_tokenize {leaf : Leaf} (h : lexer.Reaches state)
    (hleaf : leaf ∈ Token.leavesAll state.nest.tokens) :
    leaf ∈ Token.leavesAll lexer.tokenize.1 := by
  rw [tokenize, h.read_eq]
  exact Nest.mem_leavesAll_read (Span.all state.input) hleaf

/-- The faults in a state are among those of the lexer behind the call. -/
theorem Reaches.mem_faults_tokenize {fault : Fault} (h : lexer.Reaches state)
    (hfault : fault ∈ state.faults) : fault ∈ lexer.tokenize.2.faults := by
  rw [tokenize, h.read_eq]
  simp [Reading.withFaults, hfault]

end Reaches

/-- Where spans are taken, steps lead behind them. -/
theorem steps_of_run {limit : Int} {nest last : Nest} {position : Position} {spans : List Span}
    {faults : List Fault} (h : Nest.Run limit nest position spans last faults)
    {input : Bytes} {after : List Span} (hinput : Span.all input = spans ++ after)
    (before : List Fault) :
    Relation.ReflTransGen (Step limit) ⟨nest, before, position, input⟩
      ⟨last, before ++ faults, position.after (Span.textOf spans), Span.textOf after⟩ := by
  induction h generalizing input before with
  | done nest position =>
      rw [List.nil_append] at hinput
      rw [← hinput, Span.textOf_all, List.append_nil]
      exact .refl
  | @next nest next last position span spans complaints faults first _ ih =>
      cases input with
      | nil => simp at hinput
      | cons b rest =>
          rw [Span.all_cons, List.cons_append, List.cons.injEq] at hinput
          obtain ⟨rfl, hrest⟩ := hinput
          have hothers := ih hrest (before ++ complaints.map (Fault.mk position.line))
          rw [List.append_assoc, ← Position.after_append] at hothers
          exact .head (.take before first) hothers

/-- A call ends in a state that it comes to, where nothing is left, or where the limit refuses an
opener. -/
theorem exists_reaches_last (lexer : Lexer) :
    ∃ state, lexer.Reaches state ∧ lexer.tokenize.1 = state.nest.tokens ∧
      (state.input = [] ∨ ∃ d : Delimiter, ∃ rest, state.input = d.opening :: rest ∧
        lexer.limit ≤ state.nest.depth) := by
  rcases run_or_refused lexer with
    ⟨last, faults, hrun⟩ | ⟨before, d, after, last, faults, hspans, hrun, hdepth⟩
  · have hreach := steps_of_run hrun (List.append_nil _).symm []
    exact ⟨_, hreach, by rw [tokenize_of_run hrun], .inl rfl⟩
  · have hreach := steps_of_run hrun hspans []
    exact ⟨_, hreach, by rw [tokenize_of_refused hspans hrun hdepth],
      .inr ⟨d, Span.textOf after, rfl, hdepth⟩⟩

/-- A fault that a call adds is about a delimiter, or one of the spans gives cause for it. -/
theorem cause_of_mem_faults_tokenize {lexer : Lexer} {fault : Fault}
    (h : fault ∈ lexer.tokenize.2.faults) :
    fault ∈ lexer.faults ∨ fault.complaint.isUnmatched = true ∨
      fault.complaint.isTooDeep = true ∨
      ∃ span ∈ Span.all lexer.rest, fault.complaint ∈ span.complaints := by
  rcases run_or_refused lexer with
    ⟨last, faults, hrun⟩ | ⟨before, d, after, last, faults, hspans, hrun, hdepth⟩
  · rw [tokenize_of_run hrun, List.mem_append, List.mem_append] at h
    rcases h with hbefore | hfault | hunclosed
    · exact .inl hbefore
    · exact .inr ((hrun.cause_of_mem_faults fault hfault).imp_right .inr)
    · obtain ⟨frame, -, rfl⟩ := List.mem_map.1 hunclosed
      exact .inr (.inl rfl)
  · rw [tokenize_of_refused hspans hrun hdepth, List.mem_append, List.mem_append] at h
    rcases h with hbefore | hfault | hdeep
    · exact .inl hbefore
    · refine .inr ((hrun.cause_of_mem_faults fault hfault).imp_right fun hcause => .inr ?_)
      obtain ⟨span, hspan, hcomplaint⟩ := hcause
      exact ⟨span, hspans ▸ List.mem_append_left _ hspan, hcomplaint⟩
    · obtain rfl := List.mem_singleton.1 hdeep
      exact .inr (.inr (.inl rfl))

/-! ## The span that comes next -/

/-- The next span is a leaf, written in front of what is left behind it. -/
structure Emits (lexer : Lexer) (state : State) (leaf : Leaf) (complaints : List Complaint)
    (behind : Bytes) : Prop where
  input : state.input = leaf.lexeme ++ behind
  position : leaf.position = state.position
  /-- The leaf is pushed, and nothing else can happen. -/
  step : ∀ next, Step lexer.limit state next ↔
    next = ⟨state.nest.push (.leaf leaf),
      state.faults ++ complaints.map (Fault.mk state.position.line),
      state.position.after leaf.lexeme, behind⟩
  token : leaf ∈ Token.leavesAll lexer.tokenize.1
  faults : ∀ complaint ∈ complaints,
    ⟨state.position.line, complaint⟩ ∈ lexer.tokenize.2.faults

/-- The next span is given up with complaints. -/
structure GivesUp (lexer : Lexer) (state : State) (text : Bytes) (complaints : List Complaint)
    (behind : Bytes) : Prop where
  input : state.input = text ++ behind
  /-- The nest stays as it is, and nothing else can happen. -/
  step : ∀ next, Step lexer.limit state next ↔
    next = ⟨state.nest, state.faults ++ complaints.map (Fault.mk state.position.line),
      state.position.after text, behind⟩
  faults : ∀ complaint ∈ complaints,
    ⟨state.position.line, complaint⟩ ∈ lexer.tokenize.2.faults

/-- The next step adds a fault with this complaint. -/
def Reports (lexer : Lexer) (state : State) (complaint : Complaint) : Prop :=
  ∃ next added, Step lexer.limit state next ∧ next.faults = state.faults ++ added ∧
    ⟨state.position.line, complaint⟩ ∈ added

section Next

variable {lexer : Lexer} {state next : State} {limit : Int} {nest : Nest} {faults : List Fault}
  {position : Position} {b : UInt8} {rest text behind : Bytes} {complaints : List Complaint}

theorem step_cons_iff :
    Step limit ⟨nest, faults, position, b :: rest⟩ state ↔ ∃ next complaints,
      Nest.Takes limit nest position (Span.scan b rest).1 next complaints ∧
        state = ⟨next, faults ++ complaints.map (Fault.mk position.line),
          position.after (Span.scan b rest).1.text, (Span.scan b rest).2⟩ := by
  constructor
  · intro hstep
    cases hstep with
    | take faults htakes => exact ⟨_, _, htakes, rfl⟩
  · rintro ⟨next, complaints, htakes, rfl⟩
    exact .take faults htakes

theorem step_skipped_iff
    (hscan : Span.scan b rest = (⟨text, .skipped, complaints⟩, behind)) :
    Step limit ⟨nest, faults, position, b :: rest⟩ next ↔
      next = ⟨nest, faults ++ complaints.map (Fault.mk position.line), position.after text,
        behind⟩ := by
  rw [step_cons_iff, hscan]
  constructor
  · rintro ⟨outer, others, htakes, rfl⟩
    obtain ⟨rfl, rfl⟩ := (Nest.takes_skipped_iff rfl).1 htakes
    rfl
  · rintro rfl
    exact ⟨_, _, (Nest.takes_skipped_iff rfl).2 ⟨rfl, rfl⟩, rfl⟩

theorem step_leaf_iff {kind : LeafKind} {literal : Option Literal} {suffix : Bytes}
    (hscan : Span.scan b rest = (⟨text, .leaf kind literal suffix, complaints⟩, behind)) :
    Step limit ⟨nest, faults, position, b :: rest⟩ next ↔
      next = ⟨nest.push (.leaf ⟨kind, text, literal, suffix, position⟩),
        faults ++ complaints.map (Fault.mk position.line), position.after text, behind⟩ := by
  rw [step_cons_iff, hscan]
  constructor
  · rintro ⟨outer, others, htakes, rfl⟩
    obtain ⟨rfl, rfl⟩ := (Nest.takes_leaf_iff rfl).1 htakes
    rfl
  · rintro rfl
    exact ⟨_, _, (Nest.takes_leaf_iff rfl).2 ⟨rfl, rfl⟩, rfl⟩

theorem Reaches.emits (h : lexer.Reaches state) (hinput : state.input = b :: rest)
    {kind : LeafKind} {literal : Option Literal} {suffix : Bytes}
    (hscan : Span.scan b rest = (⟨text, .leaf kind literal suffix, complaints⟩, behind)) :
    lexer.Emits state ⟨kind, text, literal, suffix, state.position⟩ complaints behind := by
  obtain ⟨nest, faults, position, input⟩ := state
  obtain rfl : input = b :: rest := hinput
  have hnext := h.tail ((step_leaf_iff hscan).2 rfl)
  have hsplit := (Span.splits_scan b rest).append
  rw [hscan] at hsplit
  constructor
  case input => exact hsplit.symm
  case position => rfl
  case step => exact fun next => step_leaf_iff hscan
  case token =>
    apply Reaches.mem_leavesAll_tokenize hnext
    rw [Nest.mem_leavesAll_tokens]
    exact .inl List.mem_cons_self
  case faults =>
    intro complaint hcomplaint
    apply Reaches.mem_faults_tokenize hnext
    exact List.mem_append_right _ (List.mem_map_of_mem hcomplaint)

theorem Reaches.givesUp (h : lexer.Reaches state) (hinput : state.input = b :: rest)
    (hscan : Span.scan b rest = (⟨text, .skipped, complaints⟩, behind)) :
    lexer.GivesUp state text complaints behind := by
  obtain ⟨nest, faults, position, input⟩ := state
  obtain rfl : input = b :: rest := hinput
  have hnext := h.tail ((step_skipped_iff hscan).2 rfl)
  have hsplit := (Span.splits_scan b rest).append
  rw [hscan] at hsplit
  constructor
  case input => exact hsplit.symm
  case step => exact fun next => step_skipped_iff hscan
  case faults =>
    intro complaint hcomplaint
    apply Reaches.mem_faults_tokenize hnext
    exact List.mem_append_right _ (List.mem_map_of_mem hcomplaint)

end Next

/-! ## The next step is determined -/

section Determined

variable {lexer : Lexer} {state : State} {leaf other : Leaf} {text behind left : Bytes}
  {complaints others : List Complaint}

theorem Emits.leaf_eq (h : lexer.Emits state leaf complaints behind)
    (hother : lexer.Emits state other others left) : leaf = other := by
  have hnext := (hother.step _).1 ((h.step _).2 rfl)
  simp only [State.mk.injEq, Nest.push, Nest.mk.injEq, List.cons.injEq, Token.leaf.injEq] at hnext
  exact hnext.1.1.1

theorem Emits.not_givesUp (h : lexer.Emits state leaf complaints behind) :
    ¬lexer.GivesUp state text others left := by
  intro hother
  have hnext := (hother.step _).1 ((h.step _).2 rfl)
  have hmembers := congrArg (·.nest.members) hnext
  exact List.cons_ne_self _ _ hmembers

theorem GivesUp.complaints_eq (h : lexer.GivesUp state text complaints behind) {again : Bytes}
    (hother : lexer.GivesUp state again others left) : complaints = others := by
  have hnext := (hother.step _).1 ((h.step _).2 rfl)
  have hfaults := List.append_cancel_left (congrArg State.faults hnext)
  refine (List.map_inj_right ?_).1 hfaults
  intro first second hfault
  exact (Fault.mk.inj hfault).2

theorem reports_iff_of_step {next : State} (hstep : ∀ other, Step lexer.limit state other ↔
      other = next) (hfaults : next.faults =
      state.faults ++ complaints.map (Fault.mk state.position.line)) {complaint : Complaint} :
    lexer.Reports state complaint ↔ complaint ∈ complaints := by
  constructor
  · rintro ⟨other, added, hother, hadded, hmem⟩
    obtain rfl := (hstep other).1 hother
    rw [hfaults] at hadded
    rw [← List.append_cancel_left hadded] at hmem
    obtain ⟨found, hfound, heq⟩ := List.mem_map.1 hmem
    exact (Fault.mk.inj heq).2 ▸ hfound
  · intro hcomplaint
    exact ⟨next, _, (hstep next).2 rfl, hfaults, List.mem_map_of_mem hcomplaint⟩

theorem Emits.reports_iff (h : lexer.Emits state leaf complaints behind) {complaint : Complaint} :
    lexer.Reports state complaint ↔ complaint ∈ complaints :=
  reports_iff_of_step h.step rfl

theorem GivesUp.reports_iff (h : lexer.GivesUp state text complaints behind)
    {complaint : Complaint} : lexer.Reports state complaint ↔ complaint ∈ complaints :=
  reports_iff_of_step h.step rfl

end Determined
end Lexer
end RealtimeApp
