import RealtimeApp.Proofs.ErrorWalk
import RealtimeApp.Proofs.Recognition

/-!
# Where the rules of the grammar stop

The application, its two routines, the tasks and each task are listings, and storage is walked in
a way of its own: it has no commas, and a name is looked up before its colon is.  Each rule fails
exactly where the walk through the members of its group stops.
-/

namespace RealtimeApp

/-! ## Listings of the grammar -/

namespace Listing

/-- A listing with fixed keys. -/
def ofFields (fields : List (Bytes × Rule Unit)) (required : List Bytes) : Listing :=
  ⟨fun key => fields.lookup key, .entry, .duplicateField, required⟩

/-- The fields of a start routine. -/
def init : Listing :=
  ofFields [(Bytes.ofString "path", Grammar.path.void)] [Bytes.ofString "path"]

/-- The fields of an idle routine. -/
def idle : Listing :=
  ofFields
    [(Bytes.ofString "path", Grammar.path.void), (Bytes.ofString "locals", Grammar.statics.void),
      (Bytes.ofString "resources", Grammar.idents.void)]
    [Bytes.ofString "path"]

/-- The fields of a task. -/
def task : Listing :=
  ofFields
    [(Bytes.ofString "enabled", Grammar.bool.void), (Bytes.ofString "priority", Grammar.byte.void),
      (Bytes.ofString "resources", Grammar.idents.void)]
    []

/-- The tasks: every key is the name of one. -/
def tasks : Listing := ⟨fun _ => some Grammar.task.void, .task, .duplicateTask, []⟩

/-- The fields of an application. -/
def app : Listing :=
  ofFields
    [(Bytes.ofString "device", Grammar.path.void), (Bytes.ofString "idle", Grammar.idle.void),
      (Bytes.ofString "init", Grammar.init.void),
      (Bytes.ofString "resources", Grammar.statics.void),
      (Bytes.ofString "tasks", Grammar.tasks.void)]
    [Bytes.ofString "device", Bytes.ofString "idle", Bytes.ofString "init"]

end Listing

/-! ## Slots -/

namespace Grammar

open Rule

section Slots

variable {F σ : Type} {key : F → Bytes}

/-- The state is made from fields with these keys. -/
def MadeFrom (key : F → Bytes) (build : List F → σ) (seen : List Bytes) (state : σ) : Prop :=
  ∃ fields, fields.map key = seen ∧ build fields = state

theorem Slot.isSome_find_iff {α : Type} (slot : Slot key α) {fields : List F} :
    (slot.find fields).isSome = true ↔ slot.name ∈ fields.map key := by
  rw [Option.isSome_iff_ne_none, Ne, slot.find_eq_none_iff, Classical.not_not]

/-- A slot that is filled at most once is treated as a field of the listing. -/
theorem reacts_fill {α : Type} {listing : Listing} {Filled : List Bytes → σ → Prop}
    {seen : List Bytes} {l : Leaf} {slot : Option α} {rule : Rule α} {set : α → σ}
    (hnote : listing.note = .entry) (hduplicate : listing.duplicate = .duplicateField)
    (hrule : listing.rule? l.lexeme = some rule.void)
    (hslot : slot.isSome = true ↔ l.lexeme ∈ seen)
    (hset : slot = none → ∀ value, Filled (seen ++ [l.lexeme]) (set value)) :
    listing.Reacts Filled seen l.lexeme
      (fill l slot rule >>= fun value => Pure.pure (set value)) where
  unknown hnone := by
    rw [hrule] at hnone
    cases hnone
  duplicate _ hseen tokens := by
    obtain ⟨value, rfl⟩ := Option.isSome_iff_exists.1 (hslot.2 hseen)
    rw [hduplicate]
    rfl
  refused := by
    intro rule' tokens e hknown hnew he
    obtain rfl : rule.void = rule' := Option.some.inj (hrule.symm.trans hknown)
    obtain rfl : slot = none := by
      rw [← Option.not_isSome_iff_eq_none, hslot]
      exact hnew
    rw [hnote]
    exact value_within_bind_of_error he _ set
  accepted := by
    intro rule' tokens rest hknown hnew hrun
    obtain rfl : rule.void = rule' := Option.some.inj (hrule.symm.trans hknown)
    obtain rfl : slot = none := by
      rw [← Option.not_isSome_iff_eq_none, hslot]
      exact hnew
    obtain ⟨value, hvalue⟩ := exists_run_within_bind hrun (.entry l.lexeme) set
    exact ⟨set value, hvalue, hset rfl value⟩

theorem reacts_unknown {listing : Listing} {Filled : List Bytes → σ → Prop} {seen : List Bytes}
    {l : Leaf} (hnone : listing.rule? l.lexeme = none) :
    listing.Reacts Filled seen l.lexeme (Grammar.unknown l) where
  unknown _ _ := rfl
  duplicate hsome := by
    rw [hnone] at hsome
    cases hsome
  refused := by
    intro rule tokens e hsome
    rw [hnone] at hsome
    cases hsome
  accepted := by
    intro rule tokens rest hsome
    rw [hnone] at hsome
    cases hsome

/-- A rule that fills slots treats every key as the listing of these slots says. -/
theorem VisitsSlot.reacts {readers : List (Reader key)} {build : List F → σ} {l : Leaf}
    {before : List F} {visited : Rule σ} (h : VisitsSlot readers build l before visited)
    {fields : List (Bytes × Rule Unit)} {required : List Bytes}
    (hfields : fields = readers.map fun reader => (reader.slot.name, reader.rule.void))
    (hrules : ∀ reader ∈ readers, fields.lookup reader.slot.name = some reader.rule.void) :
    (Listing.ofFields fields required).Reacts (MadeFrom key build) (before.map key) l.lexeme
      visited := by
  cases h with
  | fills reader hreader hname hset =>
      apply reacts_fill rfl rfl
      · rw [hname]
        exact hrules reader hreader
      · rw [hname, reader.slot.isSome_find_iff]
      · intro hnone value
        refine ⟨before ++ [reader.slot.make value], ?_, (hset hnone value).symm⟩
        rw [List.map_append, List.map_singleton, reader.slot.key_make, hname]
  | unknown hname =>
      apply reacts_unknown
      refine List.lookup_eq_none_iff.2 ?_
      rw [hfields]
      intro entry hentry
      obtain ⟨reader, hreader, rfl⟩ := List.mem_map.1 hentry
      simpa using (hname reader hreader).symm

end Slots

/-! ## Required fields -/

section Required

variable {α β : Type} {seen : List Bytes} {e : ParseError}

/-- The error of the first required key that was not seen. -/
def Missing (required seen : List Bytes) (e : ParseError) : Prop :=
  ∃ name, required.find? (· ∉ seen) = some name ∧ e = .ofCause (.missingField name)

theorem stopsAt_nil_iff {listing : Listing} :
    listing.StopsAt seen [] e ↔ Missing listing.required seen e := by
  constructor
  · intro h
    generalize hleft : ([] : List Token) = left at h
    cases h with
    | missing hname => exact ⟨_, hname, rfl⟩
    | noName | noColon | unknown | duplicate => cases hleft
    | value hopens | noComma hopens =>
        obtain ⟨l, colon, htokens, -⟩ := hopens.named
        rw [← hleft] at htokens
        cases htokens
  · rintro ⟨name, hname, rfl⟩
    exact .missing hname

theorem not_missing_nil : ¬Missing [] seen e := by
  rintro ⟨name, hname, -⟩
  cases hname

/-- Required keys are asked for one after another. -/
theorem filled_bind_eq_error_iff {name : Bytes} {slot : Option α}
    {next : α → Except ParseError β} {required : List Bytes}
    (hslot : slot.isSome = true ↔ name ∈ seen)
    (hnext : ∀ value, next value = .error e ↔ Missing required seen e) :
    filled name slot >>= next = .error e ↔ Missing (name :: required) seen e := by
  cases slot with
  | none =>
      have hnew : name ∉ seen := fun hseen => by simpa using hslot.2 hseen
      have hfind : (name :: required).find? (· ∉ seen) = some name := by simp [hnew]
      rw [Missing, hfind]
      constructor
      · intro h
        cases h
        exact ⟨name, rfl, rfl⟩
      · rintro ⟨_, hname, rfl⟩
        cases hname
        rfl
  | some value =>
      have hseen : name ∈ seen := hslot.1 rfl
      have hfind : (name :: required).find? (· ∉ seen) = required.find? (· ∉ seen) := by
        simp [hseen]
      rw [Missing, hfind]
      exact hnext value

end Required

/-! ## The rules -/

/-- A group with fixed keys fails where the walk through the listing of its slots stops. -/
theorem slots_value_eq_error_iff {F σ α : Type} {key : F → Bytes} {readers : List (Reader key)}
    {build : List F → σ} {visit : Leaf → σ → Rule σ} {finish : σ → Except ParseError α}
    {fields : List (Bytes × Rule Unit)} {required : List Bytes}
    (hvisit : ∀ l before, VisitsSlot readers build l before (visit l (build before)))
    (hfields : fields = readers.map fun reader => (reader.slot.name, reader.rule.void))
    (hrules : ∀ reader ∈ readers, fields.lookup reader.slot.name = some reader.rule.void)
    (hfinish : ∀ before e, finish (build before) = .error e ↔
      Missing required (before.map key) e) {tokens : List Token} {e : ParseError} :
    (delimited .brace fun body =>
        (Fields.read (.ofRules visit) (build []) body).result >>= finish).value tokens = .error e ↔
      FailsInGroup .brace (Listing.ofFields fields required).Fails tokens e := by
  have hstart : MadeFrom key build [] (build []) := ⟨[], rfl, rfl⟩
  have hreacts : (Listing.ofFields fields required).Visits visit (MadeFrom key build) := by
    rintro l _ _ ⟨before, rfl, rfl⟩
    exact (hvisit l before).reacts hfields hrules
  apply value_delimited_eq_error_iff
  intro members e
  apply Listing.result_bind_eq_error_iff hreacts hstart
  rintro _ _ ⟨before, rfl, rfl⟩ e
  rw [hfinish, stopsAt_nil_iff]
  rfl

theorem init_value_eq_error_iff {tokens : List Token} {e : ParseError} :
    init.value tokens = .error e ↔ FailsInGroup .brace Listing.init.Fails tokens e := by
  apply slots_value_eq_error_iff InitSlots.visits_slot rfl
  · simp only [InitSlots.readers, List.forall_mem_cons]
    exact ⟨rfl, by simp⟩
  · intro before e
    apply filled_bind_eq_error_iff InitSlots.pathSlot.isSome_find_iff
    intro path
    simp [not_missing_nil, Pure.pure, Except.pure]

theorem idle_value_eq_error_iff {tokens : List Token} {e : ParseError} :
    idle.value tokens = .error e ↔ FailsInGroup .brace Listing.idle.Fails tokens e := by
  apply slots_value_eq_error_iff IdleSlots.visits_slot rfl
  · simp only [IdleSlots.readers, List.forall_mem_cons]
    exact ⟨rfl, rfl, rfl, by simp⟩
  · intro before e
    apply filled_bind_eq_error_iff IdleSlots.pathSlot.isSome_find_iff
    intro path
    simp [not_missing_nil, Pure.pure, Except.pure]

theorem task_value_eq_error_iff {tokens : List Token} {e : ParseError} :
    task.value tokens = .error e ↔ FailsInGroup .brace Listing.task.Fails tokens e := by
  apply slots_value_eq_error_iff TaskSlots.visits_slot rfl
  · simp only [TaskSlots.readers, List.forall_mem_cons]
    exact ⟨rfl, rfl, rfl, by simp⟩
  · intro before e
    simp [not_missing_nil]

/-- The map holds entries with these names, in the order in which they were listed. -/
def Holds {α : Type} (names : List Bytes) (map : NameMap α) : Prop :=
  ∃ listed, listed.map Prod.fst = names ∧ map.Lists listed

theorem holds_empty {α : Type} : Holds [] (.empty : NameMap α) := ⟨[], rfl, NameMap.lists_empty⟩

theorem Holds.contains_iff {α : Type} {names : List Bytes} {map : NameMap α} (h : Holds names map)
    {name : Bytes} : map.contains name = true ↔ name ∈ names := by
  obtain ⟨listed, rfl, hlists⟩ := h
  rw [← Bool.not_eq_false, hlists.contains_eq_false_iff, Classical.not_not]

theorem Holds.insert {α : Type} {names : List Bytes} {map : NameMap α} (h : Holds names map)
    {name : Bytes} (hnew : name ∉ names) (value : α) :
    Holds (names ++ [name]) (map.insert name value) := by
  obtain ⟨listed, rfl, hlists⟩ := h
  exact ⟨listed ++ [(name, value)], by simp, hlists.insert value hnew⟩

theorem visits_tasks : Listing.tasks.Visits visitTask Holds := by
  intro l seen before hbefore
  have hrule : Listing.tasks.rule? l.lexeme = some task.void := rfl
  constructor
  · intro hnone
    cases hnone
  · intro _ hseen tokens
    rw [visitTask, if_pos (hbefore.contains_iff.2 hseen)]
    rfl
  · intro rule tokens e hknown hnew he
    obtain rfl : task.void = rule := Option.some.inj (hrule.symm.trans hknown)
    have hnot : ¬before.contains l.lexeme = true := mt hbefore.contains_iff.1 hnew
    rw [visitTask, if_neg hnot]
    exact value_within_bind_of_error he (.task l.lexeme) _
  · intro rule tokens rest hknown hnew hrun
    obtain rfl : task.void = rule := Option.some.inj (hrule.symm.trans hknown)
    have hnot : ¬before.contains l.lexeme = true := mt hbefore.contains_iff.1 hnew
    obtain ⟨value, hvalue⟩ :=
      exists_run_within_bind hrun (.task l.lexeme) (before.insert l.lexeme)
    refine ⟨before.insert l.lexeme value, ?_, hbefore.insert hnew value⟩
    rw [visitTask, if_neg hnot]
    exact hvalue

theorem tasks_value_eq_error_iff {tokens : List Token} {e : ParseError} :
    tasks.value tokens = .error e ↔ FailsInGroup .brace Listing.tasks.Fails tokens e := by
  apply value_delimited_eq_error_iff
  intro members e
  rw [← bind_pure (Fields.read (.ofRules visitTask) .empty members).result]
  apply Listing.result_bind_eq_error_iff visits_tasks holds_empty
  intro seen state _ e
  simp [stopsAt_nil_iff, Listing.tasks, not_missing_nil, Pure.pure, Except.pure]

theorem app_value_eq_error_iff {tokens : List Token} {e : ParseError} :
    app.value tokens = .error e ↔ FailsInGroup .brace Listing.app.Fails tokens e := by
  apply slots_value_eq_error_iff AppSlots.visits_slot rfl
  · simp only [AppSlots.readers, List.forall_mem_cons]
    exact ⟨rfl, rfl, rfl, rfl, rfl, by simp⟩
  · intro before e
    apply filled_bind_eq_error_iff AppSlots.deviceSlot.isSome_find_iff
    intro device
    apply filled_bind_eq_error_iff AppSlots.idleSlot.isSome_find_iff
    intro idle
    apply filled_bind_eq_error_iff AppSlots.initSlot.isSome_find_iff
    intro init
    simp [not_missing_nil, Pure.pure, Except.pure]

end Grammar

/-! ## Storage -/

namespace Storage

/-- Entries with these names, all of them new and with accepted values, lead from the front of the
tokens to what is left. -/
inductive Walks (tokens : List Token) : List Bytes → List Token → Prop
  | start : Walks tokens [] tokens
  | entry {seen : List Bytes} {l : Leaf} {colon : Token} {behind rest : List Token}
      {value : Static} :
      Walks tokens seen (.leaf l :: colon :: behind) → l.kind = .ident → l.lexeme ∉ seen →
      colon.isLeaf .colon = true → Grammar.static.run behind = (.ok value, rest) →
      Walks tokens (seen ++ [l.lexeme]) rest

/-- What is wrong with the next entry when these names were listed before.  A name is looked up
before its colon is. -/
inductive StopsAt (seen : List Bytes) : List Token → ParseError → Prop
  | noName {first : Token} {rest : List Token} :
      first.ident? = none → StopsAt seen (first :: rest) (.ofCause (.wanted .ident (some first)))
  | duplicate {l : Leaf} {rest : List Token} :
      l.kind = .ident → l.lexeme ∈ seen →
      StopsAt seen (.leaf l :: rest) (.ofCause (.duplicateResource l.lexeme))
  | noColon {l : Leaf} {rest : List Token} :
      l.kind = .ident → l.lexeme ∉ seen → (∀ t ∈ rest.head?, t.isLeaf .colon = false) →
      StopsAt seen (.leaf l :: rest) (.ofCause (.wanted .colon rest.head?))
  | value {l : Leaf} {colon : Token} {behind : List Token} {e : ParseError} :
      l.kind = .ident → l.lexeme ∉ seen → colon.isLeaf .colon = true →
      Grammar.static.value behind = .error e →
      StopsAt seen (.leaf l :: colon :: behind) (e.within (.entry l.lexeme))

/-- The first thing that is wrong with the entries of storage. -/
def Fails (members : List Token) (e : ParseError) : Prop :=
  ∃ seen left, Walks members seen left ∧ StopsAt seen left e

end Storage

namespace Grammar

open Rule

theorem readStatics_of_walks {tokens left : List Token} {seen : List Bytes}
    (h : Storage.Walks tokens seen left) :
    ∃ before, Holds seen before ∧ readStatics .empty tokens = readStatics before left := by
  induction h with
  | start => exact ⟨.empty, holds_empty, rfl⟩
  | @entry seen l colon behind rest value _ hname hnew hcolon hvalue ih =>
      obtain ⟨before, hbefore, hread⟩ := ih
      refine ⟨before.insert l.lexeme value, hbefore.insert hnew value, ?_⟩
      have hnot : before.contains l.lexeme = false := by
        rw [← Bool.not_eq_true, hbefore.contains_iff]
        exact hnew
      rw [hread, readStatics_entry hname hnot hcolon, hvalue]

theorem readStatics_of_stopsAt {before : Statics} {seen : List Bytes} (hbefore : Holds seen before)
    {left : List Token} {e : ParseError} (h : Storage.StopsAt seen left e) :
    readStatics before left = .error e := by
  cases h with
  | noName hident => rw [readStatics, hident]
  | @duplicate l rest hname hseen =>
      have hident : (Token.leaf l).ident? = some l := Token.ident?_eq_some.2 ⟨rfl, hname⟩
      rw [readStatics, hident]
      exact if_pos (hbefore.contains_iff.2 hseen)
  | @noColon l rest hname hnew hcolon =>
      have hident : (Token.leaf l).ident? = some l := Token.ident?_eq_some.2 ⟨rfl, hname⟩
      have hnot : ¬before.contains l.lexeme = true := mt hbefore.contains_iff.1 hnew
      cases rest with
      | nil =>
          rw [readStatics, hident]
          exact if_neg hnot
      | cons second rest =>
          have hsecond : ¬second.isLeaf .colon = true := by simp [hcolon second rfl]
          rw [readStatics, hident]
          simp only [if_neg hnot, if_neg hsecond]
          rfl
  | @value l colon behind e hname hnew hcolon hvalue =>
      have hnot : before.contains l.lexeme = false := by
        rw [← Bool.not_eq_true, hbefore.contains_iff]
        exact hnew
      rcases hrun : static.run behind with ⟨result, rest⟩
      rw [Rule.value, hrun] at hvalue
      obtain rfl : result = .error e := hvalue
      rw [readStatics_entry hname hnot hcolon, hrun]

theorem fails_of_readStatics {all : List Token} {e : ParseError} (before : Statics)
    (tokens : List Token) :
    ∀ {seen}, Holds seen before → Storage.Walks all seen tokens →
      readStatics before tokens = .error e → Storage.Fails all e := by
  -- the walk to the tokens that are left is carried along; its names are those of the map
  fun_induction readStatics before tokens with
  | case1 before =>
      intro seen _ _ h
      cases h
  | case2 before first afterName hident =>
      intro seen _ hwalks h
      cases h
      exact ⟨seen, _, hwalks, .noName hident⟩
  | case3 before first afterName l hident hlisted =>
      intro seen hbefore hwalks h
      cases h
      obtain ⟨rfl, hname⟩ := Token.ident?_eq_some.1 hident
      exact ⟨seen, _, hwalks, .duplicate hname (hbefore.contains_iff.1 hlisted)⟩
  | case4 before first l hident hnot =>
      intro seen hbefore hwalks h
      cases h
      obtain ⟨rfl, hname⟩ := Token.ident?_eq_some.1 hident
      exact ⟨seen, _, hwalks, .noColon hname (mt hbefore.contains_iff.2 hnot) (by simp)⟩
  | case5 before first l hident hnot colon tokens hcolon error rest hread =>
      intro seen hbefore hwalks h
      cases h
      obtain ⟨rfl, hname⟩ := Token.ident?_eq_some.1 hident
      exact ⟨seen, _, hwalks, .value hname (mt hbefore.contains_iff.2 hnot) hcolon
        (congrArg Prod.fst hread)⟩
  | case6 before first l hident hnot colon tokens hcolon value rest hread ih =>
      intro seen hbefore hwalks h
      obtain ⟨rfl, hname⟩ := Token.ident?_eq_some.1 hident
      have hnew := mt hbefore.contains_iff.2 hnot
      exact ih (hbefore.insert hnew value) (.entry hwalks hname hnew hcolon hread) h
  | case7 before first l hident hnot second tokens hcolon =>
      intro seen hbefore hwalks h
      cases h
      obtain ⟨rfl, hname⟩ := Token.ident?_eq_some.1 hident
      exact ⟨seen, _, hwalks,
        .noColon hname (mt hbefore.contains_iff.2 hnot) (by simpa using hcolon)⟩

theorem statics_value_eq_error_iff {tokens : List Token} {e : ParseError} :
    statics.value tokens = .error e ↔ FailsInGroup .brace Storage.Fails tokens e := by
  apply value_delimited_eq_error_iff
  intro members e
  constructor
  · exact fails_of_readStatics .empty members holds_empty .start
  · rintro ⟨seen, left, hwalks, hstop⟩
    obtain ⟨before, hbefore, hread⟩ := readStatics_of_walks hwalks
    rw [hread]
    exact readStatics_of_stopsAt hbefore hstop

end Grammar

end RealtimeApp
