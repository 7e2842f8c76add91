import RealtimeApp.Proofs.WrittenForm

/-!
# The fragments of an application

The paths, types and initial values of a described application consist of tokens that stand in
its description, so what is true of these tokens and of their members is true of the fragments
(`App.fragmentsHave_of_isDescription`).
-/

namespace RealtimeApp

/-! ## All fragments -/

/-- The type and the initial value have the property `Q`. -/
structure Static.FragmentsHave (Q : Fragment → Prop) (item : Static) : Prop where
  type : Q item.type
  initial : Q item.initial

/-- All fragments of an application have the property `Q`. -/
structure App.FragmentsHave (Q : Fragment → Prop) (app : App) : Prop where
  device : Q app.device
  init : Q app.init.path
  idle : Q app.idle.path
  locals : ∀ entry ∈ app.idle.locals.entries, entry.2.FragmentsHave Q
  resources : ∀ entry ∈ app.resources.entries, entry.2.FragmentsHave Q

theorem Static.FragmentsHave.imp {Q Q' : Fragment → Prop}
    (hQ : ∀ fragment, Q fragment → Q' fragment) {item : Static} (h : item.FragmentsHave Q) :
    item.FragmentsHave Q' :=
  ⟨hQ _ h.type, hQ _ h.initial⟩

theorem App.FragmentsHave.imp {Q Q' : Fragment → Prop} (hQ : ∀ fragment, Q fragment → Q' fragment)
    {app : App} (h : app.FragmentsHave Q) : app.FragmentsHave Q' :=
  ⟨hQ _ h.device, hQ _ h.init, hQ _ h.idle, fun entry hentry => (h.locals entry hentry).imp hQ,
    fun entry hentry => (h.resources entry hentry).imp hQ⟩

/-! ## Written forms -/

namespace Written

section Lists

variable {α F : Type}

/-- An item of a list is written with some of the tokens of the list. -/
theorem Commas.exists_run {Item : α → List Token → Prop} {items : List α} {tokens : List Token}
    (h : Commas Item items tokens) {a : α} (ha : a ∈ items) :
    ∃ run, Item a run ∧ ∀ t ∈ run, t ∈ tokens := by
  induction h with
  | nil => cases ha
  | @last b run hb =>
      obtain rfl := List.mem_singleton.1 ha
      exact ⟨run, hb, fun t ht => ht⟩
  | @cons b run rest comma others hb _ _ ih =>
      rcases List.mem_cons.1 ha with rfl | ha
      · exact ⟨run, hb, fun t ht => List.mem_append_left _ ht⟩
      · obtain ⟨run', hrun', hmem⟩ := ih ha
        exact ⟨run', hrun', fun t ht =>
          List.mem_append_right _ (List.mem_cons_of_mem _ (hmem t ht))⟩

/-- The value of a field is written with some of the tokens of the fields. -/
theorem AreFields.exists_value {key : F → Bytes} {Value : F → List Token → Prop}
    {fields : List F} {tokens : List Token} (h : AreFields key Value fields tokens) {field : F}
    (hfield : field ∈ fields) : ∃ run, Value field run ∧ ∀ t ∈ run, t ∈ tokens := by
  obtain ⟨_, ⟨name, colon, run, rfl, -, -, hvalue⟩, hmem⟩ := h.listed.exists_run hfield
  exact ⟨run, hvalue, fun t ht =>
    hmem t (List.mem_cons_of_mem _ (List.mem_cons_of_mem _ ht))⟩

end Lists

/-- A property of tokens that groups hand down to their members. -/
def HandedDown (Q : Token → Prop) : Prop :=
  ∀ d position members, Q (.group d position members) → ∀ t ∈ members, Q t

section Fragments

variable {Q : Token → Prop}

theorem Group.exists_members {α : Type} {d : Delimiter} {Form : α → List Token → Prop} {a : α}
    {tokens : List Token} (h : Group d Form a tokens) (hQ : HandedDown Q)
    (htokens : ∀ t ∈ tokens, Q t) : ∃ members, Form a members ∧ ∀ t ∈ members, Q t := by
  obtain ⟨position, members, rfl, hform⟩ := h
  exact ⟨members, hform, hQ d position members (htokens _ List.mem_cons_self)⟩

theorem IsStaticEntries.fragmentsHave {entries : List (Bytes × Static)} {tokens : List Token}
    (h : IsStaticEntries entries tokens) (htokens : ∀ t ∈ tokens, Q t) :
    ∀ entry ∈ entries, entry.2.FragmentsHave fun fragment => ∀ t ∈ fragment, Q t := by
  induction h with
  | nil =>
      intro entry hentry
      cases hentry
  | cons _ _ _ _ _ _ _ ih =>
      intro entry hentry
      rcases List.mem_cons.1 hentry with rfl | hentry
      · constructor
        · intro t ht
          exact htokens t (by simp [ht])
        · intro t ht
          exact htokens t (by simp [ht])
      · exact ih (fun t ht => htokens t (by simp [ht])) entry hentry

theorem AreStatics.fragmentsHave {statics : Statics} {tokens : List Token}
    (h : AreStatics statics tokens) (htokens : ∀ t ∈ tokens, Q t) :
    ∀ entry ∈ statics.entries, entry.2.FragmentsHave fun fragment => ∀ t ∈ fragment, Q t := by
  obtain ⟨entries, hentries, hlists⟩ := h
  intro entry hentry
  exact hentries.fragmentsHave htokens entry ((hlists.mem entry).1 hentry)

/-- Storage that a field may give has the property of the tokens, and storage that none gives is
empty. -/
theorem GivenOr.fragmentsHave {F : Type} {key : F → Bytes} {Value : F → List Token → Prop}
    {fields : List F} {tokens : List Token} {make : Statics → F} {statics : Statics}
    (h : GivenOr fields make .empty statics) (hfields : AreFields key Value fields tokens)
    (hvalue : ∀ value run, Value (make value) run → Group .brace AreStatics value run)
    (hQ : HandedDown Q) (htokens : ∀ t ∈ tokens, Q t) :
    ∀ entry ∈ statics.entries, entry.2.FragmentsHave fun fragment => ∀ t ∈ fragment, Q t := by
  rcases h with hgiven | ⟨-, rfl⟩
  · obtain ⟨run, hrun, hmem⟩ := hfields.exists_value hgiven
    obtain ⟨members, hmembers, hQmembers⟩ :=
      (hvalue _ _ hrun).exists_members hQ fun t ht => htokens t (hmem t ht)
    exact hmembers.fragmentsHave hQmembers
  · intro entry hentry
    cases hentry

end Fragments
end Written

open Written

/-- What groups hand down to their members, and holds of the tokens of a description, holds of all
tokens in the fragments of the application. -/
theorem App.fragmentsHave_of_isDescription {Q : Token → Prop} (hQ : HandedDown Q) {app : App}
    {tokens : List Token} (h : IsDescription app tokens) (htokens : ∀ t ∈ tokens, Q t) :
    app.FragmentsHave fun fragment => ∀ t ∈ fragment, Q t := by
  obtain ⟨members, ⟨fields, hfields, hdescribe⟩, hmembers⟩ := Group.exists_members h hQ htokens
  have hvalue : ∀ field ∈ fields, ∃ run, AppField.Value field run ∧ ∀ t ∈ run, Q t := by
    intro field hfield
    obtain ⟨run, hrun, hmem⟩ := hfields.exists_value hfield
    exact ⟨run, hrun, fun t ht => hmembers t (hmem t ht)⟩
  obtain ⟨_, ⟨rfl, -⟩, hdevice⟩ := hvalue _ hdescribe.device
  obtain ⟨_, hinit, hinitTokens⟩ := hvalue _ hdescribe.init
  obtain ⟨_, hidle, hidleTokens⟩ := hvalue _ hdescribe.idle
  obtain ⟨initTokens, ⟨initFields, hinitFields, hinitPath⟩, hinitTokens⟩ :=
    Group.exists_members hinit hQ hinitTokens
  obtain ⟨idleTokens, ⟨idleFields, hidleFields, hidleDescribe⟩, hidleTokens⟩ :=
    Group.exists_members hidle hQ hidleTokens
  constructor
  · exact hdevice
  · obtain ⟨_, ⟨rfl, -⟩, hmem⟩ := hinitFields.exists_value hinitPath
    exact fun t ht => hinitTokens t (hmem t ht)
  · obtain ⟨_, ⟨rfl, -⟩, hmem⟩ := hidleFields.exists_value hidleDescribe.path
    exact fun t ht => hidleTokens t (hmem t ht)
  · exact hidleDescribe.locals.fragmentsHave hidleFields (fun _ _ h => h) hQ hidleTokens
  · exact hdescribe.resources.fragmentsHave hfields (fun _ _ h => h) hQ hmembers

end RealtimeApp
