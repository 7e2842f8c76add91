import Mathlib.Data.List.Induction
import RealtimeApp.Proofs.SettingsLoading

/-!
# Which application a session keeps

The application and the messages of a session are decided by the last operation that loads or
clears the application, with the text that it read and the limit on nesting that was in force
then (`application_of_last_load`).  The limit is that of the settings loaded last.  Nothing that
happens before or afterwards matters, and of the application and the messages one at most is
there.
-/

namespace RealtimeApp

namespace Operation

/-- Does the operation load an application? -/
def loads : Operation → Bool
  | .loadApplication _ => true
  | .parseApplication _ _ => true
  | _ => false

/-- Does the operation decide which application there is? -/
def decides : Operation → Bool
  | .clearApplication => true
  | operation => operation.loads

/-- The application and the messages that an operation comes to, over files and with a limit on
nesting in force. -/
inductive Decides (files : FileTree) (limit : Int) :
    Operation → Option App → List Bytes → Prop
  | cleared : Decides files limit .clearApplication none []
  | accepted {operation : Operation} {text : Bytes} {app : App} :
      operation.TextIs files text → (Description.ofSource text limit).parse.1 = some app →
      Decides files limit operation (some app) []
  | refused {operation : Operation} {text : Bytes} :
      operation.TextIs files text → (Description.ofSource text limit).parse.1 = none →
      Decides files limit operation none (Description.ofSource text limit).parse.2.errors
  | unreadable {path message : Bytes} : files.Unreadable path message →
      Decides files limit (.loadApplication path) none [message]

end Operation

namespace Session

/-- None of the operations loads settings successfully. -/
def NoneLoaded (format : DocumentFormat) (session : Session) : List Operation → Prop
  | [] => True
  | operation :: rest =>
    (∀ path, operation = .loadSettings path → (session.loadSettingsAs format path).1 = false) ∧
      NoneLoaded format (session.perform format operation).2 rest

/-- The limit on nesting in force behind operations on a new session: that of the settings that
were loaded last, and 64 where none were. -/
inductive LimitAfter (format : DocumentFormat) (platform : Platform) (files : FileTree) :
    List Operation → Int → Prop
  | default {operations : List Operation} : NoneLoaded format (start platform files) operations →
      LimitAfter format platform files operations 64
  | loaded {before rest : List Operation} {path : Bytes} {left : Session} :
      (after format platform files before).loadSettingsAs format path = (true, left) →
      NoneLoaded format left rest →
      LimitAfter format platform files (before ++ .loadSettings path :: rest)
        left.manager.settings.maxNestingDepth

/-- The application and the messages that operations on a new session come to: those of the last
operation that decides them. -/
inductive Decided (format : DocumentFormat) (platform : Platform) (files : FileTree) :
    List Operation → Option App → List Bytes → Prop
  | undecided {operations : List Operation} :
      (∀ operation ∈ operations, operation.decides = false) →
      Decided format platform files operations none []
  | decided {before rest : List Operation} {last : Operation} {limit : Int}
      {application : Option App} {errors : List Bytes} :
      LimitAfter format platform files before limit →
      last.Decides (after format platform files before).host.files limit application errors →
      (∀ operation ∈ rest, operation.decides = false) →
      Decided format platform files (before ++ last :: rest) application errors

variable {format : DocumentFormat} {platform : Platform} {files : FileTree}

/-! ## The limit -/

theorem noneLoaded_append {session : Session} {first second : List Operation} :
    NoneLoaded format session (first ++ second) ↔
      NoneLoaded format session first ∧ NoneLoaded format (session.run format first) second := by
  induction first generalizing session with
  | nil => exact (and_iff_right trivial).symm
  | cons operation rest ih =>
      rw [List.cons_append, NoneLoaded, NoneLoaded, run_cons, ih, and_assoc]

theorem settings_run_of_noneLoaded {session : Session} {operations : List Operation}
    (h : NoneLoaded format session operations) :
    (session.run format operations).manager.settings = session.manager.settings := by
  induction operations generalizing session with
  | nil => rfl
  | cons operation rest ih =>
      rw [run_cons, ih h.2]
      apply settings_perform_of_not_settingsAt
      intro path settings hoperation hsettings
      have hdone := fst_loadSettingsAs_iff.2 ⟨settings, hsettings⟩
      rw [h.1 path hoperation] at hdone
      cases hdone

/-- An operation that loads no settings leaves the limit in force. -/
theorem LimitAfter.concat {operations : List Operation} {limit : Int}
    (h : LimitAfter format platform files operations limit) {operation : Operation}
    (hnone : NoneLoaded format (after format platform files operations) [operation]) :
    LimitAfter format platform files (operations ++ [operation]) limit := by
  cases h with
  | default hall => exact .default (noneLoaded_append.2 ⟨hall, hnone⟩)
  | @loaded before rest path left hload hrest =>
      have hleft : after format platform files (before ++ .loadSettings path :: rest) =
          left.run format rest := by
        rw [after_append, run_cons, perform, hload]
      rw [List.append_assoc, List.cons_append]
      rw [hleft] at hnone
      exact .loaded hload (noneLoaded_append.2 ⟨hrest, hnone⟩)

/-- The limit in force is the one in the settings of the session. -/
theorem limitAfter_iff {operations : List Operation} {limit : Int} :
    LimitAfter format platform files operations limit ↔
      limit = (after format platform files operations).manager.settings.maxNestingDepth := by
  constructor
  · intro h
    cases h with
    | default hall =>
        rw [after, settings_run_of_noneLoaded hall]
        rfl
    | loaded hload hrest =>
        rw [after_append, run_cons, perform, hload, settings_run_of_noneLoaded hrest]
  · rintro rfl
    -- By the last operation: it loads settings, or the limit before it is still in force.
    induction operations using List.reverseRecOn with
    | nil => exact .default trivial
    | append_singleton operations operation ih =>
        rw [after_concat]
        by_cases hload : ∃ path, operation = .loadSettings path ∧
            ((after format platform files operations).loadSettingsAs format path).1 = true
        · obtain ⟨path, rfl, hdone⟩ := hload
          exact .loaded (Prod.ext hdone rfl) trivial
        · have hnone : NoneLoaded format (after format platform files operations) [operation] := by
            refine ⟨fun path hoperation => ?_, trivial⟩
            rw [← Bool.not_eq_true]
            exact fun hdone => hload ⟨path, hoperation, hdone⟩
          have hsettings := settings_run_of_noneLoaded hnone
          rw [run_cons] at hsettings
          change _ = (after format platform files operations).manager.settings at hsettings
          exact (congrArg Settings.maxNestingDepth hsettings) ▸ ih.concat hnone

/-! ## One operation -/

/-- An operation that does not decide them leaves the application and the messages. -/
theorem kept_perform (format : DocumentFormat) (session : Session) {operation : Operation}
    (h : operation.decides = false) :
    (session.perform format operation).2.manager.application = session.manager.application ∧
      (session.perform format operation).2.manager.errors = session.manager.errors := by
  have hperformed := performed_perform format session operation
  generalize session.perform format operation = performed at hperformed
  cases hperformed with
  | settingsLoaded | settingsRefused | asked | filesChanged | logged => exact ⟨rfl, rfl⟩
  | parsed htext => cases htext <;> cases h
  | unreadable | cleared => cases h

theorem kept_run (format : DocumentFormat) (session : Session) {operations : List Operation}
    (h : ∀ operation ∈ operations, operation.decides = false) :
    (session.run format operations).manager.application = session.manager.application ∧
      (session.run format operations).manager.errors = session.manager.errors := by
  induction operations generalizing session with
  | nil => exact ⟨rfl, rfl⟩
  | cons operation rest ih =>
      obtain ⟨happlication, herrors⟩ :=
        kept_perform format session (h operation List.mem_cons_self)
      obtain ⟨happlication', herrors'⟩ :=
        ih (session.perform format operation).2 fun other hother =>
          h other (List.mem_cons_of_mem _ hother)
      exact ⟨happlication'.trans happlication, herrors'.trans herrors⟩

/-- An operation leaves what it decides. -/
theorem perform_of_decides (format : DocumentFormat) {session : Session} {operation : Operation}
    {application : Option App} {errors : List Bytes}
    (h : operation.Decides session.host.files session.manager.settings.maxNestingDepth
      application errors) :
    (session.perform format operation).2.manager.application = application ∧
      (session.perform format operation).2.manager.errors = errors := by
  cases h with
  | cleared => exact ⟨rfl, rfl⟩
  | accepted htext happ =>
      obtain ⟨messages, hperform⟩ := perform_of_textIs format htext
      rw [hperform]
      exact ⟨happ, (Description.errors_parse_eq_nil_iff _).2 (by rw [happ]; rfl)⟩
  | refused htext hnone =>
      obtain ⟨messages, hperform⟩ := perform_of_textIs format htext
      rw [hperform]
      exact ⟨hnone, rfl⟩
  | unreadable hunreadable =>
      obtain ⟨messages, hload⟩ := loadApplication_of_unreadable hunreadable
      rw [perform, hload]
      exact ⟨rfl, rfl⟩

/-- Every operation that decides comes to something, and leaves it. -/
theorem decides_perform {session : Session} {operation : Operation}
    (h : operation.decides = true) :
    operation.Decides session.host.files session.manager.settings.maxNestingDepth
      (session.perform format operation).2.manager.application
      (session.perform format operation).2.manager.errors := by
  have hperformed := performed_perform format session operation
  generalize session.perform format operation = performed at hperformed
  cases hperformed with
  | @parsed _ text messages htext =>
      simp only
      cases hparse : (Description.ofSource text
        session.manager.settings.maxNestingDepth).parse.1 with
      | some app =>
          rw [(Description.errors_parse_eq_nil_iff _).2 (by rw [hparse]; rfl)]
          exact .accepted htext hparse
      | none => exact .refused htext hparse
  | unreadable hunreadable => exact .unreadable hunreadable
  | cleared => exact .cleared
  | settingsLoaded | settingsRefused | asked | filesChanged | logged => cases h

/-- The answer of a load says whether there is an application, and messages say otherwise. -/
theorem answer_of_loads {session : Session} {operation : Operation}
    (h : operation.loads = true) :
    ∃ ok, (session.perform format operation).1 = .done ok ∧
      (ok = true ↔ (session.perform format operation).2.manager.application.isSome) ∧
      (ok = false ↔ (session.perform format operation).2.manager.errors ≠ []) := by
  have hperformed := performed_perform format session operation
  generalize session.perform format operation = performed at hperformed
  cases hperformed with
  | parsed =>
      refine ⟨_, rfl, Iff.rfl, ?_⟩
      rw [Ne, Description.errors_parse_eq_nil_iff, Bool.not_eq_true]
  | unreadable => exact ⟨false, rfl, by simp, by simp⟩
  | settingsLoaded | settingsRefused | cleared | asked | filesChanged | logged => cases h

/-! ## Runs -/

/-- An operation that does not decide leaves what was decided. -/
theorem Decided.concat {operations : List Operation} {application : Option App}
    {errors : List Bytes} (h : Decided format platform files operations application errors)
    {operation : Operation} (hkept : operation.decides = false) :
    Decided format platform files (operations ++ [operation]) application errors := by
  have hlater : ∀ others : List Operation, (∀ other ∈ others, other.decides = false) →
      ∀ other ∈ others ++ [operation], other.decides = false := by
    intro others hothers other hother
    rcases List.mem_append.1 hother with hother | hother
    · exact hothers other hother
    · rwa [List.mem_singleton.1 hother]
  cases h with
  | undecided hall => exact .undecided (hlater _ hall)
  | decided hlimit hdecides hrest =>
      rw [List.append_assoc, List.cons_append]
      exact .decided hlimit hdecides (hlater _ hrest)

theorem decided_iff {operations : List Operation} {application : Option App}
    {errors : List Bytes} :
    Decided format platform files operations application errors ↔
      application = (after format platform files operations).manager.application ∧
        errors = (after format platform files operations).manager.errors := by
  constructor
  · intro h
    cases h with
    | undecided hall =>
        obtain ⟨happlication, herrors⟩ :=
          kept_run format (start platform files) hall
        exact ⟨happlication.symm, herrors.symm⟩
    | @decided before rest last limit _ _ hlimit hdecides hrest =>
        rw [limitAfter_iff.1 hlimit] at hdecides
        rw [after_append, run_cons]
        obtain ⟨happlication, herrors⟩ := kept_run format
          ((after format platform files before).perform format last).2 hrest
        obtain ⟨happlication', herrors'⟩ := perform_of_decides format hdecides
        exact ⟨(happlication.trans happlication').symm, (herrors.trans herrors').symm⟩
  · rintro ⟨rfl, rfl⟩
    -- By the last operation: it decides, or what was decided before it stays.
    induction operations using List.reverseRecOn with
    | nil => exact .undecided fun _ hnone => absurd hnone List.not_mem_nil
    | append_singleton operations operation ih =>
        rw [after_concat]
        cases hdecides : operation.decides with
        | true => exact .decided (limitAfter_iff.2 rfl) (decides_perform hdecides) (by simp)
        | false =>
            obtain ⟨happlication, herrors⟩ := kept_perform format
              (after format platform files operations) hdecides
            rw [happlication, herrors]
            exact ih.concat hdecides

theorem Decided.none_or_nil {operations : List Operation} {application : Option App}
    {errors : List Bytes} (h : Decided format platform files operations application errors) :
    application = none ∨ errors = [] := by
  cases h with
  | undecided => exact .inl rfl
  | decided hlimit hdecides hrest =>
      cases hdecides with
      | cleared | refused | unreadable => exact .inl rfl
      | accepted => exact .inr rfl

/-- The application and the messages behind operations on a new session are those that the last
operation decided which loads or clears the application.  There is never an application with
messages, and a load that comes next says whether it leaves an application, or messages. -/
theorem application_of_last_load (format : DocumentFormat) (platform : Platform)
    (files : FileTree) (operations : List Operation) :
    let session := after format platform files operations
    (∀ application errors, Decided format platform files operations application errors ↔
      application = session.manager.application ∧ errors = session.manager.errors) ∧
    (session.manager.application = none ∨ session.manager.errors = []) ∧
    ∀ operation, operation.loads = true →
      ∃ ok, (session.perform format operation).1 = .done ok ∧
        (ok = true ↔ (session.perform format operation).2.manager.application.isSome) ∧
        (ok = false ↔ (session.perform format operation).2.manager.errors ≠ []) :=
  ⟨fun _ _ => decided_iff, (decided_iff.2 ⟨rfl, rfl⟩).none_or_nil, fun _ => answer_of_loads⟩

end Session

end RealtimeApp
