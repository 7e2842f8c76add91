import RealtimeApp.Operation
import RealtimeApp.Proofs.LogState
import RealtimeApp.Proofs.SettingsReading

/-!
# What the operations of a session do

Each operation is described once (`Session.performed_perform`): what it answers, what it leaves
of the manager, and that all else are messages.  An application comes from a text that is read
from the files (`FileTree.Reads`), and settings from a document in them
(`DocumentFormat.SettingsAt`).  What every call of logging keeps is kept by every operation that
leaves the files alone (`Session.host_perform`).
-/

namespace RealtimeApp

/-! ## Files -/

/-- The text that is read where a path leads; a directory reads as an empty text. -/
inductive FileTree.Reads (files : FileTree) (path : Bytes) : Bytes → Prop
  | file {place : Place} {text : Bytes} : files.find path = .present place (.file text) →
      Reads files path text
  | directory {place : Place} : files.find path = .present place .directory → Reads files path []

/-- What is said where no text is read. -/
inductive FileTree.Unreadable (files : FileTree) (path : Bytes) : Bytes → Prop
  | missing : (∀ place entry, files.find path ≠ .present place entry) →
      Unreadable files path (Bytes.ofString "application file not found: " ++ path)
  | locked {place : Place} : files.find path = .present place .locked →
      Unreadable files path (Bytes.ofString "cannot open application file: " ++ path)

theorem FileTree.reads_or_unreadable (files : FileTree) (path : Bytes) :
    (∃ text, files.Reads path text) ∨ ∃ message, files.Unreadable path message := by
  cases hfind : files.find path with
  | present place entry =>
      cases entry with
      | file text => exact .inl ⟨text, .file hfind⟩
      | directory => exact .inl ⟨[], .directory hfind⟩
      | locked => exact .inr ⟨_, .locked hfind⟩
  | absent place => exact .inr ⟨_, .missing (by simp [hfind])⟩
  | unreachable => exact .inr ⟨_, .missing (by simp [hfind])⟩
  | tooLong => exact .inr ⟨_, .missing (by simp [hfind])⟩

theorem FileTree.Reads.unique {files : FileTree} {path first second : Bytes}
    (h : files.Reads path first) (h' : files.Reads path second) : first = second := by
  cases h with
  | file hfind =>
      cases h' with
      | file hfind' =>
          rw [hfind] at hfind'
          cases hfind'
          rfl
      | directory hfind' =>
          rw [hfind] at hfind'
          cases hfind'
  | directory hfind =>
      cases h' with
      | file hfind' =>
          rw [hfind] at hfind'
          cases hfind'
      | directory hfind' => rfl

/-- The text that an operation loads an application from. -/
inductive Operation.TextIs (files : FileTree) : Operation → Bytes → Prop
  | given (source origin : Bytes) : TextIs files (.parseApplication source origin) source
  | read {path text : Bytes} : files.Reads path text → TextIs files (.loadApplication path) text

namespace DocumentFormat

/-- The document that is read where a path leads. -/
def DocumentAt (format : DocumentFormat) (files : FileTree) (path : Bytes)
    (document : format.Node) : Prop :=
  ∃ text, files.Reads path text ∧ format.read text = .ok document

/-- The settings that the document describes to which a path leads. -/
def SettingsAt (format : DocumentFormat) (files : FileTree) (path : Bytes)
    (settings : Settings) : Prop :=
  ∃ document, format.DocumentAt files path document ∧ format.Describes document settings

variable {format : DocumentFormat}

theorem Describes.unique {document : format.Node} {first second : Settings}
    (h : format.Describes document first) (h' : format.Describes document second) :
    first = second := by
  rw [← Settings.ofDocument_eq_ok_iff] at h h'
  exact Except.ok.inj (h.symm.trans h')

theorem ofText_eq_ok_iff {text : Bytes} {settings : Settings} :
    Settings.ofText format text = .ok settings ↔
      ∃ document, format.read text = .ok document ∧ format.Describes document settings := by
  rw [Settings.ofText]
  cases hread : format.read text with
  | error fault => simp
  | ok document => simp [Settings.ofDocument_eq_ok_iff]

theorem settingsAt_iff {files : FileTree} {path : Bytes} {settings : Settings} :
    format.SettingsAt files path settings ↔
      ∃ place entry, files.find path = .present place entry ∧
        Session.settingsOf format path entry = .ok settings := by
  constructor
  · rintro ⟨document, ⟨text, hreads, hdocument⟩, hdescribes⟩
    have hsettings := ofText_eq_ok_iff.2 ⟨document, hdocument, hdescribes⟩
    cases hreads with
    | file hfind => exact ⟨_, _, hfind, hsettings⟩
    | directory hfind => exact ⟨_, _, hfind, hsettings⟩
  · rintro ⟨place, entry, hfind, hsettings⟩
    cases entry with
    | file text =>
        obtain ⟨document, hdocument, hdescribes⟩ := ofText_eq_ok_iff.1 hsettings
        exact ⟨document, ⟨text, .file hfind, hdocument⟩, hdescribes⟩
    | directory =>
        obtain ⟨document, hdocument, hdescribes⟩ := ofText_eq_ok_iff.1 hsettings
        exact ⟨document, ⟨[], .directory hfind, hdocument⟩, hdescribes⟩
    | locked => cases hsettings

end DocumentFormat

/-! ## Descriptions -/

theorem Refusal.chain_ne_nil (refusal : Refusal) : refusal.chain ≠ [] := by
  cases refusal with
  | ofSource faults => exact List.cons_ne_nil _ _
  | ofGrammar error => simp [Refusal.chain, ParseError.chain]

namespace Description

theorem parse_of_ok {source : Bytes} {limit : Int} {app : App}
    (h : App.ofSource source limit = .ok app) :
    (ofSource source limit).parse.1 = some app ∧ (ofSource source limit).parse.2.errors = [] := by
  rw [App.ofSource] at h
  simp only [ofSource, parse, h]
  exact ⟨trivial, trivial⟩

theorem parse_of_error {source : Bytes} {limit : Int} {refusal : Refusal}
    (h : App.ofSource source limit = .error refusal) :
    (ofSource source limit).parse.1 = none ∧
      (ofSource source limit).parse.2.errors = refusal.chain := by
  rw [App.ofSource] at h
  simp only [ofSource, parse, h]
  exact ⟨trivial, trivial⟩

/-- An attempt gives either an application or messages. -/
theorem errors_parse_eq_nil_iff (description : Description) :
    description.parse.2.errors = [] ↔ description.parse.1.isSome := by
  rw [parse]
  cases App.ofReading description.tokens description.faults with
  | ok app => simp
  | error refusal => simp [refusal.chain_ne_nil]

end Description

namespace Session

/-! ## Applications -/

@[simp] theorem manager_write (session : Session) (level : Level) (text : Bytes) :
    (session.write level text).manager = session.manager := rfl

theorem foldl_write (session : Session) (level : Level) (texts : List Bytes) (f : Bytes → Bytes) :
    texts.foldl (fun session text => session.write level (f text)) session =
      { session with
        host := session.host.writeAll (texts.map fun text => ⟨level, f text⟩) } := by
  induction texts generalizing session with
  | nil => rfl
  | cons text texts ih => exact ih _

/-- Reading an application from a text leaves what the parser says about it. -/
theorem parseApplication_eq (session : Session) (source origin : Bytes) :
    ∃ messages, session.parseApplication source origin =
      ((Description.ofSource source session.manager.settings.maxNestingDepth).parse.1.isSome,
        ⟨session.host.writeAll messages,
          { session.manager with
            application :=
              (Description.ofSource source session.manager.settings.maxNestingDepth).parse.1
            errors := (Description.ofSource source
              session.manager.settings.maxNestingDepth).parse.2.errors }⟩) := by
  generalize hlimit : session.manager.settings.maxNestingDepth = limit
  cases hsource : App.ofSource source limit with
  | ok app =>
      obtain ⟨happ, herrors⟩ := Description.parse_of_ok hsource
      rw [happ, herrors]
      simp only [parseApplication, manager_write, hlimit, hsource]
      exact ⟨[⟨_, _⟩, ⟨_, _⟩], rfl⟩
  | error refusal =>
      obtain ⟨happ, herrors⟩ := Description.parse_of_error hsource
      rw [happ, herrors]
      simp only [parseApplication, manager_write, hlimit, hsource, foldl_write]
      exact ⟨⟨_, _⟩ :: _, rfl⟩

theorem readApplication_eq_ok_iff {session : Session} {path text : Bytes} :
    session.readApplication path = .ok text ↔ session.host.files.Reads path text := by
  rw [readApplication]
  constructor
  · intro h
    split at h
    · rename_i hfind
      obtain rfl := Except.ok.inj h
      exact .file hfind
    · rename_i hfind
      obtain rfl := Except.ok.inj h
      exact .directory hfind
    · cases h
    · cases h
    · cases h
    · cases h
  · intro h
    cases h with
    | file hfind => rw [hfind]
    | directory hfind => rw [hfind]

theorem loadApplication_of_reads {session : Session} {path text : Bytes}
    (h : session.host.files.Reads path text) :
    session.loadApplication path = session.parseApplication text path := by
  rw [loadApplication, readApplication_eq_ok_iff.2 h]

/-- A file that cannot be read leaves one message. -/
theorem readApplication_of_unreadable {session : Session} {path message : Bytes}
    (h : session.host.files.Unreadable path message) :
    ∃ messages, session.readApplication path = .error ⟨session.host.writeAll messages,
      { session.manager with application := none, errors := [message] }⟩ := by
  rw [readApplication]
  cases h with
  | missing hfind =>
      split
      · exact absurd ‹_› (hfind _ _)
      · exact absurd ‹_› (hfind _ _)
      · exact absurd ‹_› (hfind _ _)
      · exact ⟨[⟨_, _⟩], rfl⟩
      · exact ⟨[⟨_, _⟩], rfl⟩
      · exact ⟨[⟨_, _⟩], rfl⟩
  | locked hfind =>
      rw [hfind]
      exact ⟨[⟨_, _⟩], rfl⟩

theorem loadApplication_of_unreadable {session : Session} {path message : Bytes}
    (h : session.host.files.Unreadable path message) :
    ∃ messages, session.loadApplication path = (false, ⟨session.host.writeAll messages,
      { session.manager with application := none, errors := [message] }⟩) := by
  obtain ⟨messages, hread⟩ := readApplication_of_unreadable h
  exact ⟨messages, by rw [loadApplication, hread]⟩

/-- Loading a text comes to what parsing it with the limit in force comes to. -/
theorem perform_of_textIs (format : DocumentFormat) {session : Session} {operation : Operation}
    {text : Bytes} (h : operation.TextIs session.host.files text) :
    ∃ messages, session.perform format operation =
      (.done (Description.ofSource text
          session.manager.settings.maxNestingDepth).parse.1.isSome,
        ⟨session.host.writeAll messages,
          { session.manager with
            application :=
              (Description.ofSource text session.manager.settings.maxNestingDepth).parse.1
            errors := (Description.ofSource text
              session.manager.settings.maxNestingDepth).parse.2.errors }⟩) := by
  cases h with
  | given source origin =>
      obtain ⟨messages, hparse⟩ := session.parseApplication_eq text origin
      exact ⟨messages, by rw [perform, hparse]⟩
  | @read path text hreads =>
      obtain ⟨messages, hparse⟩ := session.parseApplication_eq text path
      exact ⟨messages, by rw [perform, loadApplication_of_reads hreads, hparse]⟩

/-! ## Settings -/

/-- Settings that are there are taken over, between two messages. -/
theorem loadSettingsAs_of_settingsAt {format : DocumentFormat} {session : Session} {path : Bytes}
    {settings : Settings} (h : format.SettingsAt session.host.files path settings) :
    ∃ first last : Message, session.loadSettingsAs format path = (true,
      ⟨(applyLogging (session.host.write first.level first.text) settings.logging).write
          last.level last.text,
        { session.manager with settings := settings }⟩) := by
  obtain ⟨place, entry, hfind, hsettings⟩ := DocumentFormat.settingsAt_iff.1 h
  simp only [loadSettingsAs, hfind, hsettings]
  exact ⟨⟨_, _⟩, ⟨_, _⟩, rfl⟩

/-- Where there are none, messages are all that happens. -/
theorem loadSettingsAs_of_not_settingsAt {format : DocumentFormat} {session : Session}
    {path : Bytes} (h : ∀ settings, ¬ format.SettingsAt session.host.files path settings) :
    ∃ messages, session.loadSettingsAs format path =
      (false, ⟨session.host.writeAll messages, session.manager⟩) := by
  rw [loadSettingsAs]
  split
  · exact ⟨[⟨_, _⟩], rfl⟩
  · exact ⟨[⟨_, _⟩], rfl⟩
  · exact ⟨[⟨_, _⟩], rfl⟩
  · rename_i place entry hfind
    cases hsettings : settingsOf format path entry with
    | error fault => exact ⟨[⟨_, _⟩, ⟨_, _⟩], rfl⟩
    | ok settings =>
        exact absurd (DocumentFormat.settingsAt_iff.2 ⟨place, entry, hfind, hsettings⟩) (h settings)

/-- Loading says whether there are settings. -/
theorem fst_loadSettingsAs_iff {format : DocumentFormat} {session : Session} {path : Bytes} :
    (session.loadSettingsAs format path).1 = true ↔
      ∃ settings, format.SettingsAt session.host.files path settings := by
  constructor
  · intro h
    by_cases hsome : ∃ settings, format.SettingsAt session.host.files path settings
    · exact hsome
    · obtain ⟨messages, hload⟩ := loadSettingsAs_of_not_settingsAt (not_exists.1 hsome)
      rw [hload] at h
      cases h
  · rintro ⟨settings, hsettings⟩
    obtain ⟨first, last, hload⟩ := loadSettingsAs_of_settingsAt hsettings
    rw [hload]

/-! ## All operations -/

/-- What an operation comes to, with its answer: settings are loaded or refused, an application
is read from a text or there is no text, and all else is plain. -/
inductive Performed (format : DocumentFormat) (session : Session) :
    Operation → Answer × Session → Prop
  | settingsLoaded {path : Bytes} {settings : Settings} {first last : Message} :
      format.SettingsAt session.host.files path settings →
      Performed format session (.loadSettings path) (.done true,
        ⟨(applyLogging (session.host.write first.level first.text) settings.logging).write
            last.level last.text,
          { session.manager with settings := settings }⟩)
  | settingsRefused {path : Bytes} {messages : List Message} :
      (∀ settings, ¬ format.SettingsAt session.host.files path settings) →
      Performed format session (.loadSettings path)
        (.done false, ⟨session.host.writeAll messages, session.manager⟩)
  | parsed {operation : Operation} {text : Bytes} {messages : List Message} :
      operation.TextIs session.host.files text →
      Performed format session operation
        (.done (Description.ofSource text
            session.manager.settings.maxNestingDepth).parse.1.isSome,
          ⟨session.host.writeAll messages,
            { session.manager with
              application :=
                (Description.ofSource text session.manager.settings.maxNestingDepth).parse.1
              errors := (Description.ofSource text
                session.manager.settings.maxNestingDepth).parse.2.errors }⟩)
  | unreadable {path message : Bytes} {messages : List Message} :
      session.host.files.Unreadable path message →
      Performed format session (.loadApplication path) (.done false,
        ⟨session.host.writeAll messages,
          { session.manager with application := none, errors := [message] }⟩)
  | cleared : Performed format session .clearApplication (.nothing, session.clearApplication)
  | asked {question : Question} :
      Performed format session (.ask question) (session.answerTo question, session)
  | filesChanged {files : FileTree} : Performed format session (.changeFiles files)
      (.nothing, { session with host := { session.host with files := files } })
  | logged {call : LogCall} : Performed format session (.log call)
      (.nothing, { session with host := session.host.call call })

theorem performed_perform (format : DocumentFormat) (session : Session) (operation : Operation) :
    Performed format session operation (session.perform format operation) := by
  cases operation with
  | loadSettings path =>
      by_cases hsome : ∃ settings, format.SettingsAt session.host.files path settings
      · obtain ⟨settings, hsettings⟩ := hsome
        obtain ⟨first, last, hload⟩ := loadSettingsAs_of_settingsAt hsettings
        rw [perform, hload]
        exact .settingsLoaded hsettings
      · obtain ⟨messages, hload⟩ := loadSettingsAs_of_not_settingsAt (not_exists.1 hsome)
        rw [perform, hload]
        exact .settingsRefused (not_exists.1 hsome)
  | loadApplication path =>
      obtain ⟨text, hreads⟩ | ⟨message, hunreadable⟩ :=
        session.host.files.reads_or_unreadable path
      · obtain ⟨messages, hparse⟩ := perform_of_textIs format (.read hreads)
        rw [hparse]
        exact .parsed (.read hreads)
      · obtain ⟨messages, hload⟩ := loadApplication_of_unreadable hunreadable
        rw [perform, hload]
        exact .unreadable hunreadable
  | parseApplication source origin =>
      have htext : Operation.TextIs session.host.files (.parseApplication source origin) source :=
        .given source origin
      obtain ⟨messages, hparse⟩ := perform_of_textIs format htext
      rw [hparse]
      exact .parsed htext
  | clearApplication => exact .cleared
  | ask question => exact .asked
  | changeFiles files => exact .filesChanged
  | log call => exact .logged

/-- What every call of logging keeps is kept by everything that leaves the files alone. -/
theorem host_perform {p : Host → Prop}
    (hcall : ∀ host call, p host → p (Host.call host call)) {format : DocumentFormat}
    {session : Session} (h : p session.host) {operation : Operation}
    (hfiles : ∀ files, operation = .changeFiles files → p { session.host with files := files }) :
    p (session.perform format operation).2.host := by
  have hperformed := performed_perform format session operation
  generalize session.perform format operation = performed at hperformed
  cases hperformed with
  | @settingsLoaded path settings first last hsettings =>
      -- The first message, the log brought in line with the settings, and the last message.
      have hfirst := hcall _ (.write first.level first.text) h
      refine hcall _ (.write last.level last.text) ?_
      rw [applyLogging]
      split
      · exact hcall _ (.setLevel settings.logging.level) hfirst
      · exact hcall _ (.init (planOf settings.logging)) hfirst
  | settingsRefused | parsed | unreadable => exact Host.writeAll_induction hcall h _
  | cleared | asked => exact h
  | filesChanged => exact hfiles _ rfl
  | logged => exact hcall _ _ h

/-- Logging stays sound. -/
theorem sound_perform {format : DocumentFormat} {session : Session} (h : session.host.log.Sound)
    (operation : Operation) : (session.perform format operation).2.host.log.Sound :=
  host_perform (p := fun host => host.log.Sound) (fun _ call hhost => Host.sound_call hhost call) h
    fun _ _ => h

end Session

end RealtimeApp
