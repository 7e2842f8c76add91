import RealtimeApp.Document

/-!
# System settings

The settings stand in the section `system` of a document.  What the document leaves out, or
gives in a form that does not fit, has a default.  A section that cannot be asked for its keys,
and a limit on nesting below one, are refused.
-/

namespace RealtimeApp

/-- Where messages go, and which. -/
structure LogSettings where
  level : Bytes
  file : Bytes
  maxSizeMb : Int
  maxFiles : Int
  deriving DecidableEq, Repr

/-- The settings of the system. -/
structure Settings where
  version : Bytes
  logging : LogSettings
  maxNestingDepth : Int
  deriving DecidableEq, Repr

/-- Why a document has no settings. -/
inductive SettingsFault where
  | missingSystem
  | ofDocument (fault : DocumentFault)
  | shallow (maxNestingDepth : Int)
  deriving DecidableEq, Repr

/-- The logging settings where none are given. -/
def LogSettings.default : LogSettings :=
  ⟨Bytes.ofString "info", Bytes.ofString "logs/rtos_config.log", 10, 5⟩

/-- The settings where none are given. -/
def Settings.default : Settings := ⟨Bytes.ofString "1.0.0", .default, 64⟩

namespace Settings

variable (format : DocumentFormat)

/-- The logging settings of a section, which may be missing. -/
def readLogging : Option format.Node → Except DocumentFault LogSettings
  | none => .ok .default
  | some entries => do
    let level ←
      format.valueAt format.text? entries (Bytes.ofString "level") LogSettings.default.level
    let file ← format.valueAt format.text? entries (Bytes.ofString "file") LogSettings.default.file
    let maxSizeMb ← format.valueAt format.int? entries (Bytes.ofString "max_size_mb")
      LogSettings.default.maxSizeMb
    let maxFiles ←
      format.valueAt format.int? entries (Bytes.ofString "max_files") LogSettings.default.maxFiles
    return ⟨level, file, maxSizeMb, maxFiles⟩

/-- The limit on nesting of a section, which may be missing. -/
def readDepth : Option format.Node → Except DocumentFault Int
  | none => .ok Settings.default.maxNestingDepth
  | some entries =>
    format.valueAt format.int? entries (Bytes.ofString "max_nesting_depth")
      Settings.default.maxNestingDepth

/-- The settings of the section `system`, whatever the limit on nesting is. -/
def readSystem (node : format.Node) : Except DocumentFault Settings := do
  let version ←
    format.valueAt format.text? node (Bytes.ofString "version") Settings.default.version
  let logging ← readLogging format (← format.entry? node (Bytes.ofString "logging"))
  let depth ← readDepth format (← format.entry? node (Bytes.ofString "parser"))
  return ⟨version, logging, depth⟩

/-- The settings of a document. -/
def ofDocument (document : format.Node) : Except SettingsFault Settings :=
  match format.entry? document (Bytes.ofString "system") with
  | .error fault => .error (.ofDocument fault)
  | .ok none => .error .missingSystem
  | .ok (some node) =>
    match readSystem format node with
    | .error fault => .error (.ofDocument fault)
    | .ok settings =>
      if settings.maxNestingDepth < 1 then .error (.shallow settings.maxNestingDepth)
      else .ok settings

/-- The settings that a text is written for. -/
def ofText (text : Bytes) : Except SettingsFault Settings :=
  match format.read text with
  | .error fault => .error (.ofDocument fault)
  | .ok document => ofDocument format document

/-- The settings as a section, its keys in the order of their bytes. -/
def json (settings : Settings) : Json :=
  .object [(Bytes.ofString "logging",
      .object [(Bytes.ofString "file", .string settings.logging.file),
        (Bytes.ofString "level", .string settings.logging.level),
        (Bytes.ofString "max_files", .ofInt settings.logging.maxFiles),
        (Bytes.ofString "max_size_mb", .ofInt settings.logging.maxSizeMb)]),
    (Bytes.ofString "parser",
      .object [(Bytes.ofString "max_nesting_depth", .ofInt settings.maxNestingDepth)]),
    (Bytes.ofString "version", .string settings.version)]

end Settings

end RealtimeApp
