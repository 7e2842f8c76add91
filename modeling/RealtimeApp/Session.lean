import RealtimeApp.Description
import RealtimeApp.Export
import RealtimeApp.Log
import RealtimeApp.Settings

/-!
# Sessions

A session keeps the settings of the system and the application that was read last, or the
messages that say why there is none.  It reads both from files and logs what it does.
-/

namespace RealtimeApp

/-- What a session keeps. -/
structure Manager where
  settings : Settings
  application : Option App
  errors : List Bytes

/-- Default settings and no application. -/
def Manager.start : Manager := ⟨.default, none, []⟩

/-- A manager with the files and the log around it. -/
structure Session where
  host : Host
  manager : Manager

namespace Session

/-- A new session on a platform, over a file tree. -/
def start (platform : Platform) (files : FileTree) : Session := ⟨⟨platform, files, .start⟩, .start⟩

/-- Log a message. -/
def write (session : Session) (level : Level) (text : Bytes) : Session :=
  { session with host := session.host.write level text }

/-- The wording of a fault of a settings file. -/
def settingsMessage : SettingsFault → Bytes
  | .missingSystem => Bytes.ofString "Missing 'system' section in config"
  | .ofDocument (.malformed text) => Bytes.ofString "YAML parse error in system config: " ++ text
  | .ofDocument (.failed text) => Bytes.ofString "Error loading system config: " ++ text
  | .shallow depth => Bytes.ofString "Invalid parser.max_nesting_depth: " ++ Bytes.ofInt depth

/-- The settings of what lies where a path leads.  A directory reads as an empty text. -/
def settingsOf (format : DocumentFormat) (path : Bytes) : Entry → Except SettingsFault Settings
  | .file content => Settings.ofText format content
  | .directory => Settings.ofText format []
  | .locked => .error (.ofDocument (.malformed (format.unopenedText path)))

/-- The plan of a logger from settings.  Sizes are counted in 64 bits and wrap around. -/
def planOf (logging : LogSettings) : LogPlan :=
  ⟨logging.file, logging.level, UInt64.ofInt logging.maxSizeMb * 1024 * 1024,
    UInt64.ofInt logging.maxFiles⟩

/-- Bring the log in line with settings: a logger that is there takes over the level alone. -/
def applyLogging (host : Host) (logging : LogSettings) : Host :=
  if host.log.initialized then host.setLevel logging.level else host.initLog (planOf logging)

/-- Take over settings. -/
def adopt (session : Session) (settings : Settings) : Session :=
  ⟨applyLogging session.host settings.logging, { session.manager with settings := settings }⟩

/-- Load the settings of the system from a document in a file, and say whether that went.
Nothing changes but the log when it did not. -/
def loadSettingsAs (format : DocumentFormat) (session : Session) (path : Bytes) :
    Bool × Session :=
  match session.host.files.find path with
  | .tooLong =>
    let fault := DocumentFault.failed (session.host.platform.tooLongText path)
    (false, session.write .error (settingsMessage (.ofDocument fault)))
  | .absent _ | .unreachable =>
    (false, session.write .error (Bytes.ofString "System config file not found: " ++ path))
  | .present _ entry =>
    let session := session.write .info (Bytes.ofString "Loading system config from: " ++ path)
    match settingsOf format path entry with
    | .error fault => (false, session.write .error (settingsMessage fault))
    | .ok settings =>
      (true, (session.adopt settings).write .info
        (Bytes.ofString "System config loaded: version " ++ settings.version))

/-- Load the settings of the system from a JSON file. -/
def loadSettings (session : Session) (path : Bytes) : Bool × Session :=
  session.loadSettingsAs .json path

/-- Keep an application, and no errors. -/
def keepApplication (session : Session) (app : App) : Session :=
  { session with manager := { session.manager with application := some app, errors := [] } }

/-- Keep the messages that say why there is no application. -/
def keepErrors (session : Session) (errors : List Bytes) : Session :=
  { session with manager := { session.manager with application := none, errors := errors } }

/-- Read an application from a text that came from `origin`, and say whether that went. -/
def parseApplication (session : Session) (source origin : Bytes) : Bool × Session :=
  let session := session.write .info
    (Bytes.ofString "Parsing application description from: " ++ origin)
  match App.ofSource source session.manager.settings.maxNestingDepth with
  | .error refusal =>
    (false, refusal.chain.foldl (fun s note => s.write .error (Bytes.ofString "  " ++ note))
      (session.keepErrors refusal.chain))
  | .ok app =>
    (true, (session.keepApplication app).write .info
      (Bytes.ofString "Application loaded: " ++ Bytes.ofNat app.resources.size
        ++ Bytes.ofString " resources, " ++ Bytes.ofNat app.tasks.size
        ++ Bytes.ofString " tasks"))

/-- The text of the file that a path leads to, or the session behind the refusal.  A directory
reads as an empty text. -/
def readApplication (session : Session) (path : Bytes) : Except Session Bytes :=
  match session.host.files.find path with
  | .present _ (.file content) => .ok content
  | .present _ .directory => .ok []
  | .present _ .locked =>
    let session :=
      session.write .error (Bytes.ofString "Cannot open application file: " ++ path)
    .error (session.keepErrors [Bytes.ofString "cannot open application file: " ++ path])
  | .absent _ | .unreachable | .tooLong =>
    let session := session.write .error (Bytes.ofString "Application file not found: " ++ path)
    .error (session.keepErrors [Bytes.ofString "application file not found: " ++ path])

/-- Load an application from a file, and say whether that went. -/
def loadApplication (session : Session) (path : Bytes) : Bool × Session :=
  match session.readApplication path with
  | .ok source => session.parseApplication source path
  | .error refused => (false, refused)

/-- Forget the application and the errors. -/
def clearApplication (session : Session) : Session :=
  { session with manager := { session.manager with application := none, errors := [] } }

/-! ### Export

Exports are for texts in UTF-8.  Bytes that are none are written here as they stand, where a JSON
writer that checks them fails, and the export with it. -/

/-- The text of the application as JSON, null where there is none.  It is the exported text where
the names and the strings of the application are in UTF-8. -/
def applicationText (session : Session) : Bytes :=
  (match session.manager.application with
  | none => Json.null
  | some app => app.json).text

/-- The text of the settings as JSON, which is the exported text where their strings are in
UTF-8. -/
def settingsText (session : Session) : Bytes := session.manager.settings.json.text

end Session

end RealtimeApp
