import RealtimeApp.Platform

/-!
# Logging

Messages go to a logger, which keeps those of its level and above.  There is no logger at
first: the first message makes one, with a console and a file that grows up to a size and is
then rotated.  When the file cannot be made there is still no logger, and the next message
falls back to the console alone.  The level of a logger may change later, nothing else.
-/

namespace RealtimeApp

/-- How grave a message is, and from where on a logger keeps messages. -/
inductive Level where
  | trace
  | debug
  | info
  | warn
  | error
  | off
  deriving DecidableEq, Repr

namespace Level

/-- The place of a level in their order. -/
def rank : Level → Nat
  | trace => 0
  | debug => 1
  | info => 2
  | warn => 3
  | error => 4
  | off => 5

/-- The name of a level. -/
def name : Level → Bytes
  | trace => Bytes.ofString "trace"
  | debug => Bytes.ofString "debug"
  | info => Bytes.ofString "info"
  | warn => Bytes.ofString "warn"
  | error => Bytes.ofString "error"
  | off => Bytes.ofString "off"

/-- The levels in their order. -/
def all : List Level := [trace, debug, info, warn, error, off]

/-- The level with a name; any other text stands for `info`. -/
def ofName (text : Bytes) : Level := (all.find? (·.name == text)).getD info

end Level

/-- Where a logger writes. -/
inductive Sink where
  | console (pattern : Bytes)
  /-- A file that is rotated when it has grown to a size, with so many older ones kept. -/
  | rotating (pattern file : Bytes) (maxSize maxFiles : UInt64)
  deriving DecidableEq, Repr

/-- A logger. -/
structure Logger where
  name : Bytes
  level : Level
  /-- Messages of this level and above are written at once. -/
  flush : Level
  /-- Whether it is the logger that messages go to by default. -/
  isDefault : Bool
  sinks : List Sink
  deriving DecidableEq, Repr

/-- A message that was kept. -/
structure Message where
  level : Level
  text : Bytes
  deriving DecidableEq, Repr

/-- What a logger is made from. -/
structure LogPlan where
  file : Bytes
  level : Bytes
  maxSize : UInt64
  maxFiles : UInt64
  deriving DecidableEq, Repr

/-- The plan where none is given. -/
def LogPlan.default : LogPlan :=
  ⟨Bytes.ofString "logs/rtos_config.log", Bytes.ofString "info", 10485760, 5⟩

namespace Sink

/-- The console of a planned logger. -/
def planned : Sink := console (Bytes.ofString "[%Y-%m-%d %H:%M:%S.%e] [%^%l%$] %v")

/-- The file of a planned logger. -/
def ofPlan (plan : LogPlan) : Sink :=
  rotating (Bytes.ofString "[%Y-%m-%d %H:%M:%S.%e] [%l] %v") plan.file plan.maxSize plan.maxFiles

end Sink

namespace Logger

/-- The logger of a plan.  A plan without a file has the console alone. -/
def ofPlan (plan : LogPlan) : Logger where
  name := Bytes.ofString "rtos_config"
  level := .ofName plan.level
  flush := .warn
  isDefault := true
  sinks := Sink.planned :: if plan.file.isEmpty then [] else [Sink.ofPlan plan]

/-- The logger where the file of the plan cannot be made. -/
def fallback : Logger :=
  ⟨Bytes.ofString "rtos_config_console", .info, .off, false, [.console []]⟩

/-- Does the logger keep messages of this level? -/
def keeps (logger : Logger) (level : Level) : Bool := logger.level.rank ≤ level.rank

end Logger

/-- The logger, whether logging counts as set up, and the messages kept so far. -/
structure Log where
  initialized : Bool
  logger : Option Logger
  messages : List Message
  deriving Repr

/-- No logger, and nothing logged. -/
def Log.start : Log := ⟨false, none, []⟩

/-- What a program has around it: what it runs on, files, and a log that may write to them. -/
structure Host where
  platform : Platform
  files : FileTree
  log : Log

namespace Host

/-- Make the file of a plan and the directories around it, and say whether that went. -/
def prepare (host : Host) (plan : LogPlan) : FileTree × Bool :=
  if plan.file.isEmpty then (host.files, true)
  else
    match FileTree.parent? plan.file with
    | none => host.platform.openRotating host.files plan.file plan.maxSize plan.maxFiles
    | some around =>
      match host.platform.makeDirectories host.files around with
      | (made, true) => host.platform.openRotating made plan.file plan.maxSize plan.maxFiles
      | (made, false) => (made, false)

/-- Set up logging, unless that is done already. -/
def initLog (host : Host) (plan : LogPlan) : Host :=
  if host.log.initialized then host
  else
    match host.prepare plan with
    | (files, true) =>
      { host with
        files := files
        log := { host.log with initialized := true, logger := some (.ofPlan plan) } }
    | (files, false) => { host with files := files }

/-- The logger, which is made where there is none, and the host behind that. -/
def getLogger (host : Host) : Logger × Host :=
  let ready := host.initLog .default
  match ready.log.logger with
  | some logger => (logger, ready)
  | none =>
    (.fallback,
      { ready with log := { ready.log with initialized := true, logger := some .fallback } })

/-- Set the level of the logger. -/
def setLevel (host : Host) (level : Bytes) : Host :=
  let (logger, ready) := host.getLogger
  { ready with log := { ready.log with logger := some { logger with level := .ofName level } } }

/-- Log a message, which is kept when it is of the level of the logger or above. -/
def write (host : Host) (level : Level) (text : Bytes) : Host :=
  let (logger, ready) := host.getLogger
  if logger.keeps level then
    { ready with log := { ready.log with messages := ready.log.messages ++ [⟨level, text⟩] } }
  else ready

end Host

/-- What can be asked of logging. -/
inductive LogCall where
  | init (plan : LogPlan)
  | get
  | setLevel (level : Bytes)
  | write (level : Level) (text : Bytes)
  deriving Repr

/-- The host behind a call. -/
def Host.call (host : Host) : LogCall → Host
  | .init plan => host.initLog plan
  | .get => host.getLogger.2
  | .setLevel level => host.setLevel level
  | .write level text => host.write level text

end RealtimeApp
