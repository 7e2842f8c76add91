import RealtimeApp.Proofs.SettingsLoading

/-!
# Where the log goes

Settings name a file for the log, its size and how many older files are kept.  Loading settings
logs a message before it reads them, so that there is a logger by the time they are known, and a
logger keeps its sinks.  The log therefore goes where the settings of a first load say only when
they name the file, the size and the number that a log has without settings
(`logsTo_first_load_iff`).
-/

namespace RealtimeApp

/-- The log goes into the file of the settings, which is rotated at their size, keeps as many
older files as they say, and has their level. -/
def Host.LogsTo (host : Host) (logging : LogSettings) : Prop :=
  ∃ logger pattern maxSize maxFiles, host.log.logger = some logger ∧
    Sink.rotating pattern logging.file maxSize maxFiles ∈ logger.sinks ∧
    (maxSize.toNat : Int) = logging.maxSizeMb * 1024 * 1024 ∧
    (maxFiles.toNat : Int) = logging.maxFiles ∧
    logger.level = .ofName logging.level

theorem Logger.sinks_ofPlan_default :
    (Logger.ofPlan .default).sinks = [Sink.planned, Sink.ofPlan .default] := rfl

namespace Host

variable {host : Host} {logger : Logger} {logging : LogSettings}

/-- A logger that was made without settings goes where they say only when they say the same. -/
theorem logsTo_iff_of_ofPlan_default (hlogger : host.log.logger = some logger)
    (hsinks : logger.sinks = (Logger.ofPlan .default).sinks)
    (hlevel : logger.level = .ofName logging.level) :
    host.LogsTo logging ↔ logging.file = LogSettings.default.file ∧
      logging.maxSizeMb = LogSettings.default.maxSizeMb ∧
      logging.maxFiles = LogSettings.default.maxFiles := by
  rw [Logger.sinks_ofPlan_default] at hsinks
  constructor
  · rintro ⟨found, pattern, maxSize, maxFiles, hfound, hsink, hsize, hfiles, -⟩
    obtain rfl := Option.some.inj (hlogger.symm.trans hfound)
    rw [hsinks, List.mem_cons, List.mem_singleton] at hsink
    rcases hsink with hsink | hsink
    · cases hsink
    · injection hsink with hpattern hfile hmaxSize hmaxFiles
      subst hmaxSize hmaxFiles
      have hten : ((LogPlan.default.maxSize).toNat : Int) = 10485760 := rfl
      have hfive : ((LogPlan.default.maxFiles).toNat : Int) = 5 := rfl
      refine ⟨hfile, ?_, ?_⟩
      · show logging.maxSizeMb = 10
        omega
      · show logging.maxFiles = 5
        omega
  · rintro ⟨hfile, hsize, hfiles⟩
    refine ⟨logger, Bytes.ofString "[%Y-%m-%d %H:%M:%S.%e] [%l] %v", LogPlan.default.maxSize,
      LogPlan.default.maxFiles, hlogger, ?_, ?_, ?_, hlevel⟩
    · rw [hsinks, hfile]
      exact List.mem_cons_of_mem _ List.mem_cons_self
    · rw [hsize]
      rfl
    · rw [hfiles]
      rfl

/-- The console alone goes into no file. -/
theorem not_logsTo_of_fallback (hlogger : host.log.logger = some logger)
    (hsinks : logger.sinks = Logger.fallback.sinks) : ¬ host.LogsTo logging := by
  rintro ⟨found, pattern, maxSize, maxFiles, hfound, hsink, -⟩
  obtain rfl := Option.some.inj (hlogger.symm.trans hfound)
  rw [hsinks, Logger.fallback, List.mem_singleton] at hsink
  cases hsink

end Host

namespace Session

variable {format : DocumentFormat} {platform : Platform} {files : FileTree} {path : Bytes}

/-- The logger behind a first load that went: one that was made without settings, with the level
of the settings. -/
theorem logger_first_load (h : ((start platform files).loadSettingsAs format path).1 = true) :
    let left := ((start platform files).loadSettingsAs format path).2
    left.host.log.logger = some
      { if ((start platform files).host.prepare .default).2 then Logger.ofPlan .default
        else Logger.fallback with
        level := .ofName left.manager.settings.logging.level } := by
  intro left
  obtain ⟨settings, hsettings⟩ := fst_loadSettingsAs_iff.1 h
  have hready := ready_loadSettingsAs_of_settingsAt Log.sound_start hsettings
  rw [Host.getLogger_of_not_initialized Log.sound_start rfl] at hready
  have htaken : left.manager.settings = settings := settings_perform_of_settingsAt hsettings
  rw [htaken]
  exact hready.logger

/-- When the log goes where the settings of a first load say: the file that a log has without
settings can be made, and the settings name that file, with its size and number. -/
theorem logsTo_first_load_iff (format : DocumentFormat) (platform : Platform) (files : FileTree)
    (path : Bytes) (h : ((start platform files).loadSettingsAs format path).1 = true) :
    let left := ((start platform files).loadSettingsAs format path).2
    left.host.LogsTo left.manager.settings.logging ↔
      ((start platform files).host.prepare .default).2 = true ∧
      left.manager.settings.logging.file = LogSettings.default.file ∧
      left.manager.settings.logging.maxSizeMb = LogSettings.default.maxSizeMb ∧
      left.manager.settings.logging.maxFiles = LogSettings.default.maxFiles := by
  intro left
  have hlogger := logger_first_load h
  cases hprepare : ((start platform files).host.prepare .default).2 with
  | true =>
      rw [hprepare] at hlogger
      rw [Host.logsTo_iff_of_ofPlan_default hlogger rfl rfl]
      exact ⟨fun hsame => ⟨rfl, hsame⟩, fun hsame => hsame.2⟩
  | false =>
      rw [hprepare] at hlogger
      constructor
      · intro hlogs
        exact absurd hlogs (Host.not_logsTo_of_fallback hlogger rfl)
      · rintro ⟨hmade, -⟩
        cases hmade

/-- A file of settings that have a version alone. -/
def versionOnly : FileTree :=
  FileTree.empty.putFile (Bytes.ofString "s.json")
    (Bytes.ofString "\x7b\"system\":\x7b\"version\":\"2\"\x7d\x7d")

theorem logsTo_first_load_versionOnly :
    let left := ((start .disk versionOnly).loadSettingsAs .json (Bytes.ofString "s.json")).2
    ((start .disk versionOnly).loadSettingsAs .json (Bytes.ofString "s.json")).1 = true ∧
      left.host.LogsTo left.manager.settings.logging := by
  intro left
  have hdone :
      ((start .disk versionOnly).loadSettingsAs .json (Bytes.ofString "s.json")).1 = true := by
    decide +kernel
  refine ⟨hdone, (logsTo_first_load_iff .json .disk versionOnly _ hdone).2 ⟨?_, ?_, ?_, ?_⟩⟩
  all_goals decide +kernel

/-- A file of settings that want the log elsewhere. -/
def elsewhere : FileTree :=
  FileTree.empty.putFile (Bytes.ofString "s.json") (Bytes.ofString
    "\x7b\"system\":\x7b\"logging\":\x7b\"level\":\"debug\",\"file\":\"out/my.log\",\"max_size_mb\":3,\"max_files\":2\x7d\x7d\x7d")

/-- The settings of the file are taken over, and their log could be made, but the log does not
go there. -/
theorem not_logsTo_elsewhere :
    let left := ((start .disk elsewhere).loadSettings (Bytes.ofString "s.json")).2
    ((start .disk elsewhere).loadSettings (Bytes.ofString "s.json")).1 = true ∧
    left.manager.settings.logging =
      ⟨Bytes.ofString "debug", Bytes.ofString "out/my.log", 3, 2⟩ ∧
    ((start .disk elsewhere).host.prepare (planOf left.manager.settings.logging)).2 = true ∧
    ¬ left.host.LogsTo left.manager.settings.logging := by
  intro left
  have hdone : ((start .disk elsewhere).loadSettings (Bytes.ofString "s.json")).1 = true := by
    decide +kernel
  have hlogging : left.manager.settings.logging =
      ⟨Bytes.ofString "debug", Bytes.ofString "out/my.log", 3, 2⟩ := by
    decide +kernel
  refine ⟨hdone, hlogging, ?_, ?_⟩
  · rw [hlogging]
    decide +kernel
  · have hmade : ((start .disk elsewhere).host.prepare .default).2 = true := by decide +kernel
    have hlogger := logger_first_load hdone
    rw [hmade] at hlogger
    refine mt (Host.logsTo_iff_of_ofPlan_default hlogger rfl rfl).1 ?_
    rintro ⟨-, hsize, -⟩
    have hthree : left.manager.settings.logging.maxSizeMb = 3 := by rw [hlogging]
    exact absurd (hthree.symm.trans hsize) (by decide)

end Session

end RealtimeApp
