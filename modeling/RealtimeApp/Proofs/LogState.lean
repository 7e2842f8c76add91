import RealtimeApp.Log

/-!
# The state of the log

Logging counts as set up exactly when there is a logger (`Log.Sound`), and every call keeps it
that way (`Host.sound_call`).  A logger that is there stays: messages leave it as it is
(`Host.ready_writeAll`), and setting the level changes that alone.
-/

namespace RealtimeApp

namespace Log

/-- Logging counts as set up exactly when there is a logger. -/
def Sound (log : Log) : Prop := log.initialized = log.logger.isSome

/-- Logging is set up with a logger. -/
structure Ready (log : Log) (logger : Logger) : Prop where
  initialized : log.initialized = true
  logger : log.logger = some logger

theorem sound_start : start.Sound := rfl

theorem Ready.sound {log : Log} {logger : Logger} (h : log.Ready logger) : log.Sound := by
  rw [Sound, h.initialized, h.logger]
  rfl

theorem Sound.exists_ready {log : Log} (h : log.Sound) (hset : log.initialized = true) :
    ∃ logger, log.Ready logger := by
  rw [Sound, hset] at h
  obtain ⟨logger, hlogger⟩ := Option.isSome_iff_exists.1 h.symm
  exact ⟨logger, hset, hlogger⟩

theorem Sound.logger_eq_none {log : Log} (h : log.Sound) (hset : log.initialized = false) :
    log.logger = none := by
  rw [Sound, hset] at h
  exact Option.isNone_iff_eq_none.1 (by rw [← Option.not_isSome, ← h]; rfl)

theorem Sound.initialized_eq_false {log : Log} (h : log.Sound) (hnone : log.logger = none) :
    log.initialized = false := by
  rw [h, hnone]
  rfl

end Log

namespace Host

/-! ## Setting up -/

theorem initLog_of_initialized {host : Host} (h : host.log.initialized = true) (plan : LogPlan) :
    host.initLog plan = host := by
  rw [initLog, if_pos h]

/-- What setting up comes to where there is no logger. -/
theorem initLog_of_not_initialized {host : Host} (h : host.log.initialized = false)
    (plan : LogPlan) :
    host.initLog plan =
      if (host.prepare plan).2 then
        { host with
          files := (host.prepare plan).1
          log := { host.log with initialized := true, logger := some (.ofPlan plan) } }
      else { host with files := (host.prepare plan).1 } := by
  rw [initLog, if_neg (by rw [h]; exact Bool.false_ne_true)]
  generalize host.prepare plan = prepared
  obtain ⟨files, _ | _⟩ := prepared <;> rfl

theorem ready_initLog {host : Host} (hset : host.log.initialized = false) {plan : LogPlan}
    (hprepare : (host.prepare plan).2 = true) :
    (host.initLog plan).log.Ready (.ofPlan plan) := by
  rw [initLog_of_not_initialized hset, if_pos hprepare]
  exact ⟨rfl, rfl⟩

/-- Setting up that is refused leaves the log as it is. -/
theorem log_initLog_of_refused {host : Host} (hset : host.log.initialized = false) {plan : LogPlan}
    (hprepare : (host.prepare plan).2 = false) : (host.initLog plan).log = host.log := by
  rw [initLog_of_not_initialized hset, hprepare]
  rfl

theorem sound_initLog {host : Host} (h : host.log.Sound) (plan : LogPlan) :
    (host.initLog plan).log.Sound := by
  cases hset : host.log.initialized with
  | true => rwa [initLog_of_initialized hset]
  | false =>
      rw [initLog_of_not_initialized hset]
      split
      · rfl
      · exact h

/-! ## The logger -/

theorem getLogger_of_ready {host : Host} {logger : Logger} (h : host.log.Ready logger) :
    host.getLogger = (logger, host) := by
  rw [getLogger, initLog_of_initialized h.initialized]
  simp only [h.logger]

/-- After asking for it there is the logger. -/
theorem ready_getLogger {host : Host} (h : host.log.Sound) :
    host.getLogger.2.log.Ready host.getLogger.1 := by
  have hsound := sound_initLog h .default
  rw [getLogger]
  generalize host.initLog .default = ready at hsound
  cases hlogger : ready.log.logger with
  | none => exact ⟨rfl, rfl⟩
  | some logger =>
      rw [Log.Sound, hlogger] at hsound
      exact ⟨hsound, hlogger⟩

/-- The logger that a host without one gets. -/
theorem getLogger_of_not_initialized {host : Host} (h : host.log.Sound)
    (hset : host.log.initialized = false) :
    host.getLogger.1 = if (host.prepare .default).2 then .ofPlan .default else .fallback := by
  have hnone := h.logger_eq_none hset
  rw [getLogger, initLog_of_not_initialized hset]
  cases (host.prepare .default).2 with
  | true => simp
  | false => simp [hnone]

theorem ready_setLevel {host : Host} (h : host.log.Sound) (level : Bytes) :
    (host.setLevel level).log.Ready { host.getLogger.1 with level := .ofName level } :=
  ⟨(ready_getLogger h).initialized, rfl⟩

/-! ## Messages -/

theorem ready_write {host : Host} (h : host.log.Sound) (level : Level) (text : Bytes) :
    (host.write level text).log.Ready host.getLogger.1 := by
  have hready := ready_getLogger h
  simp only [write]
  split
  · exact ⟨hready.initialized, hready.logger⟩
  · exact hready

theorem ready_write_of_ready {host : Host} {logger : Logger} (h : host.log.Ready logger)
    (level : Level) (text : Bytes) : (host.write level text).log.Ready logger := by
  have hready := ready_write h.sound level text
  rwa [getLogger_of_ready h] at hready

/-- Log messages one after the other. -/
def writeAll (host : Host) (messages : List Message) : Host :=
  messages.foldl (fun host message => host.write message.level message.text) host

/-- Messages leave the logger as it is. -/
theorem ready_writeAll {host : Host} {logger : Logger} (h : host.log.Ready logger)
    (messages : List Message) : (host.writeAll messages).log.Ready logger := by
  induction messages generalizing host with
  | nil => exact h
  | cons message messages ih => exact ih (ready_write_of_ready h message.level message.text)

/-! ## Calls -/

theorem sound_call {host : Host} (h : host.log.Sound) (call : LogCall) :
    (host.call call).log.Sound := by
  cases call with
  | init plan => exact sound_initLog h plan
  | get => exact (ready_getLogger h).sound
  | setLevel level => exact (ready_setLevel h level).sound
  | write level text => exact (ready_write h level text).sound

/-- What every call keeps is kept by messages. -/
theorem writeAll_induction {p : Host → Prop}
    (hcall : ∀ host call, p host → p (Host.call host call)) {host : Host} (h : p host)
    (messages : List Message) : p (host.writeAll messages) := by
  induction messages generalizing host with
  | nil => exact h
  | cons message messages ih => exact ih (hcall host (.write message.level message.text) h)

end Host

end RealtimeApp
