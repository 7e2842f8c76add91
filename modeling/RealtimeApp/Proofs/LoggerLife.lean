import RealtimeApp.Proofs.LogState

/-!
# The life of the logger

Calls come in any order, and between them the platform and the files may become any others, so
that the directories and the file of a plan can be made at one moment and not at the next, for
whatever reason.  A set-up goes exactly when the platform grants what its plan asks for
(`Host.Grants`).  Whatever has happened, logging counts as set up exactly when there is a logger,
a set-up that is refused leaves the log as it was, and a logger that is there keeps everything but
its level (`Host.LifeCycle`).  Which logger there is, and with which level, is decided by the first
call that makes one and the levels set from then on (`Host.LoggerAfter`).
-/

namespace RealtimeApp

/-- What happens around the log: a call, or a change of what the host runs on and of its files. -/
inductive LogEvent where
  | call (made : LogCall)
  | around (platform : Platform) (files : FileTree)

/-- Does the call ask for the logger, rather than set it up? -/
def LogCall.asks : LogCall → Bool
  | .init _ => false
  | _ => true

/-- The level that a call sets. -/
def LogCall.level? : LogCall → Option Level
  | .setLevel level => some (.ofName level)
  | _ => none

/-- The level that an event sets. -/
def LogEvent.level? : LogEvent → Option Level
  | .call made => made.level?
  | .around _ _ => none

/-- The levels that events set, in their order. -/
def levelsSet (events : List LogEvent) : List Level := events.filterMap LogEvent.level?

/-- The logger at the last of the levels, or at its own where there is none. -/
def Logger.atLast (logger : Logger) (levels : List Level) : Logger :=
  { logger with level := levels.getLast?.getD logger.level }

namespace Host

/-- The host behind an event. -/
def happen (host : Host) : LogEvent → Host
  | .call call => host.call call
  | .around platform files => { host with platform := platform, files := files }

/-- The host behind events. -/
def through (host : Host) (events : List LogEvent) : Host := events.foldl happen host

/-- The host behind events that begin without a logger. -/
def after (platform : Platform) (files : FileTree) (events : List LogEvent) : Host :=
  through ⟨platform, files, .start⟩ events

/-- The platform grants what a plan asks for: the file is opened, in a directory that is made where
the path names one.  A plan without a file asks for nothing. -/
inductive Grants (host : Host) (plan : LogPlan) : Prop
  | noFile : plan.file = [] → Grants host plan
  | file : FileTree.parent? plan.file = none →
      (host.platform.openRotating host.files plan.file plan.maxSize plan.maxFiles).2 = true →
      Grants host plan
  | fileIn {around : Bytes} {made : FileTree} : FileTree.parent? plan.file = some around →
      host.platform.makeDirectories host.files around = (made, true) →
      (host.platform.openRotating made plan.file plan.maxSize plan.maxFiles).2 = true →
      Grants host plan

/-- Where there is no logger, the event makes none: it asks for more than is granted, or is no
call. -/
def MakesNone (host : Host) : LogEvent → Prop
  | .call (.init plan) => ¬ host.Grants plan
  | .call _ => False
  | .around _ _ => True

/-- No event of these makes a logger. -/
def NoneMade (host : Host) : List LogEvent → Prop
  | [] => True
  | event :: rest => host.MakesNone event ∧ NoneMade (host.happen event) rest

/-- The logger that a call makes where there is none.  A call that asks for it sets up the default
one first, and takes the console alone when that is refused. -/
inductive Makes (host : Host) : LogCall → Logger → Prop
  | planned {plan : LogPlan} : host.Grants plan → Makes host (.init plan) (.ofPlan plan)
  | default {call : LogCall} : call.asks = true → host.Grants .default →
      Makes host call (.ofPlan .default)
  | fallback {call : LogCall} : call.asks = true → ¬ host.Grants .default →
      Makes host call .fallback

/-- The logger behind events on a host without one: the one that the first call to make any has
made, at the last level set since then. -/
inductive LoggerAfter (host : Host) : List LogEvent → Option Logger → Prop
  | none {events : List LogEvent} : host.NoneMade events → LoggerAfter host events none
  | made (before : List LogEvent) {since : List LogEvent} {call : LogCall} {logger : Logger} :
      host.NoneMade before → Makes (host.through before) call logger →
      LoggerAfter host (before ++ .call call :: since)
        (some (logger.atLast (levelsSet (.call call :: since))))

/-- What holds of logging at every moment: what setting up and asking for the logger come to, and
what later events leave of the logger. -/
structure LifeCycle (host : Host) : Prop where
  sound : host.log.initialized = true ↔ ∃ logger, host.log.logger = some logger
  refused : ∀ plan, host.log.logger = none → ¬ host.Grants plan →
    (host.initLog plan).log = host.log
  accepted : ∀ plan, host.log.logger = none → host.Grants plan →
    (host.initLog plan).log.Ready (.ofPlan plan)
  got : host.getLogger.2.log.Ready host.getLogger.1
  again : ∀ plan, host.log.initialized = true → host.initLog plan = host
  kept : ∀ logger events, host.log.logger = some logger →
    (host.through events).log.Ready (logger.atLast (levelsSet events))

end Host

/-! ## Levels -/

theorem Logger.atLast_append (logger : Logger) (first second : List Level) :
    logger.atLast (first ++ second) = (logger.atLast first).atLast second := by
  rw [atLast, atLast, atLast, List.getLast?_append, Option.getD_or]

theorem levelsSet_cons (event : LogEvent) (events : List LogEvent) :
    levelsSet (event :: events) = event.level?.toList ++ levelsSet events := by
  rw [levelsSet, List.filterMap_cons]
  cases event.level? <;> rfl

namespace Host

variable {host : Host} {logger : Logger}

/-! ## Setting up -/

/-- The file of a plan is made exactly when it is granted. -/
theorem snd_prepare_iff {plan : LogPlan} : (host.prepare plan).2 = true ↔ host.Grants plan := by
  rw [prepare]
  constructor
  · intro h
    split at h
    · rename_i hempty
      exact .noFile (List.isEmpty_iff.1 hempty)
    · split at h
      · rename_i hparent
        exact .file hparent h
      · rename_i hparent
        split at h
        · rename_i hmade
          exact .fileIn hparent hmade h
        · cases h
  -- a plan without a file goes in any case, so that the other two need not ask for one
  · rintro (hempty | ⟨hparent, hopened⟩ | ⟨hparent, hmade, hopened⟩)
    · rw [if_pos (List.isEmpty_iff.2 hempty)]
    · simp only [hparent]
      split
      · rfl
      · exact hopened
    · simp only [hparent, hmade]
      split
      · rfl
      · exact hopened

theorem snd_prepare_eq_false_iff {plan : LogPlan} :
    (host.prepare plan).2 = false ↔ ¬ host.Grants plan := by
  rw [← snd_prepare_iff, Bool.not_eq_true]

/-! ## Single calls -/

/-- A call that asks for the logger leaves it at the level that the call sets. -/
theorem ready_call_of_asks (h : host.log.Sound) {call : LogCall} (hasks : call.asks = true) :
    (host.call call).log.Ready (host.getLogger.1.atLast call.level?.toList) := by
  cases call with
  | init plan => cases hasks
  | get => exact ready_getLogger h
  | setLevel level => exact ready_setLevel h level
  | write level text => exact ready_write h level text

theorem ready_call_of_ready (h : host.log.Ready logger) (call : LogCall) :
    (host.call call).log.Ready (logger.atLast call.level?.toList) := by
  cases hasks : call.asks with
  | true =>
      have hready := ready_call_of_asks h.sound hasks
      rwa [getLogger_of_ready h] at hready
  -- setting up does nothing where there is a logger
  | false =>
      cases call with
      | init plan =>
          rw [Host.call, initLog_of_initialized h.initialized]
          exact h
      | get | setLevel | write => cases hasks

theorem ready_call_of_makes (h : host.log.Sound) (hset : host.log.initialized = false)
    {call : LogCall} (hmakes : Makes host call logger) :
    (host.call call).log.Ready (logger.atLast call.level?.toList) := by
  cases hmakes with
  | planned hgrants => exact ready_initLog hset (snd_prepare_iff.2 hgrants)
  | default hasks hgrants =>
      have hready := ready_call_of_asks h hasks
      rwa [getLogger_of_not_initialized h hset, if_pos (snd_prepare_iff.2 hgrants)] at hready
  | fallback hasks hrefused =>
      have hready := ready_call_of_asks h hasks
      rwa [getLogger_of_not_initialized h hset, snd_prepare_eq_false_iff.2 hrefused] at hready

/-- An event that makes no logger leaves a log without one as it is. -/
theorem log_happen_of_makesNone (hset : host.log.initialized = false) {event : LogEvent}
    (h : host.MakesNone event) : (host.happen event).log = host.log := by
  cases event with
  | around => rfl
  | call call =>
      cases call with
      | init plan => exact log_initLog_of_refused hset (snd_prepare_eq_false_iff.2 h)
      | get | setLevel | write => cases h

/-- Any other event is a call that makes one. -/
theorem makesNone_or_makes (host : Host) (event : LogEvent) :
    host.MakesNone event ∨ ∃ call logger, event = .call call ∧ Makes host call logger := by
  cases event with
  | around => exact .inl trivial
  | call call =>
      cases hasks : call.asks with
      | true =>
          by_cases hgrants : host.Grants .default
          · exact .inr ⟨call, _, rfl, .default hasks hgrants⟩
          · exact .inr ⟨call, _, rfl, .fallback hasks hgrants⟩
      | false =>
          cases call with
          | init plan =>
              by_cases hgrants : host.Grants plan
              · exact .inr ⟨_, _, rfl, .planned hgrants⟩
              · exact .inl hgrants
          | get | setLevel | write => cases hasks

/-! ## Events -/

theorem sound_through (h : host.log.Sound) (events : List LogEvent) :
    (host.through events).log.Sound := by
  induction events generalizing host with
  | nil => exact h
  | cons event events ih =>
      cases event with
      | call call => exact ih (sound_call h call)
      | around => exact ih h

/-- A logger stays, at the last level that is set. -/
theorem ready_through (h : host.log.Ready logger) (events : List LogEvent) :
    (host.through events).log.Ready (logger.atLast (levelsSet events)) := by
  induction events generalizing host logger with
  | nil => exact h
  | cons event events ih =>
      rw [levelsSet_cons, Logger.atLast_append]
      cases event with
      | call call => exact ih (ready_call_of_ready h call)
      | around => exact ih ⟨h.initialized, h.logger⟩

theorem log_through_of_noneMade (hset : host.log.initialized = false) {events : List LogEvent}
    (h : host.NoneMade events) : (host.through events).log = host.log := by
  induction events generalizing host with
  | nil => rfl
  | cons event events ih =>
      -- the log is as before, so that it is not set up for the next event either
      have hlog := log_happen_of_makesNone hset h.1
      rw [← hlog] at hset ⊢
      exact ih hset h.2

theorem through_append (host : Host) (first second : List LogEvent) :
    host.through (first ++ second) = (host.through first).through second := List.foldl_append

/-! ## Which logger there is -/

theorem LoggerAfter.cons {event : LogEvent} {events : List LogEvent} {found : Option Logger}
    (hevent : host.MakesNone event) (h : (host.happen event).LoggerAfter events found) :
    host.LoggerAfter (event :: events) found := by
  cases h with
  | none hnone => exact .none ⟨hevent, hnone⟩
  | made before hbefore hmakes =>
      exact .made (event :: before) ⟨hevent, hbefore⟩ hmakes

theorem exists_loggerAfter (host : Host) (events : List LogEvent) :
    ∃ found, host.LoggerAfter events found := by
  induction events generalizing host with
  | nil => exact ⟨_, .none trivial⟩
  | cons event events ih =>
      rcases host.makesNone_or_makes event with hnone | ⟨call, logger, rfl, hmakes⟩
      · obtain ⟨found, hfound⟩ := ih (host.happen event)
        exact ⟨found, hfound.cons hnone⟩
      · exact ⟨_, LoggerAfter.made [] trivial hmakes⟩

theorem LoggerAfter.logger_eq (h : host.log.Sound) (hset : host.log.initialized = false)
    {events : List LogEvent} {found : Option Logger} (hafter : host.LoggerAfter events found) :
    (host.through events).log.logger = found := by
  cases hafter with
  | none hnone => rw [log_through_of_noneMade hset hnone, h.logger_eq_none hset]
  | @made before since call logger hbefore hmakes =>
      have hlog := log_through_of_noneMade hset hbefore
      -- the level that the call sets is the first of those since then
      have hready := ready_call_of_makes (hlog ▸ h) (hlog ▸ hset) hmakes
      rw [through_append, levelsSet_cons, Logger.atLast_append]
      exact (ready_through hready since).logger

/-! ## The whole life -/

theorem lifeCycle_of_sound (h : host.log.Sound) : host.LifeCycle where
  sound := by rw [h, Option.isSome_iff_exists]
  refused plan hnone hrefused :=
    log_initLog_of_refused (h.initialized_eq_false hnone) (snd_prepare_eq_false_iff.2 hrefused)
  accepted plan hnone hgrants :=
    ready_initLog (h.initialized_eq_false hnone) (snd_prepare_iff.2 hgrants)
  got := ready_getLogger h
  again plan hset := initLog_of_initialized hset plan
  kept logger events hlogger := ready_through ⟨by rw [h, hlogger]; rfl, hlogger⟩ events

/-- The life of the logger is sound.  Behind any calls, with any changes of the platform and of the
files between them, logging is set up exactly when there is a logger, a refused set-up leaves no
trace in the log and a later one may go, asking always gives a logger, and a logger that is there
keeps all but its level; and the logger is the one that the first call to make any has made, at the
last level set since then. -/
theorem logger_life_sound (platform : Platform) (files : FileTree) (events : List LogEvent) :
    (after platform files events).LifeCycle ∧
    ∀ found, (after platform files events).log.logger = found ↔
      LoggerAfter ⟨platform, files, .start⟩ events found := by
  have hstart : (⟨platform, files, .start⟩ : Host).log.Sound := Log.sound_start
  refine ⟨lifeCycle_of_sound (sound_through hstart events), fun found => ⟨?_, ?_⟩⟩
  · rintro rfl
    obtain ⟨found, hfound⟩ := exists_loggerAfter ⟨platform, files, .start⟩ events
    rwa [after, hfound.logger_eq hstart rfl]
  · exact fun h => h.logger_eq hstart rfl

end Host

end RealtimeApp
