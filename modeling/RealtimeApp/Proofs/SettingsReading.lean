import RealtimeApp.Proofs.Success
import RealtimeApp.Settings

/-!
# What settings a document describes

A document describes settings (`DocumentFormat.Describes`) when it has a section `system`, each
value that the section gives in a form that fits is the one in the settings, all others are the
defaults, and the limit on nesting is at least one.  The settings read from a document are the
ones that it describes, and there are none where it describes none
(`Settings.ofDocument_eq_ok_iff`).
-/

namespace RealtimeApp

namespace DocumentFormat

variable (format : DocumentFormat)

/-- The value under a key of a section: the one that is read there, or the default where the
section or the key is missing or something else stands there. -/
inductive ValueIs {α : Type} (read? : format.Node → Option α) (key : Bytes) (fallback : α) :
    Option format.Node → α → Prop
  | noSection : ValueIs read? key fallback none fallback
  | absent {node : format.Node} : format.entry? node key = .ok none →
      ValueIs read? key fallback (some node) fallback
  | unfit {node entry : format.Node} : format.entry? node key = .ok (some entry) →
      read? entry = none → ValueIs read? key fallback (some node) fallback
  | given {node entry : format.Node} {value : α} : format.entry? node key = .ok (some entry) →
      read? entry = some value → ValueIs read? key fallback (some node) value

/-- The logging settings of a section, which may be missing. -/
structure LoggingIs (entries : Option format.Node) (logging : LogSettings) : Prop where
  level : format.ValueIs format.text? (Bytes.ofString "level") (Bytes.ofString "info")
    entries logging.level
  file : format.ValueIs format.text? (Bytes.ofString "file")
    (Bytes.ofString "logs/rtos_config.log") entries logging.file
  maxSizeMb : format.ValueIs format.int? (Bytes.ofString "max_size_mb") 10
    entries logging.maxSizeMb
  maxFiles : format.ValueIs format.int? (Bytes.ofString "max_files") 5 entries logging.maxFiles

/-- The settings of the section `system` with the sections `logging` and `parser` in it, which
may be missing. -/
structure SystemIs (system : format.Node) (logging limits : Option format.Node)
    (settings : Settings) : Prop where
  logging_eq : format.entry? system (Bytes.ofString "logging") = .ok logging
  limits_eq : format.entry? system (Bytes.ofString "parser") = .ok limits
  version : format.ValueIs format.text? (Bytes.ofString "version") (Bytes.ofString "1.0.0")
    (some system) settings.version
  logging : format.LoggingIs logging settings.logging
  maxNestingDepth : format.ValueIs format.int? (Bytes.ofString "max_nesting_depth") 64
    limits settings.maxNestingDepth

/-- A document describes settings. -/
structure Describes (document : format.Node) (settings : Settings) : Prop where
  system : ∃ system logging limits,
    format.entry? document (Bytes.ofString "system") = .ok (some system) ∧
      format.SystemIs system logging limits settings
  deep : 1 ≤ settings.maxNestingDepth

/-! ## Values -/

variable {format}

theorem valueAt_eq_ok_iff {α : Type} {read? : format.Node → Option α} {node : format.Node}
    {key : Bytes} {fallback value : α} :
    format.valueAt read? node key fallback = .ok value ↔
      format.ValueIs read? key fallback (some node) value := by
  rw [valueAt, bind_eq_ok_iff]
  constructor
  · rintro ⟨found, hfound, hvalue⟩
    obtain rfl := Except.ok.inj hvalue
    cases found with
    | none => exact .absent hfound
    | some entry =>
        cases hread : read? entry with
        | none => simpa [hread] using ValueIs.unfit hfound hread
        | some a => simpa [hread] using ValueIs.given hfound hread
  · rintro (_ | hentry | ⟨hentry, hread⟩ | ⟨hentry, hread⟩)
    · exact ⟨none, hentry, rfl⟩
    · exact ⟨_, hentry, by simp [hread, pure, Except.pure]⟩
    · exact ⟨_, hentry, by simp [hread, pure, Except.pure]⟩

theorem valueIs_none_iff {α : Type} {read? : format.Node → Option α} {key : Bytes}
    {fallback value : α} : format.ValueIs read? key fallback none value ↔ value = fallback := by
  constructor
  · rintro ⟨⟩
    rfl
  · rintro rfl
    exact .noSection

/-! ## Sections -/

theorem readLogging_eq_ok_iff {entries : Option format.Node} {logging : LogSettings} :
    Settings.readLogging format entries = .ok logging ↔ format.LoggingIs entries logging := by
  cases entries with
  | none =>
      constructor
      · rintro ⟨⟩
        exact ⟨.noSection, .noSection, .noSection, .noSection⟩
      · rintro ⟨hlevel, hfile, hsize, hfiles⟩
        rw [valueIs_none_iff] at hlevel hfile hsize hfiles
        obtain ⟨level, file, maxSizeMb, maxFiles⟩ := logging
        subst hlevel hfile hsize hfiles
        rfl
  | some node =>
      simp only [Settings.readLogging, bind_eq_ok_iff, valueAt_eq_ok_iff]
      constructor
      · rintro ⟨level, hlevel, file, hfile, maxSizeMb, hsize, maxFiles, hfiles, hlogging⟩
        obtain rfl := Except.ok.inj hlogging
        exact ⟨hlevel, hfile, hsize, hfiles⟩
      · intro h
        exact ⟨_, h.level, _, h.file, _, h.maxSizeMb, _, h.maxFiles, rfl⟩

theorem readDepth_eq_ok_iff {entries : Option format.Node} {depth : Int} :
    Settings.readDepth format entries = .ok depth ↔
      format.ValueIs format.int? (Bytes.ofString "max_nesting_depth") 64 entries depth := by
  cases entries with
  | none =>
      rw [valueIs_none_iff, Settings.readDepth, Except.ok.injEq]
      exact eq_comm
  | some node => exact valueAt_eq_ok_iff

theorem readSystem_eq_ok_iff {node : format.Node} {settings : Settings} :
    Settings.readSystem format node = .ok settings ↔
      ∃ logging limits, format.SystemIs node logging limits settings := by
  simp only [Settings.readSystem, bind_eq_ok_iff, valueAt_eq_ok_iff, readLogging_eq_ok_iff,
    readDepth_eq_ok_iff]
  constructor
  · rintro ⟨version, hversion, logging, hlogging, logged, hlogged, limits, hlimits, depth, hdepth,
      hsettings⟩
    obtain rfl := Except.ok.inj hsettings
    exact ⟨logging, limits, hlogging, hlimits, hversion, hlogged, hdepth⟩
  · rintro ⟨logging, limits, h⟩
    exact ⟨_, h.version, _, h.logging_eq, _, h.logging, _, h.limits_eq, _, h.maxNestingDepth, rfl⟩

end DocumentFormat

open DocumentFormat in
/-- The settings of a document are the ones that it describes. -/
theorem Settings.ofDocument_eq_ok_iff {format : DocumentFormat} {document : format.Node}
    {settings : Settings} :
    Settings.ofDocument format document = .ok settings ↔ format.Describes document settings := by
  rw [ofDocument]
  constructor
  · intro h
    split at h
    · cases h
    · cases h
    · rename_i system hsystem
      split at h
      · cases h
      · rename_i read hread
        split at h
        · cases h
        · rename_i hdeep
          obtain rfl := Except.ok.inj h
          obtain ⟨logging, limits, hsections⟩ := readSystem_eq_ok_iff.1 hread
          exact ⟨⟨system, logging, limits, hsystem, hsections⟩, by omega⟩
  · rintro ⟨⟨system, logging, limits, hsystem, hsections⟩, hdeep⟩
    have hread := readSystem_eq_ok_iff.2 ⟨logging, limits, hsections⟩
    simp only [hsystem, hread]
    rw [if_neg (by omega)]

end RealtimeApp
