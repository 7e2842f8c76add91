import RealtimeApp.Proofs.SessionSteps

/-!
# Loading settings

Loading settings changes all of them or nothing (`loadSettings_all_or_nothing`): what is taken
over depends on the document alone, and a refused document leaves the manager and the level of
the log as they were.
-/

namespace RealtimeApp

namespace Session

variable {format : DocumentFormat}

/-! ## Settings behind operations -/

theorem settings_perform_of_settingsAt {session : Session} {path : Bytes} {settings : Settings}
    (h : format.SettingsAt session.host.files path settings) :
    (session.perform format (.loadSettings path)).2.manager.settings = settings := by
  obtain ⟨first, last, hload⟩ := loadSettingsAs_of_settingsAt h
  simp only [perform, hload]

/-- Only loading settings changes them. -/
theorem settings_perform_of_not_settingsAt {session : Session} {operation : Operation}
    (h : ∀ path settings, operation = .loadSettings path →
      ¬ format.SettingsAt session.host.files path settings) :
    (session.perform format operation).2.manager.settings = session.manager.settings := by
  have hperformed := performed_perform format session operation
  generalize session.perform format operation = performed at hperformed
  cases hperformed with
  | settingsLoaded hsettings => exact absurd hsettings (h _ _ rfl)
  | settingsRefused | parsed | unreadable | cleared | asked | filesChanged | logged => rfl

/-- What holds of the defaults and of all settings that documents describe holds of the settings
behind any operations. -/
theorem settings_after {p : Settings → Prop} (hdefault : p .default)
    (hdescribed : ∀ document settings, format.Describes document settings → p settings)
    (platform : Platform) (files : FileTree) (operations : List Operation) :
    p (after format platform files operations).manager.settings := by
  refine after_induction (p := fun session => p session.manager.settings) hdefault ?_ operations
  intro session operation h
  by_cases hload : ∃ path settings, operation = .loadSettings path ∧
      format.SettingsAt session.host.files path settings
  · obtain ⟨path, settings, rfl, hsettings⟩ := hload
    rw [settings_perform_of_settingsAt hsettings]
    obtain ⟨document, -, hdescribes⟩ := hsettings
    exact hdescribed document settings hdescribes
  · rw [settings_perform_of_not_settingsAt]
    · exact h
    · intro path settings hoperation hsettings
      exact hload ⟨path, settings, hoperation, hsettings⟩

/-- The limit on nesting is never below one. -/
theorem one_le_maxNestingDepth_after (platform : Platform) (files : FileTree)
    (operations : List Operation) :
    1 ≤ (after format platform files operations).manager.settings.maxNestingDepth :=
  settings_after (p := fun settings => 1 ≤ settings.maxNestingDepth)
    (show (1 : Int) ≤ 64 by decide) (fun _ _ h => h.deep) platform files operations

theorem sound_after (platform : Platform) (files : FileTree) (operations : List Operation) :
    (after format platform files operations).host.log.Sound :=
  after_induction (p := fun session => session.host.log.Sound) Log.sound_start
    (fun _ operation h => sound_perform h operation) operations

/-! ## The log behind a load -/

/-- The logger behind a load that went: the one that was there before, or that the first message
made, with the level of the settings. -/
theorem ready_loadSettingsAs_of_settingsAt {session : Session} {path : Bytes}
    {settings : Settings} (hsound : session.host.log.Sound)
    (h : format.SettingsAt session.host.files path settings) :
    (session.loadSettingsAs format path).2.host.log.Ready
      { session.host.getLogger.1 with level := .ofName settings.logging.level } := by
  obtain ⟨first, last, hload⟩ := loadSettingsAs_of_settingsAt h
  have hfirst := Host.ready_write hsound first.level first.text
  have hlevel := Host.ready_setLevel hfirst.sound settings.logging.level
  rw [Host.getLogger_of_ready hfirst] at hlevel
  rw [hload, applyLogging, if_pos hfirst.initialized]
  exact Host.ready_write_of_ready hlevel last.level last.text

/-! ## All or nothing -/

theorem settingsAt_iff_of_documentAt {files : FileTree} {path : Bytes} {document : format.Node}
    (h : format.DocumentAt files path document) {settings : Settings} :
    format.SettingsAt files path settings ↔ format.Describes document settings := by
  obtain ⟨text, hreads, hdocument⟩ := h
  constructor
  · rintro ⟨other, ⟨text', hreads', hother⟩, hdescribes⟩
    rw [hreads'.unique hreads, hdocument] at hother
    obtain rfl := Except.ok.inj hother
    exact hdescribes
  · intro hdescribes
    exact ⟨document, ⟨text, hreads, hdocument⟩, hdescribes⟩

/-- A document decides whether loading it goes and what the settings are then. -/
theorem loadSettingsAs_of_documentAt {first second : Session} {path path' : Bytes}
    {document : format.Node} (h : format.DocumentAt first.host.files path document)
    (h' : format.DocumentAt second.host.files path' document)
    (hdone : (first.loadSettingsAs format path).1 = true) :
    (second.loadSettingsAs format path').1 = true ∧
      (second.loadSettingsAs format path').2.manager.settings =
        (first.loadSettingsAs format path).2.manager.settings := by
  obtain ⟨settings, hsettings⟩ := fst_loadSettingsAs_iff.1 hdone
  have hdescribes := (settingsAt_iff_of_documentAt h).1 hsettings
  have hsettings' := (settingsAt_iff_of_documentAt h').2 hdescribes
  exact ⟨fst_loadSettingsAs_iff.2 ⟨settings, hsettings'⟩,
    (settings_perform_of_settingsAt hsettings').trans
      (settings_perform_of_settingsAt hsettings).symm⟩

/-- Loading settings is all or nothing, on any platform, behind any operations and for any path.
Where it does not go, the file has no document that describes settings, the manager is as it was,
and so is a logger that was there.  Where it goes, the settings are the ones that the document
describes, which are the same for any session that loads this document; the application and the
messages are as they were, and the logger has the level of the settings.  The limit on nesting is
at least one all the time. -/
theorem loadSettings_all_or_nothing (format : DocumentFormat) (platform : Platform)
    (files : FileTree) (operations : List Operation) (path : Bytes) :
    let session := after format platform files operations
    1 ≤ session.manager.settings.maxNestingDepth ∧
      match session.loadSettingsAs format path with
      | (false, left) =>
        (∀ document, format.DocumentAt session.host.files path document →
          ∀ settings, ¬ format.Describes document settings) ∧
        left.manager = session.manager ∧
        (session.host.log.initialized = true →
          ∃ logger, session.host.log.logger = some logger ∧ left.host.log.logger = some logger)
      | (true, left) =>
        (∃ document, format.DocumentAt session.host.files path document ∧
          format.Describes document left.manager.settings ∧
          ∀ (other : Session) (path' : Bytes),
            format.DocumentAt other.host.files path' document →
              (other.loadSettingsAs format path').1 = true ∧
              (other.loadSettingsAs format path').2.manager.settings = left.manager.settings) ∧
        left.manager.application = session.manager.application ∧
        left.manager.errors = session.manager.errors ∧
        ∃ logger, left.host.log.logger = some logger ∧
          logger.level = .ofName left.manager.settings.logging.level := by
  intro session
  have hsound : session.host.log.Sound := sound_after platform files operations
  refine ⟨one_le_maxNestingDepth_after platform files operations, ?_⟩
  by_cases hsome : ∃ settings, format.SettingsAt session.host.files path settings
  · obtain ⟨settings, hsettings⟩ := hsome
    have hready := ready_loadSettingsAs_of_settingsAt hsound hsettings
    have hdone := fst_loadSettingsAs_iff.2 ⟨settings, hsettings⟩
    obtain ⟨document, hdocument, hdescribes⟩ := hsettings
    have hsame := fun (other : Session) path' (h' : format.DocumentAt other.host.files path'
      document) => loadSettingsAs_of_documentAt hdocument h' hdone
    obtain ⟨first, last, hload⟩ := loadSettingsAs_of_settingsAt ⟨document, hdocument, hdescribes⟩
    rw [hload] at hready hsame ⊢
    exact ⟨⟨document, hdocument, hdescribes, hsame⟩, rfl, rfl, _, hready.logger, rfl⟩
  · obtain ⟨messages, hload⟩ := loadSettingsAs_of_not_settingsAt (not_exists.1 hsome)
    rw [hload]
    refine ⟨?_, rfl, ?_⟩
    · intro document hdocument settings hdescribes
      exact hsome ⟨settings, document, hdocument, hdescribes⟩
    · intro hset
      obtain ⟨logger, hready⟩ := hsound.exists_ready hset
      exact ⟨logger, hready.logger, (Host.ready_writeAll hready messages).logger⟩

end Session

end RealtimeApp
