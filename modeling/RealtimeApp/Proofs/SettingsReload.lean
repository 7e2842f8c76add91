import Mathlib.Data.List.Nodup
import Mathlib.Data.List.TakeWhile
import RealtimeApp.Proofs.JsonText
import RealtimeApp.Proofs.SettingsLoading
import RealtimeApp.Proofs.Utf8Text

/-!
# Exported settings are loaded again

The text that a session exports for its settings is put into the section `system` of a document
(`Settings.documentText`).  A format that reads JSON as what it is (`DocumentFormat.ReadsJson`)
finds in the document what was exported: keys are distinct, strings stand for themselves, and the
integers of a session are of 32 bits, as they are defaults or came from a document.  So any session
that loads the document has the same settings then (`settings_survive_reload`).
-/

namespace RealtimeApp

/-- Integers of 32 bits. -/
def IsInt32 (n : Int) : Prop := -2147483648 ≤ n ∧ n ≤ 2147483647

instance (n : Int) : Decidable (IsInt32 n) :=
  inferInstanceAs (Decidable (-2147483648 ≤ n ∧ n ≤ 2147483647))

/-- The format reads a text in UTF-8 that holds a JSON value as the node of this value.  The node
of an object has an entry for each of its distinct keys, strings are texts, and the integers are
those of 32 bits. -/
structure DocumentFormat.ReadsJson (format : DocumentFormat) (node : Json → format.Node) :
    Prop where
  read_eq : ∀ text j, Bytes.IsUtf8 text → Json.read? text = some j → format.read text = .ok (node j)
  entry?_eq : ∀ entries key, (entries.map Prod.fst).Nodup →
    format.entry? (node (.object entries)) key =
      .ok ((entries.find? (·.1 == key)).map fun entry => node entry.2)
  text?_eq : ∀ value, format.text? (node (.string value)) = some value
  int?_eq : ∀ n, IsInt32 n → format.int? (node (.ofInt n)) = some n
  isInt32 : ∀ entry n, format.int? entry = some n → IsInt32 n

/-! ## JSON -/

namespace Json

theorem readValue_blank {b : UInt8} (h : Byte.isBlank b = true) (fuel : Nat) (rest : Bytes) :
    readValue fuel (b :: rest) = readValue fuel rest := by
  cases fuel with
  | zero => rfl
  | succ fuel =>
      have hskip : skipBlanks (b :: rest) = skipBlanks rest := by simp [skipBlanks, h]
      simp only [readValue, hskip]

/-- An object with one entry is read back, with a space in front of the value. -/
theorem read?_entry (key : Bytes) {j : Json} (h : Written j) :
    read? (ascii '{' :: (quoted key ++ ascii ':' :: Byte.space :: (j.text ++ [ascii '}']))) =
      some (object [(key, j)]) := by
  have hread : ∀ fuel, 2 * j.text.length ≤ fuel →
      readValue (fuel + 2)
          (ascii '{' :: (quoted key ++ ascii ':' :: Byte.space :: (j.text ++ [ascii '}']))) =
        some (object [(key, j)], []) := by
    intro fuel hfuel
    have hvalue : readValue fuel (Byte.space :: (j.text ++ [ascii '}'])) =
        some (j, [ascii '}']) := by
      rw [readValue_blank (by decide)]
      exact h.readsBack.read _ _ hfuel (stops_cons.2 (by decide))
    rw [readValue_object, readEntries_last hvalue]
    rfl
  rw [read?, hread]
  · rfl
  · simp only [List.length_cons, List.length_append]
    omega

theorem find?_eq_some_of_mem {entries : List (Bytes × Json)} {entry : Bytes × Json}
    (hdistinct : (entries.map Prod.fst).Nodup) (hentry : entry ∈ entries) :
    entries.find? (·.1 == entry.1) = some entry := by
  induction entries with
  | nil => cases hentry
  | cons first entries ih =>
      rw [List.map_cons, List.nodup_cons] at hdistinct
      rcases List.mem_cons.1 hentry with rfl | hentry
      · simp
      · have hne : first.1 ≠ entry.1 := by
          intro heq
          rw [heq] at hdistinct
          exact hdistinct.1 (List.mem_map_of_mem hentry)
        rw [List.find?_cons_of_neg (by simpa using hne)]
        exact ih hdistinct.2 hentry

/-- A written integer of 32 bits is read back. -/
theorem int32?_ofInt {n : Int} (h : IsInt32 n) : int32? (Bytes.ofInt n) = some n := by
  have hne : ∀ k, (Bytes.ofNat k).isEmpty = false := fun k =>
    List.isEmpty_eq_false_iff.2 (Bytes.ofNat_ne_nil k)
  have hdigits : ∀ k, (Bytes.ofNat k).all Byte.isDigit = true := fun k =>
    List.all_eq_true.2 (Bytes.isDigit_of_mem_ofNat k)
  cases n with
  | ofNat k =>
      have hminus : (Bytes.ofNat k).head? ≠ some (ascii '-') := by
        intro hhead
        have hdigit := Bytes.isDigit_of_mem_ofNat k _ (List.mem_of_mem_head? hhead)
        exact absurd hdigit (by decide)
      show int32? (Bytes.ofNat k) = some (k : Int)
      rw [int32?]
      simp only [if_neg hminus, hne, hdigits, Bytes.ofDigits_ofNat, Bool.not_true, Bool.or_self,
        Bool.false_eq_true, if_false]
      exact if_pos h
  | negSucc k =>
      have hvalue : -((k + 1 : Nat) : Int) = Int.negSucc k := by omega
      show int32? (ascii '-' :: Bytes.ofNat (k + 1)) = some (Int.negSucc k)
      rw [int32?]
      simp only [List.head?_cons, if_true, List.tail_cons, hne, hdigits, Bytes.ofDigits_ofNat,
        hvalue, Bool.not_true, Bool.or_self, Bool.false_eq_true, if_false]
      exact if_pos h

theorem isInt32_of_int32? {text : Bytes} {n : Int} (h : int32? text = some n) : IsInt32 n := by
  simp only [int32?, Option.ite_none_left_eq_some, Option.ite_none_right_eq_some] at h
  obtain ⟨-, hbounds, hvalue⟩ := h
  rw [← Option.some.inj hvalue]
  exact hbounds

theorem document_of_read? {text : Bytes} {j : Json} (h : read? text = some j) :
    document text = .ok j := by
  rw [document]
  split
  · rename_i hblank
    have hskip : skipBlanks text = [] := by
      rw [skipBlanks, List.dropWhile_eq_nil_iff]
      exact List.all_eq_true.1 hblank
    simp [read?, readValue, hskip] at h
  · rw [h]

end Json

/-- JSON is such a format. -/
theorem DocumentFormat.json_readsJson : DocumentFormat.json.ReadsJson fun j => j where
  read_eq _ _ _ h := Json.document_of_read? h
  entry?_eq _ _ _ := rfl
  text?_eq _ := rfl
  int?_eq _ h := Json.int32?_ofInt h
  isInt32 entry n h := by
    obtain ⟨text, -, hint⟩ := Option.bind_eq_some_iff.1 h
    exact Json.isInt32_of_int32? hint

namespace Settings

/-! ## The document -/

/-- The document that has an exported text in its section `system`. -/
def documentText (exported : Bytes) : Bytes :=
  Bytes.ofString "\x7b\"system\": " ++ exported ++ [ascii '}']

/-- The integers of the settings are of 32 bits. -/
structure AreInt32 (settings : Settings) : Prop where
  maxSizeMb : IsInt32 settings.logging.maxSizeMb
  maxFiles : IsInt32 settings.logging.maxFiles
  maxNestingDepth : IsInt32 settings.maxNestingDepth

/-- The texts of the settings are in UTF-8. -/
structure AreUtf8 (settings : Settings) : Prop where
  version : Bytes.IsUtf8 settings.version
  level : Bytes.IsUtf8 settings.logging.level
  file : Bytes.IsUtf8 settings.logging.file

theorem written_json (settings : Settings) : Json.Written settings.json := by
  apply Json.Written.object
  simp only [List.forall_mem_cons]
  refine ⟨?_, ?_, .string _, by simp⟩
  · apply Json.Written.object
    simp only [List.forall_mem_cons]
    exact ⟨.string _, .string _, .ofInt _, .ofInt _, by simp⟩
  · apply Json.Written.object
    simp only [List.forall_mem_cons]
    exact ⟨.ofInt _, by simp⟩

theorem read?_documentText (settings : Settings) :
    Json.read? (documentText settings.json.text) =
      some (.object [(Bytes.ofString "system", settings.json)]) := by
  have hopening : Bytes.ofString "\x7b\"system\": " =
      ascii '{' :: (Json.quoted (Bytes.ofString "system") ++ [ascii ':', Byte.space]) := by decide
  have hread := Json.read?_entry (Bytes.ofString "system") settings.written_json
  rw [documentText, hopening]
  simpa using hread

theorem AreUtf8.text_json {settings : Settings} (h : settings.AreUtf8) :
    Bytes.IsUtf8 settings.json.text := by
  apply Json.isUtf8_text_object
  simp only [List.forall_mem_cons]
  refine ⟨⟨⟨_, rfl⟩, ?_⟩, ⟨⟨_, rfl⟩, ?_⟩, ⟨⟨_, rfl⟩, Json.isUtf8_quoted h.version⟩, by simp⟩
  · apply Json.isUtf8_text_object
    simp only [List.forall_mem_cons]
    exact ⟨⟨⟨_, rfl⟩, Json.isUtf8_quoted h.file⟩, ⟨⟨_, rfl⟩, Json.isUtf8_quoted h.level⟩,
      ⟨⟨_, rfl⟩, Json.isUtf8_text_ofInt _⟩, ⟨⟨_, rfl⟩, Json.isUtf8_text_ofInt _⟩, by simp⟩
  · apply Json.isUtf8_text_object
    simp only [List.forall_mem_cons]
    exact ⟨⟨⟨_, rfl⟩, Json.isUtf8_text_ofInt _⟩, by simp⟩

theorem AreUtf8.documentText {settings : Settings} (h : settings.AreUtf8) :
    Bytes.IsUtf8 (documentText settings.json.text) :=
  (Bytes.IsUtf8.append ⟨_, rfl⟩ h.text_json).append (Bytes.isUtf8_singleton (by decide))

end Settings

namespace DocumentFormat.ReadsJson

variable {format : DocumentFormat} {node : Json → format.Node}

/-- What stands in an object under one of its distinct keys. -/
theorem entry?_of_mem (hformat : format.ReadsJson node) {entries : List (Bytes × Json)}
    {key : Bytes} {value : Json} (hentry : (key, value) ∈ entries)
    (hdistinct : (entries.map Prod.fst).Nodup) :
    format.entry? (node (.object entries)) key = .ok (some (node value)) := by
  rw [hformat.entry?_eq entries key hdistinct, Json.find?_eq_some_of_mem hdistinct hentry]
  rfl

/-- The document describes the settings that were exported. -/
theorem describes (hformat : format.ReadsJson node) {settings : Settings}
    (hint : settings.AreInt32) (hdeep : 1 ≤ settings.maxNestingDepth) :
    format.Describes (node (.object [(Bytes.ofString "system", settings.json)])) settings := by
  have hlogging : [Bytes.ofString "file", Bytes.ofString "level", Bytes.ofString "max_files",
      Bytes.ofString "max_size_mb"].Nodup := by decide
  have hsystem : [Bytes.ofString "logging", Bytes.ofString "parser",
      Bytes.ofString "version"].Nodup := by decide
  have hentry := hformat.entry?_of_mem
    (List.mem_singleton_self (Bytes.ofString "system", settings.json)) (List.nodup_singleton _)
  refine ⟨⟨node settings.json, _, _, hentry, hformat.entry?_of_mem (.head _) hsystem,
    hformat.entry?_of_mem (.tail _ (.head _)) hsystem, ?version, ?logging, ?limit⟩, hdeep⟩
  case version =>
    exact .given (hformat.entry?_of_mem (.tail _ (.tail _ (.head _))) hsystem) (hformat.text?_eq _)
  case logging =>
    constructor
    case file => exact .given (hformat.entry?_of_mem (.head _) hlogging) (hformat.text?_eq _)
    case level =>
      exact .given (hformat.entry?_of_mem (.tail _ (.head _)) hlogging) (hformat.text?_eq _)
    case maxFiles =>
      exact .given (hformat.entry?_of_mem (.tail _ (.tail _ (.head _))) hlogging)
        (hformat.int?_eq _ hint.maxFiles)
    case maxSizeMb =>
      exact .given (hformat.entry?_of_mem (.tail _ (.tail _ (.tail _ (.head _)))) hlogging)
        (hformat.int?_eq _ hint.maxSizeMb)
  case limit =>
    exact .given (hformat.entry?_of_mem (.head _) (List.nodup_singleton _))
      (hformat.int?_eq _ hint.maxNestingDepth)

/-! ## Integers -/

theorem isInt32_of_valueIs (hformat : format.ReadsJson node) {key : Bytes} {fallback value : Int}
    {entries : Option format.Node} (h : format.ValueIs format.int? key fallback entries value)
    (hfallback : IsInt32 fallback) : IsInt32 value := by
  cases h with
  | noSection | absent | unfit => exact hfallback
  | given _ hread => exact hformat.isInt32 _ _ hread

theorem areInt32_of_describes (hformat : format.ReadsJson node) {document : format.Node}
    {settings : Settings} (h : format.Describes document settings) : settings.AreInt32 := by
  obtain ⟨system, logging, limits, -, hsections⟩ := h.system
  exact ⟨hformat.isInt32_of_valueIs hsections.logging.maxSizeMb (by decide),
    hformat.isInt32_of_valueIs hsections.logging.maxFiles (by decide),
    hformat.isInt32_of_valueIs hsections.maxNestingDepth (by decide)⟩

/-- The integers of a session are of 32 bits behind any operations. -/
theorem areInt32_after (hformat : format.ReadsJson node) (platform : Platform)
    (files : FileTree) (operations : List Operation) :
    (Session.after format platform files operations).manager.settings.AreInt32 :=
  Session.settings_after ⟨by decide, by decide, by decide⟩
    (fun _ _ h => hformat.areInt32_of_describes h) platform files operations

end DocumentFormat.ReadsJson

/-! ## Sessions -/

/-- Settings survive export and reload.  When the settings of a session are exported behind any
operations, and another session finds the document with them where a path leads, behind any
operations of its own, then it loads the document and has the same settings. -/
theorem Session.settings_survive_reload {format : DocumentFormat} {node : Json → format.Node}
    (hformat : format.ReadsJson node) (platform platform' : Platform) (files files' : FileTree)
    (operations operations' : List Operation) (path : Bytes) :
    let exporter := after format platform files operations
    let loader := after format platform' files' operations'
    exporter.manager.settings.AreUtf8 →
    loader.host.files.Reads path (Settings.documentText exporter.settingsText) →
      (loader.loadSettingsAs format path).1 = true ∧
        (loader.loadSettingsAs format path).2.manager.settings = exporter.manager.settings := by
  intro exporter loader hutf8 hreads
  have hdescribes := hformat.describes (hformat.areInt32_after platform files operations)
    (one_le_maxNestingDepth_after platform files operations)
  have hdocument := hformat.read_eq _ _ hutf8.documentText (Settings.read?_documentText _)
  have hsettings : format.SettingsAt loader.host.files path exporter.manager.settings :=
    ⟨_, ⟨_, hreads, hdocument⟩, hdescribes⟩
  exact ⟨fst_loadSettingsAs_iff.2 ⟨_, hsettings⟩, settings_perform_of_settingsAt hsettings⟩

/-- Settings with a quote in the version and a negative integer, read from one file, exported and
loaded from another one. -/
theorem Session.settings_survive_reload_small :
    let files : FileTree := ⟨[([Bytes.ofString "a"], .file (Bytes.ofString
      "\x7b\"system\":\x7b\"version\":\"1\\\"\",\"logging\":\x7b\"max_files\":-2\x7d\x7d\x7d"))]⟩
    let exporter := after .json .disk files [.loadSettings (Bytes.ofString "a")]
    let files' : FileTree :=
      ⟨[([Bytes.ofString "b"], .file (Settings.documentText exporter.settingsText))]⟩
    let loader := after .json .disk files' []
    exporter.manager.settings = ⟨Bytes.ofString "1\"", ⟨Bytes.ofString "info",
      Bytes.ofString "logs/rtos_config.log", 10, -2⟩, 64⟩ ∧
    (loader.loadSettingsAs .json (Bytes.ofString "b")).1 = true ∧
    (loader.loadSettingsAs .json (Bytes.ofString "b")).2.manager.settings =
      exporter.manager.settings := by
  intro files exporter files' loader
  have hexported : exporter.manager.settings = ⟨Bytes.ofString "1\"", ⟨Bytes.ofString "info",
      Bytes.ofString "logs/rtos_config.log", 10, -2⟩, 64⟩ := by
    decide +kernel
  have hutf8 : exporter.manager.settings.AreUtf8 := by
    rw [hexported]
    exact ⟨⟨_, rfl⟩, ⟨_, rfl⟩, ⟨_, rfl⟩⟩
  have hreads : loader.host.files.Reads (Bytes.ofString "b")
      (Settings.documentText exporter.settingsText) :=
    .file rfl
  have hreload := settings_survive_reload DocumentFormat.json_readsJson .disk .disk files files'
    [.loadSettings (Bytes.ofString "a")] [] (Bytes.ofString "b") hutf8
  obtain ⟨hdone, hsettings⟩ := hreload hreads
  refine ⟨hexported, hdone, ?_⟩
  rw [hsettings]

end RealtimeApp
