import RealtimeApp.Session
import RealtimeApp.Proofs.AppFragments
import RealtimeApp.Proofs.DecimalDigits
import RealtimeApp.Proofs.ExportReading
import RealtimeApp.Proofs.JsonText
import RealtimeApp.Proofs.Recognition
import RealtimeApp.Proofs.Relexing

/-!
# The export is faithful

The text that a session exports is read back as the application that it keeps
(`applicationText_faithful`).  Three encodings lie on top of each other: tokens are printed,
strings are escaped, and values are nested.  The last two are undone for every value
(`Json.read?_text`); printing is undone for tokens of a source without faults, of which all
fragments of an accepted application consist.
-/

namespace RealtimeApp

/-! ## Fragments -/

/-- The tokens of the fragment come back from its text, with any limit on nesting of at least the
length of the text. -/
def Fragment.Survives (fragment : Fragment) : Prop :=
  ∃ again, (∀ limit : Int, (Token.textAll fragment).length ≤ limit →
    lex (Token.textAll fragment) limit = (again, [])) ∧ Fragment.Same again fragment

/-- Fragments of a source without complaints survive. -/
theorem Fragment.survives_of_fromSpans {source : Bytes} {fragment : Fragment}
    (hcomplaints : ∀ span ∈ Span.all source, span.complaints = [])
    (hfrom : ∀ t ∈ fragment, t.FromSpans (Span.IsLeafOf source)) : fragment.Survives := by
  have hdepth : Token.depthAll fragment ≤ ((Token.textAll fragment).length : Int).toNat :=
    Token.depthAll_le_length_of_forall fun t _ => Token.depth_le_length_text t
  have halone : ∀ span, Span.IsLeafOf source span → span.StandsAlone := fun span hspan =>
    Span.standsAlone_of_mem_all hspan.1 hspan.2
  have hagain := (lex_textAll halone hfrom hdepth).1
  have hnone := faults_lex_textAll_eq_nil halone hfrom hdepth fun span hspan =>
    hcomplaints span hspan.1
  refine ⟨(lex (Token.textAll fragment) (Token.textAll fragment).length).1, ?_,
    Token.sameAll_of_unplacedAll_eq hagain⟩
  intro limit hlimit
  rw [lex_eq_of_length_le hlimit]
  exact Prod.ext rfl hnone

/-- A fragment that survives is rebuilt from its string. -/
theorem Fragment.Survives.exists_ofJson? {fragment : Fragment} (h : fragment.Survives) :
    ∃ again, Fragment.ofJson? fragment.json = some again ∧ Fragment.Same again fragment := by
  obtain ⟨again, hlex, hsame⟩ := h
  refine ⟨again, ?_, hsame⟩
  rw [Fragment.json, Fragment.ofJson?, hlex _ (Int.le_refl _)]

/-- Fragments that come back alike are alike. -/
theorem Fragment.Same.euclid {again a b : Fragment} (ha : Fragment.Same again a)
    (hb : Fragment.Same again b) : Fragment.Same a b :=
  Token.sameAll_trans (Token.sameAll_symm ha) hb

theorem Fragment.Same.json_eq {a b : Fragment} (h : Fragment.Same a b) :
    Fragment.json a = Fragment.json b :=
  congrArg Json.string (Token.textAll_eq_of_sameAll h)

/-! ## Maps -/

/-- Items are decoded up to a relation when each of them is. -/
theorem mapM_map_of_forall {α β γ : Type} (R : γ → α → Prop) (encode : α → β)
    (decode : β → Option γ) {items : List α}
    (h : ∀ a ∈ items, ∃ c, decode (encode a) = some c ∧ R c a) :
    ∃ decoded, (items.map encode).mapM decode = some decoded ∧ List.Forall₂ R decoded items := by
  induction items with
  | nil => exact ⟨[], rfl, .nil⟩
  | cons a items ih =>
      obtain ⟨c, hc, hR⟩ := h a List.mem_cons_self
      obtain ⟨decoded, hdecoded, hall⟩ := ih fun b hb => h b (List.mem_cons_of_mem a hb)
      refine ⟨c :: decoded, ?_, .cons hR hall⟩
      rw [List.map_cons, List.mapM_cons, hc, hdecoded]
      rfl

namespace NameMap

variable {α : Type}

/-- Entries in the order of their names are the entries of their map. -/
theorem entries_ofEntries {entries : List (Bytes × α)}
    (hsorted : entries.Pairwise fun a b => a.1 < b.1) : (ofEntries entries).entries = entries := by
  have hdistinct : (entries.map Prod.fst).Nodup :=
    List.pairwise_map.2 (hsorted.imp fun hlt => ne_of_lt hlt)
  have hmap : Lists ⟨entries, hsorted⟩ entries := ⟨hdistinct, fun _ => Iff.rfl⟩
  rw [← hmap.unique (lists_ofEntries hdistinct)]

theorem EntriesRelated.names_eq {R : α → α → Prop} {first second : List (Bytes × α)}
    (h : EntriesRelated R first second) : first.map Prod.fst = second.map Prod.fst := by
  induction h with
  | nil => rfl
  | cons hentry _ ih => rw [List.map_cons, List.map_cons, hentry.1, ih]

theorem EntriesRelated.eq {first second : List (Bytes × α)} (h : EntriesRelated Eq first second) :
    first = second := by
  induction h with
  | nil => rfl
  | cons hentry _ ih => rw [Prod.ext hentry.1 hentry.2, ih]

/-- Entries that come back alike are alike, where their values are. -/
theorem EntriesRelated.euclid {R : α → α → Prop} (hR : ∀ c a b, R c a → R c b → R a b)
    {again first : List (Bytes × α)} (h : EntriesRelated R again first) :
    ∀ {second}, EntriesRelated R again second → EntriesRelated R first second := by
  induction h with
  | nil =>
      intro second h'
      cases h'
      exact .nil
  | cons hentry _ ih =>
      intro second h'
      cases h' with
      | cons hentry' hothers =>
          have hname := hentry.1.symm.trans hentry'.1
          exact .cons ⟨hname, hR _ _ _ hentry.2 hentry'.2⟩ (ih hothers)

/-- Related entries are equal once their values are encoded, where related values are. -/
theorem EntriesRelated.map_eq {β : Type} {R : α → α → Prop} {encode : α → β}
    (hR : ∀ a b, R a b → encode a = encode b) {first second : List (Bytes × α)}
    (h : EntriesRelated R first second) :
    first.map (fun entry => (entry.1, encode entry.2)) =
      second.map fun entry => (entry.1, encode entry.2) := by
  induction h with
  | nil => rfl
  | cons hentry _ ih => rw [List.map_cons, List.map_cons, hentry.1, hR _ _ hentry.2, ih]

theorem EntriesRelated.json_eq {R : α → α → Prop} {encode : α → Json}
    (hR : ∀ a b, R a b → encode a = encode b) {first second : NameMap α}
    (h : EntriesRelated R first.entries second.entries) :
    first.json encode = second.json encode :=
  congrArg Json.object (h.map_eq hR)

theorem ofEntries_entries (map : NameMap α) : ofEntries map.entries = map := by
  apply ext_of_mem
  rw [entries_ofEntries map.sorted]
  exact fun _ => Iff.rfl

/-- A map is decoded, up to a relation, when its values are. -/
theorem ofJson?_json (R : α → α → Prop) {encode : α → Json} {decode : Json → Option α}
    {map : NameMap α}
    (h : ∀ entry ∈ map.entries, ∃ again, decode (encode entry.2) = some again ∧ R again entry.2) :
    ∃ again, ofJson? decode (map.json encode) = some again ∧
      EntriesRelated R again.entries map.entries := by
  -- the names come back as they are, so that the order of the entries does too
  have hentries : ∀ entry ∈ map.entries, ∃ again : Bytes × α,
      entryOfJson? decode (entry.1, encode entry.2) = some again ∧
        again.1 = entry.1 ∧ R again.2 entry.2 := by
    intro entry hentry
    obtain ⟨again, hagain, hR⟩ := h entry hentry
    exact ⟨(entry.1, again), by rw [entryOfJson?, hagain]; rfl, rfl, hR⟩
  obtain ⟨decoded, hdecoded, hall⟩ := mapM_map_of_forall
    (fun (x y : Bytes × α) => x.1 = y.1 ∧ R x.2 y.2) _ _ hentries
  have hrelated : EntriesRelated R decoded map.entries := hall
  have hsorted := List.pairwise_map.2 map.sorted
  rw [← hrelated.names_eq] at hsorted
  refine ⟨ofEntries decoded, ?_, ?_⟩
  · exact congrArg (Option.map ofEntries) hdecoded
  · rw [entries_ofEntries (List.pairwise_map.1 hsorted)]
    exact hrelated

end NameMap

/-! ## Storage, sets and tasks -/

theorem Static.Same.euclid {again a b : Static} (ha : Static.Same again a)
    (hb : Static.Same again b) : Static.Same a b :=
  ⟨ha.type.euclid hb.type, ha.initial.euclid hb.initial⟩

theorem Static.Same.json_eq {a b : Static} (h : Static.Same a b) : a.json = b.json := by
  rw [Static.json, Static.json, h.type.json_eq, h.initial.json_eq]

theorem Static.ofJson?_json {item : Static} (h : item.FragmentsHave Fragment.Survives) :
    ∃ again, Static.ofJson? item.json = some again ∧ Static.Same again item := by
  obtain ⟨type, htype, hsame⟩ := h.type.exists_ofJson?
  obtain ⟨initial, hinitial, hsame'⟩ := h.initial.exists_ofJson?
  refine ⟨⟨type, initial⟩, ?_, hsame, hsame'⟩
  have hfields : item.json.field? "expr" = some (Fragment.json item.initial) ∧
      item.json.field? "ty" = some (Fragment.json item.type) := ⟨rfl, rfl⟩
  simp [Static.ofJson?, hfields, htype, hinitial]

theorem Statics.Same.euclid {again a b : Statics} (ha : Statics.Same again a)
    (hb : Statics.Same again b) : Statics.Same a b :=
  NameMap.EntriesRelated.euclid (R := Static.Same) (fun _ _ _ => Static.Same.euclid) ha hb

theorem Statics.Same.json_eq {a b : Statics} (h : Statics.Same a b) :
    NameMap.json Static.json a = NameMap.json Static.json b :=
  NameMap.EntriesRelated.json_eq (R := Static.Same) (fun _ _ => Static.Same.json_eq) h

theorem Statics.ofJson?_json {statics : Statics}
    (h : ∀ entry ∈ statics.entries, entry.2.FragmentsHave Fragment.Survives) :
    ∃ again, NameMap.ofJson? Static.ofJson? (NameMap.json Static.json statics) = some again ∧
      Statics.Same again statics :=
  NameMap.ofJson?_json Static.Same fun entry hentry => Static.ofJson?_json (h entry hentry)

theorem NameSet.ofJson?_json (names : NameSet) :
    NameSet.ofJson? (NameSet.json names) = some names := by
  have hnames : names.names.map Json.string =
      names.entries.map fun entry => Json.string entry.1 := by
    rw [NameMap.names, List.map_map]
    rfl
  obtain ⟨decoded, hdecoded, hall⟩ := mapM_map_of_forall Eq
    (fun (entry : Bytes × Unit) => Json.string entry.1) NameSet.nameOfJson?
    fun (entry : Bytes × Unit) (_ : entry ∈ names.entries) => ⟨entry, rfl, rfl⟩
  rw [List.forall₂_eq_eq_eq] at hall
  rw [NameSet.json, NameSet.ofJson?, hnames, hdecoded, hall, Option.map_some,
    NameMap.ofEntries_entries]

theorem Json.byte?_ofInt (value : UInt8) : byte? (Json.ofInt value.toNat) = some value := by
  have hdigits : Decimal.ofDigits (Bytes.ofInt value.toNat) = value.toNat :=
    Bytes.ofDigits_ofNat value.toNat
  have hlt : value.toNat < 256 := value.toNat_lt
  rw [Json.ofInt, byte?, hdigits, if_pos hlt]
  simp

/-- Null stands exactly for what is left open. -/
theorem Json.optional?_getD {α : Type} {encode : α → Json} {decode : Json → Option α}
    (hdecode : ∀ a, decode (encode a) = some a) (hnull : ∀ a, encode a ≠ null) (value : Option α) :
    optional? decode ((value.map encode).getD null) = some value := by
  cases value with
  | none => rfl
  | some a =>
      rw [Option.map_some, Option.getD_some, optional?, hdecode a]
      · rfl
      · exact hnull a

theorem Task.ofJson?_json (task : Task) : Task.ofJson? task.json = some task := by
  have hfields : task.json.field? "enabled" = some ((task.enabled.map Json.bool).getD .null) ∧
      task.json.field? "priority" =
        some ((task.priority.map fun p => Json.ofInt p.toNat).getD .null) ∧
      task.json.field? "resources" = some (NameSet.json task.resources) := ⟨rfl, rfl, rfl⟩
  have henabled : Json.optional? Json.bool? ((task.enabled.map Json.bool).getD .null) =
      some task.enabled := by
    apply Json.optional?_getD
    · intro value
      rfl
    · intro value h
      cases h
  have hpriority : Json.optional? Json.byte?
      ((task.priority.map fun p => Json.ofInt p.toNat).getD .null) = some task.priority := by
    apply Json.optional?_getD Json.byte?_ofInt
    intro value h
    cases h
  simp [Task.ofJson?, hfields, henabled, hpriority, NameSet.ofJson?_json]

theorem Tasks.ofJson?_json (tasks : Tasks) :
    NameMap.ofJson? Task.ofJson? (NameMap.json Task.json tasks) = some tasks := by
  obtain ⟨again, hagain, hrelated⟩ := NameMap.ofJson?_json Eq
    fun (entry : Bytes × Task) (_ : entry ∈ tasks.entries) =>
      ⟨entry.2, Task.ofJson?_json entry.2, rfl⟩
  obtain rfl : again = tasks := by
    apply NameMap.ext_of_mem
    rw [hrelated.eq]
    exact fun _ => Iff.rfl
  exact hagain

/-! ## Applications -/

theorem Init.ofJson?_json {init : Init} (h : Fragment.Survives init.path) :
    ∃ again, Init.ofJson? init.json = some again ∧ Fragment.Same again.path init.path := by
  obtain ⟨path, hpath, hsame⟩ := h.exists_ofJson?
  refine ⟨⟨path⟩, ?_, hsame⟩
  have hfields : init.json.field? "path" = some (Fragment.json init.path) := rfl
  simp [Init.ofJson?, hfields, hpath]

theorem Idle.ofJson?_json {idle : Idle} (hpath : Fragment.Survives idle.path)
    (hlocals : ∀ entry ∈ idle.locals.entries, entry.2.FragmentsHave Fragment.Survives) :
    ∃ again, Idle.ofJson? idle.json = some again ∧ again.Same idle := by
  obtain ⟨path, hpath, hsame⟩ := hpath.exists_ofJson?
  obtain ⟨locals, hlocals, hsame'⟩ := Statics.ofJson?_json hlocals
  refine ⟨⟨locals, path, idle.resources⟩, ?_, hsame', hsame, rfl⟩
  have hfields : idle.json.field? "locals" = some (NameMap.json Static.json idle.locals) ∧
      idle.json.field? "path" = some (Fragment.json idle.path) ∧
      idle.json.field? "resources" = some (NameSet.json idle.resources) := ⟨rfl, rfl, rfl⟩
  simp [Idle.ofJson?, hfields, hlocals, hpath, NameSet.ofJson?_json]

/-- An application whose fragments survive is rebuilt from its JSON value. -/
theorem App.ofJson?_json {app : App} (h : app.FragmentsHave Fragment.Survives) :
    ∃ again, App.ofJson? app.json = some again ∧ again.Same app := by
  obtain ⟨device, hdevice, hsame⟩ := h.device.exists_ofJson?
  obtain ⟨idle, hidle, hsameIdle⟩ := Idle.ofJson?_json h.idle h.locals
  obtain ⟨init, hinit, hsameInit⟩ := Init.ofJson?_json h.init
  obtain ⟨resources, hresources, hsameResources⟩ := Statics.ofJson?_json h.resources
  refine ⟨⟨device, idle, init, resources, app.tasks⟩, ?_, hsame, hsameIdle, hsameInit,
    hsameResources, rfl⟩
  have hfields : app.json.field? "device" = some (Fragment.json app.device) ∧
      app.json.field? "idle" = some app.idle.json ∧ app.json.field? "init" = some app.init.json ∧
      app.json.field? "resources" = some (NameMap.json Static.json app.resources) ∧
      app.json.field? "tasks" = some (NameMap.json Task.json app.tasks) :=
    ⟨rfl, rfl, rfl, rfl, rfl⟩
  simp [App.ofJson?, hfields, hdevice, hidle, hinit, hresources, Tasks.ofJson?_json]

theorem Idle.Same.euclid {again a b : Idle} (ha : again.Same a) (hb : again.Same b) : a.Same b :=
  ⟨ha.locals.euclid hb.locals, ha.path.euclid hb.path, ha.resources.symm.trans hb.resources⟩

theorem Idle.Same.json_eq {a b : Idle} (h : a.Same b) : a.json = b.json := by
  rw [Idle.json, Idle.json, h.locals.json_eq, h.path.json_eq, h.resources]

theorem App.Same.euclid {again a b : App} (ha : again.Same a) (hb : again.Same b) : a.Same b :=
  ⟨ha.device.euclid hb.device, ha.idle.euclid hb.idle, ha.init.euclid hb.init,
    ha.resources.euclid hb.resources, ha.tasks.symm.trans hb.tasks⟩

theorem App.Same.json_eq {a b : App} (h : a.Same b) : a.json = b.json := by
  rw [App.json, App.json, h.device.json_eq, h.idle.json_eq, Init.json, h.init.json_eq,
    h.resources.json_eq, h.tasks]
  rfl

/-! ## Texts -/

namespace Json

theorem Written.object_map {α : Type} {encode : α → Json} (h : ∀ a, Written (encode a))
    (map : NameMap α) : Written (map.json encode) := by
  apply Written.object
  intro entry hentry
  obtain ⟨named, -, rfl⟩ := List.mem_map.1 hentry
  exact h named.2

theorem Written.names (names : NameSet) : Written (NameSet.json names) := by
  apply Written.array
  intro item hitem
  obtain ⟨name, -, rfl⟩ := List.mem_map.1 hitem
  exact .string name

theorem Written.optional {α : Type} {encode : α → Json} (h : ∀ a, Written (encode a))
    (value : Option α) : Written ((value.map encode).getD Json.null) := by
  cases value with
  | none => exact .null
  | some a => exact h a

end Json

theorem Static.written_json (item : Static) : Json.Written item.json := by
  apply Json.Written.object
  simp only [List.forall_mem_cons]
  exact ⟨.string _, .string _, by simp⟩

theorem Idle.written_json (idle : Idle) : Json.Written idle.json := by
  apply Json.Written.object
  simp only [List.forall_mem_cons]
  exact ⟨.object_map Static.written_json _, .string _, .names _, by simp⟩

theorem Init.written_json (init : Init) : Json.Written init.json := by
  apply Json.Written.object
  simp only [List.forall_mem_cons]
  exact ⟨.string _, by simp⟩

theorem Task.written_json (task : Task) : Json.Written task.json := by
  apply Json.Written.object
  simp only [List.forall_mem_cons]
  exact ⟨.optional .bool _, .optional (fun p : UInt8 => .ofInt p.toNat) _, .names _, by simp⟩

theorem App.written_json (app : App) : Json.Written app.json := by
  apply Json.Written.object
  simp only [List.forall_mem_cons]
  exact ⟨.string _, app.idle.written_json, app.init.written_json,
    .object_map Static.written_json _, .object_map Task.written_json _, by simp⟩

/-! ## Sessions -/

theorem App.ofSource_eq_ok_iff {source : Bytes} {limit : Int} {app : App} :
    App.ofSource source limit = .ok app ↔
      (lex source limit).2 = [] ∧ App.ofTokens (lex source limit).1 = .ok app := by
  rw [App.ofSource, App.ofReading]
  cases (lex source limit).2 with
  | nil => simp [mapError_eq_ok_iff]
  | cons fault faults => simp

/-- The fragments of an accepted application survive. -/
theorem App.fragmentsHave_survives {source : Bytes} {limit : Int} {app : App}
    (h : App.ofSource source limit = .ok app) : app.FragmentsHave Fragment.Survives := by
  obtain ⟨hnone, htokens⟩ := App.ofSource_eq_ok_iff.1 h
  obtain ⟨hcomplaints, -⟩ := lexemesAll_lex hnone
  have hdescription := Grammar.reads_app.run_eq.1 (App.ofTokens_eq_ok_iff.1 htokens)
  have hfrom := App.fragmentsHave_of_isDescription
    (Q := fun t => t.FromSpans (Span.IsLeafOf source))
    (fun d position members => Token.fromSpans_group.1) hdescription (fromSpans_lex source limit)
  exact hfrom.imp fun fragment => Fragment.survives_of_fromSpans hcomplaints

/-- What an accepted source leaves in the session. -/
theorem Session.exists_application {session : Session} {source origin : Bytes}
    (h : (session.parseApplication source origin).1 = true) :
    ∃ app, (session.parseApplication source origin).2.manager.application = some app ∧
      (session.parseApplication source origin).2.applicationText = app.json.text ∧
      app.FragmentsHave Fragment.Survives := by
  cases hsource : App.ofSource source session.manager.settings.maxNestingDepth with
  | error refusal => simp [Session.parseApplication, Session.write, hsource] at h
  | ok app =>
      refine ⟨app, ?_, ?_, App.fragmentsHave_survives hsource⟩
      · simp [Session.parseApplication, Session.write, Session.keepApplication, hsource]
      · simp [Session.parseApplication, Session.write, Session.keepApplication,
          Session.applicationText, hsource]

/-- Applications whose fragments survive are exported alike exactly when they are the same. -/
theorem App.text_json_eq_iff {first second : App}
    (hfirst : first.FragmentsHave Fragment.Survives)
    (hsecond : second.FragmentsHave Fragment.Survives) :
    first.json.text = second.json.text ↔ first.Same second := by
  constructor
  · intro htext
    obtain ⟨again, hagain, hsame⟩ := App.ofJson?_json hfirst
    obtain ⟨again', hagain', hsame'⟩ := App.ofJson?_json hsecond
    have hread := Json.read?_text first.written_json
    rw [htext, Json.read?_text second.written_json, Option.some.injEq] at hread
    rw [← hread, hagain', Option.some.injEq] at hagain
    rw [← hagain] at hsame
    exact hsame.euclid hsame'
  · intro hsame
    rw [hsame.json_eq]

/-- The exported text of an accepted source is read back as the application: its fragments are
written the same way, and its names, sets, truth values and priorities are equal, with null
exactly where they are left open.  So two accepted sources are exported alike exactly when their
applications are the same. -/
theorem applicationText_faithful {session : Session} {source origin : Bytes}
    (h : (session.parseApplication source origin).1 = true) :
    ∃ app json again,
      (session.parseApplication source origin).2.manager.application = some app ∧
      Json.read? (session.parseApplication source origin).2.applicationText = some json ∧
      App.ofJson? json = some again ∧ again.Same app ∧
      ∀ (other : Session) (source' origin' : Bytes) (app' : App),
        (other.parseApplication source' origin').1 = true →
        (other.parseApplication source' origin').2.manager.application = some app' →
        ((session.parseApplication source origin).2.applicationText =
          (other.parseApplication source' origin').2.applicationText ↔ app.Same app') := by
  obtain ⟨app, happ, htext, hsurvive⟩ := Session.exists_application h
  obtain ⟨again, hagain, hsame⟩ := App.ofJson?_json hsurvive
  refine ⟨app, app.json, again, happ, ?_, hagain, hsame, ?_⟩
  · rw [htext]
    exact Json.read?_text app.written_json
  · intro other source' origin' app' h' happ'
    obtain ⟨found, hfound, htext', hsurvive'⟩ := Session.exists_application h'
    obtain rfl : app' = found := Option.some.inj (happ'.symm.trans hfound)
    rw [htext, htext']
    exact App.text_json_eq_iff hsurvive hsurvive'

/-- A description, and the same one with a comment and blanks. -/
def smallDescriptions : Bytes × Bytes :=
  (Bytes.ofString "\x7bdevice:d,idle:\x7bpath:i\x7d,init:\x7bpath:n\x7d,tasks:\x7bt:\x7bpriority:1\x7d\x7d\x7d",
    Bytes.ofString "\x7b/* */device: d, idle: \x7bpath: i\x7d, init: \x7bpath: n\x7d, tasks: \x7bt: \x7bpriority: 1\x7d\x7d,\x7d")

theorem applicationText_faithful_small :
    let session := Session.start .disk .empty
    (session.parseApplication smallDescriptions.1 []).1 = true ∧
    (session.parseApplication smallDescriptions.2 []).1 = true ∧
    ∃ app app',
      (session.parseApplication smallDescriptions.1 []).2.manager.application = some app ∧
      (session.parseApplication smallDescriptions.2 []).2.manager.application = some app' ∧
      app.Same app' := by
  intro session
  have haccepted : (session.parseApplication smallDescriptions.1 []).1 = true := by
    decide +kernel
  have haccepted' : (session.parseApplication smallDescriptions.2 []).1 = true := by
    decide +kernel
  have htext : (session.parseApplication smallDescriptions.1 []).2.applicationText =
      (session.parseApplication smallDescriptions.2 []).2.applicationText := by
    decide +kernel
  obtain ⟨app, -, -, happ, -, -, -, hothers⟩ := applicationText_faithful haccepted
  obtain ⟨app', -, -, happ', -⟩ := applicationText_faithful haccepted'
  exact ⟨haccepted, haccepted', app, app', happ, happ',
    (hothers _ _ _ app' haccepted' happ').1 htext⟩

end RealtimeApp
