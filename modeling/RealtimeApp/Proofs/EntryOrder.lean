import RealtimeApp.Proofs.Recognition
import RealtimeApp.Proofs.Reordering

/-!
# The order of entries

The written form of an application is kept when the entries of its lists are put into another
order, in the block itself and in every list inside it, and when commas behind last items are
added or dropped.  So a block and its reordering stand for the same application, or for none
(`ofTokens_reordered`).
-/

namespace RealtimeApp

open Written

/-! ## Lists inside lists -/

/-- A value stays, or it begins with a group whose members are changed as is allowed under its key;
the place of the group does not count. -/
inductive Change (Nested : Bytes → Delimiter → List Token → List Token → Prop) (key : Bytes) :
    List Token → List Token → Prop
  | unchanged {value : List Token} : Change Nested key value value
  | inside {d : Delimiter} {position position' : Position} {members others rest : List Token} :
      Nested key d members others →
      Change Nested key (.group d position members :: rest) (.group d position' others :: rest)

/-- Fields in another order, with lists inside their values in another order. -/
abbrev FieldsReordered (Nested : Bytes → Delimiter → List Token → List Token → Prop) :
    List Token → List Token → Prop :=
  Reordered (FieldChange (Change Nested))

/-- A start routine has no lists inside. -/
def InitNested (_key : Bytes) (_d : Delimiter) (_members _others : List Token) : Prop := False

/-- The lists inside an idle routine. -/
inductive IdleNested (key : Bytes) : Delimiter → List Token → List Token → Prop
  | locals {members others : List Token} :
      key = Bytes.ofString "locals" → StorageReordered members others →
      IdleNested key .brace members others
  | resources {members others : List Token} :
      key = Bytes.ofString "resources" → Reordered SameName members others →
      IdleNested key .bracket members others

/-- The list inside a task. -/
inductive TaskNested (key : Bytes) : Delimiter → List Token → List Token → Prop
  | resources {members others : List Token} :
      key = Bytes.ofString "resources" → Reordered SameName members others →
      TaskNested key .bracket members others

/-- Under every name, the fields of a task. -/
inductive TasksNested (key : Bytes) : Delimiter → List Token → List Token → Prop
  | task {members others : List Token} :
      FieldsReordered TaskNested members others → TasksNested key .brace members others

/-- The lists inside an application. -/
inductive AppNested (key : Bytes) : Delimiter → List Token → List Token → Prop
  | idle {members others : List Token} :
      key = Bytes.ofString "idle" → FieldsReordered IdleNested members others →
      AppNested key .brace members others
  | init {members others : List Token} :
      key = Bytes.ofString "init" → FieldsReordered InitNested members others →
      AppNested key .brace members others
  | resources {members others : List Token} :
      key = Bytes.ofString "resources" → StorageReordered members others →
      AppNested key .brace members others
  | tasks {members others : List Token} :
      key = Bytes.ofString "tasks" → FieldsReordered TasksNested members others →
      AppNested key .brace members others

/-- An application block, and the same block with the entries of its lists in any order. -/
inductive BlockReordered : List Token → List Token → Prop
  | block {position position' : Position} {members others : List Token} :
      FieldsReordered AppNested members others →
      BlockReordered [.group .brace position members] [.group .brace position' others]

/-! ## The other way round -/

theorem Reordered.symm_of_names {tokens others : List Token}
    (h : Reordered SameName tokens others) : Reordered SameName others tokens := by
  refine h.symm ?_
  rintro run _ ⟨rfl, hname⟩
  exact ⟨rfl, hname⟩

/-- Fields are reordered back when the lists inside them are. -/
theorem fieldsReordered_symm {Nested : Bytes → Delimiter → List Token → List Token → Prop}
    {tokens others : List Token} (h : FieldsReordered Nested tokens others)
    (hNested : ∀ key d members others, Nested key d members others → Nested key d others members) :
    FieldsReordered Nested others tokens := by
  refine h.symm fun run other hchange => hchange.symm ?_
  intro key value other hvalue
  cases hvalue with
  | unchanged => exact .unchanged
  | inside hnested => exact .inside (hNested _ _ _ _ hnested)

theorem InitNested.symm {key : Bytes} {d : Delimiter} {members others : List Token}
    (h : InitNested key d members others) : InitNested key d others members := h

theorem IdleNested.symm {key : Bytes} {d : Delimiter} {members others : List Token}
    (h : IdleNested key d members others) : IdleNested key d others members := by
  cases h with
  | locals hkey hmembers => exact .locals hkey hmembers.symm
  | resources hkey hmembers => exact .resources hkey hmembers.symm_of_names

theorem TaskNested.symm {key : Bytes} {d : Delimiter} {members others : List Token}
    (h : TaskNested key d members others) : TaskNested key d others members := by
  cases h with
  | resources hkey hmembers => exact .resources hkey hmembers.symm_of_names

theorem TasksNested.symm {key : Bytes} {d : Delimiter} {members others : List Token}
    (h : TasksNested key d members others) : TasksNested key d others members := by
  cases h with
  | task hmembers => exact .task (fieldsReordered_symm hmembers fun _ _ _ _ => TaskNested.symm)

theorem AppNested.symm {key : Bytes} {d : Delimiter} {members others : List Token}
    (h : AppNested key d members others) : AppNested key d others members := by
  cases h with
  | idle hkey hmembers =>
      exact .idle hkey (fieldsReordered_symm hmembers fun _ _ _ _ => IdleNested.symm)
  | init hkey hmembers =>
      exact .init hkey (fieldsReordered_symm hmembers fun _ _ _ _ => InitNested.symm)
  | resources hkey hmembers => exact .resources hkey hmembers.symm
  | tasks hkey hmembers =>
      exact .tasks hkey (fieldsReordered_symm hmembers fun _ _ _ _ => TasksNested.symm)

theorem BlockReordered.symm {tokens others : List Token} (h : BlockReordered tokens others) :
    BlockReordered others tokens := by
  cases h with
  | block hmembers => exact .block (fieldsReordered_symm hmembers fun _ _ _ _ => AppNested.symm)

/-! ## Written values -/

section Values

variable {α : Type} {d d' : Delimiter} {Form : α → List Token → Prop} {a : α}

theorem Written.Group.commaFree {tokens : List Token} (h : Group d Form a tokens) :
    ∀ t ∈ tokens, t.isLeaf .comma = false := by
  obtain ⟨position, members, rfl, -⟩ := h
  intro t ht
  obtain rfl := List.mem_singleton.1 ht
  rfl

/-- A group is kept when its members are. -/
theorem Written.Group.congr {position position' : Position} {members others rest : List Token}
    (h : Group d Form a (.group d' position members :: rest))
    (hmembers : Form a members → Form a others) :
    Group d Form a (.group d' position' others :: rest) := by
  obtain ⟨_, _, heq, hform⟩ := h
  cases heq
  exact ⟨_, _, rfl, hmembers hform⟩

theorem Written.GivenOr.perm {F : Type} {fields fields' : List F} {make : α → F} {default value : α}
    (h : GivenOr fields make default value) (hperm : fields.Perm fields') :
    GivenOr fields' make default value := by
  rcases h with hmem | ⟨hnone, hdefault⟩
  · exact .inl (hperm.mem_iff.1 hmem)
  · exact .inr ⟨fun other hother => hnone other (hperm.mem_iff.2 hother), hdefault⟩

theorem commaFree_leaf {l : Leaf} {kind : LeafKind} (hkind : l.kind = kind)
    (hne : kind ≠ .comma) : ∀ t ∈ [Token.leaf l], t.isLeaf .comma = false := by
  intro t ht
  obtain rfl := List.mem_singleton.1 ht
  rw [Token.isLeaf, hkind, beq_eq_false_iff_ne]
  exact hne

end Values

/-! ## Routines -/

namespace Written

theorem InitField.commaFree (field : InitField) (value : List Token) (h : field.Value value) :
    ∀ t ∈ value, t.isLeaf .comma = false := by
  cases field with
  | path p =>
      obtain ⟨rfl, hrun⟩ := h
      exact hrun.stopless

theorem IsInit.of_reordered {init : Init} {tokens others : List Token} (h : IsInit init tokens)
    (hreordered : FieldsReordered InitNested tokens others) : IsInit init others := by
  obtain ⟨fields, hfields, hpath⟩ := h
  have hkeep : ∀ (field : InitField) value other, Change InitNested field.key value other →
      field.Value value → field.Value other := by
    intro field value other hchange hvalue
    cases hchange with
    | unchanged => exact hvalue
    | inside hnested => exact hnested.elim
  obtain ⟨fields', hperm, hfields'⟩ :=
    hreordered.exists_areFields InitField.commaFree hkeep hfields
  exact ⟨fields', hfields', hperm.mem_iff.1 hpath⟩

theorem IdleField.commaFree (field : IdleField) (value : List Token) (h : field.Value value) :
    ∀ t ∈ value, t.isLeaf .comma = false := by
  cases field with
  | path p =>
      obtain ⟨rfl, hrun⟩ := h
      exact hrun.stopless
  | locals statics => exact Group.commaFree h
  | resources idents => exact Group.commaFree h

theorem IsIdle.of_reordered {idle : Idle} {tokens others : List Token} (h : IsIdle idle tokens)
    (hreordered : FieldsReordered IdleNested tokens others) : IsIdle idle others := by
  obtain ⟨fields, hfields, hdescribe⟩ := h
  have hkeep : ∀ (field : IdleField) value other, Change IdleNested field.key value other →
      field.Value value → field.Value other := by
    intro field value other hchange hvalue
    cases hchange with
    | unchanged => exact hvalue
    | inside hnested =>
        -- the list is changed under the key of its kind, so the field is of this kind
        cases hnested with
        | locals hkey hmembers =>
            obtain ⟨statics, rfl⟩ := Grammar.IdleSlots.localsSlot.exists_eq_make hkey
            exact Group.congr hvalue hmembers.areStatics
        | resources hkey hmembers =>
            obtain ⟨idents, rfl⟩ := Grammar.IdleSlots.resourcesSlot.exists_eq_make hkey
            exact Group.congr hvalue hmembers.areIdents
  obtain ⟨fields', hperm, hfields'⟩ :=
    hreordered.exists_areFields IdleField.commaFree hkeep hfields
  obtain ⟨hpath, hlocals, hresources⟩ := hdescribe
  exact ⟨fields', hfields', hperm.mem_iff.1 hpath, hlocals.perm hperm, hresources.perm hperm⟩

/-! ## Tasks -/

theorem TaskField.commaFree (field : TaskField) (value : List Token) (h : field.Value value) :
    ∀ t ∈ value, t.isLeaf .comma = false := by
  cases field with
  | enabled b =>
      obtain ⟨l, rfl, hkind, -⟩ := h
      exact commaFree_leaf hkind (by decide)
  | priority p =>
      obtain ⟨l, n, rfl, hkind, -⟩ := h
      exact commaFree_leaf hkind (by decide)
  | resources idents => exact Group.commaFree h

theorem IsTask.of_reordered {task : Task} {tokens others : List Token} (h : IsTask task tokens)
    (hreordered : FieldsReordered TaskNested tokens others) : IsTask task others := by
  obtain ⟨fields, hfields, hdescribe⟩ := h
  have hkeep : ∀ (field : TaskField) value other, Change TaskNested field.key value other →
      field.Value value → field.Value other := by
    intro field value other hchange hvalue
    cases hchange with
    | unchanged => exact hvalue
    | inside hnested =>
        cases hnested with
        | resources hkey hmembers =>
            obtain ⟨idents, rfl⟩ := Grammar.TaskSlots.resourcesSlot.exists_eq_make hkey
            exact Group.congr hvalue hmembers.areIdents
  obtain ⟨fields', hperm, hfields'⟩ :=
    hreordered.exists_areFields TaskField.commaFree hkeep hfields
  obtain ⟨henabled, hpriority, hresources⟩ := hdescribe
  refine ⟨fields', hfields', ?_, ?_, hresources.perm hperm⟩
  · exact fun value => (henabled value).trans hperm.mem_iff
  · exact fun value => (hpriority value).trans hperm.mem_iff

theorem AreTasks.of_reordered {tasks : Tasks} {tokens others : List Token}
    (h : AreTasks tasks tokens) (hreordered : FieldsReordered TasksNested tokens others) :
    AreTasks tasks others := by
  obtain ⟨entries, hentries, hlists⟩ := h
  have hkeep : ∀ (entry : Bytes × Task) value other, Change TasksNested entry.1 value other →
      Group .brace IsTask entry.2 value → Group .brace IsTask entry.2 other := by
    intro entry value other hchange hvalue
    cases hchange with
    | unchanged => exact hvalue
    | inside hnested =>
        cases hnested with
        | task hmembers => exact Group.congr hvalue fun htask => htask.of_reordered hmembers
  obtain ⟨entries', hperm, hentries'⟩ :=
    hreordered.exists_areFields (fun _ _ h => Group.commaFree h) hkeep hentries
  exact ⟨entries', hentries', hlists.perm hperm⟩

/-! ## Applications -/

theorem AppField.commaFree (field : AppField) (value : List Token) (h : field.Value value) :
    ∀ t ∈ value, t.isLeaf .comma = false := by
  cases field with
  | device p =>
      obtain ⟨rfl, hrun⟩ := h
      exact hrun.stopless
  | idle _ | init _ | resources _ | tasks _ => exact Group.commaFree h

theorem IsApp.of_reordered {app : App} {tokens others : List Token} (h : IsApp app tokens)
    (hreordered : FieldsReordered AppNested tokens others) : IsApp app others := by
  obtain ⟨fields, hfields, hdescribe⟩ := h
  have hkeep : ∀ (field : AppField) value other, Change AppNested field.key value other →
      field.Value value → field.Value other := by
    intro field value other hchange hvalue
    cases hchange with
    | unchanged => exact hvalue
    | inside hnested =>
        cases hnested with
        | idle hkey hmembers =>
            obtain ⟨idle, rfl⟩ := Grammar.AppSlots.idleSlot.exists_eq_make hkey
            exact Group.congr hvalue fun hidle => IsIdle.of_reordered hidle hmembers
        | init hkey hmembers =>
            obtain ⟨init, rfl⟩ := Grammar.AppSlots.initSlot.exists_eq_make hkey
            exact Group.congr hvalue fun hinit => IsInit.of_reordered hinit hmembers
        | resources hkey hmembers =>
            obtain ⟨statics, rfl⟩ := Grammar.AppSlots.resourcesSlot.exists_eq_make hkey
            exact Group.congr hvalue hmembers.areStatics
        | tasks hkey hmembers =>
            obtain ⟨tasks, rfl⟩ := Grammar.AppSlots.tasksSlot.exists_eq_make hkey
            exact Group.congr hvalue fun htasks => AreTasks.of_reordered htasks hmembers
  obtain ⟨fields', hperm, hfields'⟩ :=
    hreordered.exists_areFields AppField.commaFree hkeep hfields
  obtain ⟨hdevice, hidle, hinit, hresources, htasks⟩ := hdescribe
  exact ⟨fields', hfields', hperm.mem_iff.1 hdevice, hperm.mem_iff.1 hidle, hperm.mem_iff.1 hinit,
    hresources.perm hperm, htasks.perm hperm⟩

end Written

theorem BlockReordered.ofTokens_eq_ok {tokens others : List Token} {app : App}
    (h : BlockReordered tokens others) (happ : App.ofTokens tokens = .ok app) :
    App.ofTokens others = .ok app := by
  have hdescription := Grammar.reads_app.run_eq.1 (App.ofTokens_eq_ok_iff.1 happ)
  cases h with
  | block hmembers =>
      refine App.ofTokens_eq_ok_iff.2 (Grammar.reads_app.run_eq.2 ?_)
      exact Group.congr hdescription fun hmembers' => IsApp.of_reordered hmembers' hmembers

/-- The order of entries never matters, nor do commas behind last items: a block and the same
block with its lists in another order both stand for the same application or are both refused. -/
theorem ofTokens_reordered {tokens others : List Token} (h : BlockReordered tokens others) :
    (∃ app, App.ofTokens tokens = .ok app ∧ App.ofTokens others = .ok app) ∨
      ∃ e e', App.ofTokens tokens = .error e ∧ App.ofTokens others = .error e' := by
  cases hread : App.ofTokens tokens with
  | ok app => exact .inl ⟨app, rfl, h.ofTokens_eq_ok hread⟩
  | error e =>
      cases hread' : App.ofTokens others with
      | ok app =>
          rw [h.symm.ofTokens_eq_ok hread'] at hread
          cases hread
      | error e' => exact .inr ⟨e, e', rfl, rfl⟩

/-- The fields of a block and of its idle routine in two orders, with one more comma. -/
theorem ofTokens_reordered_small :
    let word : String → Token := fun name =>
      .leaf ⟨.ident, Bytes.ofString name, none, [], ⟨1, 1⟩⟩
    let colon : Token := .leaf ⟨.colon, Bytes.ofString ":", none, [], ⟨1, 1⟩⟩
    let comma : Token := .leaf ⟨.comma, Bytes.ofString ",", none, [], ⟨1, 1⟩⟩
    let device := [word "device", colon, word "d"]
    let init := [word "init", colon, .group .brace ⟨1, 1⟩ [word "path", colon, word "q"]]
    let path := [word "path", colon, word "p"]
    let resources := [word "resources", colon, .group .bracket ⟨1, 1⟩ [word "a"]]
    let idle := [word "idle", colon, .group .brace ⟨1, 1⟩ (path ++ comma :: resources)]
    let idle' := [word "idle", colon, .group .brace ⟨1, 2⟩ (resources ++ comma :: path)]
    let tokens := [.group .brace ⟨1, 1⟩ (device ++ comma :: (idle ++ comma :: init))]
    let others := [.group .brace ⟨1, 1⟩ (init ++ comma :: (idle' ++ comma :: (device ++ [comma])))]
    BlockReordered tokens others ∧ Token.sameAll tokens others = false ∧
      ∃ app, App.ofTokens tokens = .ok app ∧ App.ofTokens others = .ok app := by
  intro word colon comma device init path resources idle idle' tokens others
  have hidle : FieldsReordered IdleNested (path ++ comma :: resources)
      (resources ++ comma :: path) := by
    refine ⟨[(path, path), (resources, resources)], [(resources, resources), (path, path)],
      .swap _ _ _, ?_, .cons rfl rfl (.last rfl), .cons rfl rfl (.last rfl)⟩
    rintro pair hpair
    rcases List.mem_pair.1 hpair with rfl | rfl
    · exact .field rfl rfl (by decide) (by decide) .unchanged
    · exact .field rfl rfl (by decide) (by decide) .unchanged
  have hblock : BlockReordered tokens others := by
    refine .block ⟨[(device, device), (idle, idle'), (init, init)],
      [(init, init), (idle, idle'), (device, device)], ?_, ?_,
      .cons rfl rfl (.cons rfl rfl (.last rfl)),
      .cons rfl rfl (.cons rfl rfl (.cons rfl rfl .nil))⟩
    · exact List.reverse_perm [(init, init), (idle, idle'), (device, device)]
    · intro pair hpair
      simp only [List.mem_cons, List.not_mem_nil, or_false] at hpair
      rcases hpair with rfl | rfl | rfl
      · exact .field rfl rfl (by decide) (by decide) .unchanged
      · exact .field rfl rfl (by decide) (by decide) (.inside (.idle rfl hidle))
      · exact .field rfl rfl (by decide) (by decide) .unchanged
  refine ⟨hblock, by decide +kernel, ?_⟩
  rcases ofTokens_reordered hblock with happ | ⟨e, e', he, -⟩
  · exact happ
  · have hok : (App.ofTokens tokens).isOk = true := by decide +kernel
    rw [he] at hok
    cases hok

end RealtimeApp
