import RealtimeApp.Grammar
import RealtimeApp.Proofs.Slots
import RealtimeApp.Proofs.ValueReading

/-!
# The language that is accepted

Each rule of the grammar reads the written form of its values, and the rule for a whole
description accepts exactly the written applications (`App.ofTokens_eq_ok_iff_isDescription`).
-/

namespace RealtimeApp
namespace Grammar

open Rule Written

/-! ## Names -/

/-- Reading goes on behind a name that is new. -/
theorem readIdents_ident {set : NameSet} {l : Leaf} (hident : l.kind = .ident)
    (hnew : set.contains l.lexeme = false) (afterName : List Token) :
    readIdents set (.leaf l :: afterName) =
      match afterName with
      | [] => .ok (set.insert l.lexeme ())
      | separator :: rest =>
        if separator.isLeaf .comma then readIdents (set.insert l.lexeme ()) rest
        else .error (.ofCause (.wanted .comma (some separator))) := by
  rw [readIdents.eq_def]
  simp only [Token.ident?, if_pos hident, hnew]
  cases afterName <;> rfl

theorem idents_of_readIdents {set final : NameSet} {tokens : List Token} :
    readIdents set tokens = .ok final → ∀ before, set.Lists before →
      ∃ entries, Commas IsIdent entries tokens ∧ final.Lists (before ++ entries) := by
  -- `before` are the names read so far, from which the set was made
  fun_induction readIdents set tokens with
  | case1 set =>
      intro h before hbefore
      cases h
      exact ⟨[], .nil, by simpa using hbefore⟩
  | case2 | case3 | case6 =>
      intro h
      cases h
  | case4 set first l hident hcontains =>
      intro h before hbefore
      cases h
      obtain ⟨rfl, hkind⟩ := Token.ident?_eq_some.1 hident
      have hnew := hbefore.contains_eq_false_iff.1 (by simpa using hcontains)
      refine ⟨[(l.lexeme, ())], .last ⟨.leaf l, rfl, l, rfl, hkind, rfl⟩, ?_⟩
      exact hbefore.insert () hnew
  | case5 set first l hident hcontains comma rest hcomma ih =>
      intro h before hbefore
      obtain ⟨rfl, hkind⟩ := Token.ident?_eq_some.1 hident
      have hnew := hbefore.contains_eq_false_iff.1 (by simpa using hcontains)
      obtain ⟨entries, hentries, hfinal⟩ := ih h _ (hbefore.insert () hnew)
      have hname : IsIdent (l.lexeme, ()) [.leaf l] := ⟨.leaf l, rfl, l, rfl, hkind, rfl⟩
      exact ⟨(l.lexeme, ()) :: entries, .cons hname hcomma hentries, by simpa using hfinal⟩

theorem readIdents_of_idents {entries : List (Bytes × Unit)} {tokens : List Token}
    (h : Commas IsIdent entries tokens) :
    ∀ {set final : NameSet} {before : List (Bytes × Unit)}, set.Lists before →
      final.Lists (before ++ entries) → readIdents set tokens = .ok final := by
  induction h with
  | nil =>
      intro set final before hbefore hfinal
      rw [List.append_nil] at hfinal
      rw [readIdents, hbefore.unique hfinal]
  | @last entry run hident =>
      intro set final before hbefore hfinal
      obtain ⟨name, value⟩ := entry
      obtain ⟨_, rfl, l, rfl, hkind, rfl⟩ := hident
      have hnew := not_mem_map_of_nodup hfinal.distinct
      rw [readIdents_ident hkind (hbefore.contains_eq_false_iff.2 hnew)]
      exact congrArg _ ((hbefore.insert value hnew).unique hfinal)
  | @cons entry run rest comma entries hident hcomma _ ih =>
      intro set final before hbefore hfinal
      obtain ⟨name, value⟩ := entry
      obtain ⟨_, rfl, l, rfl, hkind, rfl⟩ := hident
      have hnew := not_mem_map_of_nodup hfinal.distinct
      rw [List.singleton_append, readIdents_ident hkind (hbefore.contains_eq_false_iff.2 hnew)]
      simp only [if_pos hcomma]
      exact ih (hbefore.insert value hnew) (by simpa using hfinal)

theorem reads_idents : idents.Reads (Group .bracket AreIdents) := by
  apply reads_delimited
  intro set members
  constructor
  · intro h
    obtain ⟨entries, hentries, hset⟩ := idents_of_readIdents h [] NameMap.lists_empty
    exact ⟨entries, hentries, hset⟩
  · rintro ⟨entries, hentries, hset⟩
    exact readIdents_of_idents hentries NameMap.lists_empty hset

/-! ## Storage -/

/-- Reading goes on behind an entry whose name is new. -/
theorem readStatics_entry {statics : Statics} {l : Leaf} {colon : Token}
    (hident : l.kind = .ident) (hnew : statics.contains l.lexeme = false)
    (hcolon : colon.isLeaf .colon = true) (tokens : List Token) :
    readStatics statics (.leaf l :: colon :: tokens) =
      match static.run tokens with
      | (.error e, _) => .error (e.within (.entry l.lexeme))
      | (.ok value, rest) => readStatics (statics.insert l.lexeme value) rest := by
  rw [readStatics]
  simp only [Token.ident?, if_pos hident, hnew, if_pos hcolon, Bool.false_eq_true, if_false]
  split <;> simp_all

theorem statics_of_readStatics {statics final : Statics} {tokens : List Token} :
    readStatics statics tokens = .ok final → ∀ before, statics.Lists before →
      ∃ entries, IsStaticEntries entries tokens ∧ final.Lists (before ++ entries) := by
  fun_induction readStatics statics tokens with
  | case1 statics =>
      intro h before hbefore
      cases h
      exact ⟨[], .nil, by simpa using hbefore⟩
  | case6 statics first l hident hcontains colon tokens hcolon value rest hvalue ih =>
      intro h before hbefore
      obtain ⟨rfl, hkind⟩ := Token.ident?_eq_some.1 hident
      have hnew := hbefore.contains_eq_false_iff.1 (by simpa using hcontains)
      obtain ⟨equal, semicolon, rfl, htype, hequal, hinitial, hsemicolon⟩ :=
        run_static_eq_ok_iff.1 hvalue
      obtain ⟨entries, hentries, hfinal⟩ := ih h _ (hbefore.insert value hnew)
      refine ⟨(l.lexeme, value) :: entries, ?_, by simpa using hfinal⟩
      exact .cons ⟨l, rfl, hkind, rfl⟩ hcolon htype hequal hinitial hsemicolon hentries
  | _ =>
      intro h
      cases h

theorem readStatics_of_statics {entries : List (Bytes × Static)} {tokens : List Token}
    (h : IsStaticEntries entries tokens) :
    ∀ {statics final : Statics} {before : List (Bytes × Static)}, statics.Lists before →
      final.Lists (before ++ entries) → readStatics statics tokens = .ok final := by
  induction h with
  | nil =>
      intro statics final before hbefore hfinal
      rw [List.append_nil] at hfinal
      rw [readStatics, hbefore.unique hfinal]
  | @cons entry entries name colon equal semicolon rest hname hcolon htype hequal hinitial
      hsemicolon _ ih =>
      intro statics final before hbefore hfinal
      obtain ⟨name, value⟩ := entry
      obtain ⟨l, rfl, hkind, rfl⟩ := hname
      have hnew := not_mem_map_of_nodup hfinal.distinct
      have hvalue : static.run (value.type ++ equal :: (value.initial ++ semicolon :: rest)) =
          (.ok value, rest) :=
        run_static_eq_ok_iff.2 ⟨equal, semicolon, rfl, htype, hequal, hinitial, hsemicolon⟩
      rw [readStatics_entry hkind (hbefore.contains_eq_false_iff.2 hnew) hcolon, hvalue]
      exact ih (hbefore.insert value hnew) (by simpa using hfinal)

theorem reads_statics : statics.Reads (Group .brace AreStatics) := by
  apply reads_delimited
  intro statics members
  constructor
  · intro h
    obtain ⟨entries, hentries, hstatics⟩ := statics_of_readStatics h [] NameMap.lists_empty
    exact ⟨entries, hentries, hstatics⟩
  · rintro ⟨entries, hentries, hstatics⟩
    exact readStatics_of_statics hentries NameMap.lists_empty hstatics

/-! ## Routines -/

theorem filled_eq_ok_iff {α : Type} {name : Bytes} {slot : Option α} {value : α} :
    filled name slot = .ok value ↔ slot = some value := by
  cases slot with
  | none =>
      constructor
      · intro h
        cases h
      · intro h
        cases h
  | some first => simp [filled]

namespace InitSlots

/-- The path of a start routine. -/
def pathSlot : Slot InitField.key Fragment where
  name := Bytes.ofString "path"
  make := .path
  get?
    | .path value => some value
  get?_eq_some := by
    intro field value
    cases field
    simp
  key_eq_name := by
    intro field
    cases field
    simp [InitField.key]

/-- The slots that fields are read into. -/
def ofFields (fields : List InitField) : InitSlots := ⟨pathSlot.find fields⟩

/-- The slots with the rules for their values. -/
def readers : List (Reader InitField.key) :=
  [⟨pathSlot, Grammar.path⟩]

theorem visits_slot (name : Leaf) (before : List InitField) :
    VisitsSlot readers ofFields name before (visit name (ofFields before)) := by
  rw [visit]
  split
  · rename_i hname
    refine .fills ⟨pathSlot, Grammar.path⟩ (by simp [readers]) hname fun hnone value => ?_
    rw [ofFields, Slot.find_append_self _ hnone]
  · rename_i hpath
    apply VisitsSlot.unknown
    simp only [readers, List.forall_mem_cons]
    exact ⟨Ne.symm hpath, by simp⟩

theorem reads_visit (name : Leaf) (before : List InitField) :
    (visit name (ofFields before)).Reads
      (Fields.Extends InitField.key InitField.Value ofFields name before) := by
  apply (visits_slot name before).reads
  · simp only [readers, List.forall_mem_cons]
    exact ⟨reads_path, by simp⟩
  · intro field
    cases field with
    | path p => simp [readers, InitField.key, pathSlot]

theorem finish_eq_ok_iff {slots : InitSlots} {init : Init} :
    slots.finish = .ok init ↔ slots.path = some init.path := by
  simp only [finish, bind_eq_ok_iff, filled_eq_ok_iff]
  constructor
  · rintro ⟨path, hpath, h⟩
    cases h
    exact hpath
  · intro hpath
    exact ⟨init.path, hpath, rfl⟩

theorem finish_ofFields (fields : List InitField) (init : Init)
    (hdistinct : (fields.map InitField.key).Nodup) :
    (ofFields fields).finish = .ok init ↔ .path init.path ∈ fields := by
  rw [finish_eq_ok_iff]
  exact pathSlot.find_eq_some_iff hdistinct

end InitSlots

theorem reads_init : init.Reads (Group .brace IsInit) :=
  Fields.reads_group (fun name before _ => InitSlots.reads_visit name before)
    InitSlots.finish_ofFields

namespace IdleSlots

/-- The path of an idle routine. -/
def pathSlot : Slot IdleField.key Fragment where
  name := Bytes.ofString "path"
  make := .path
  get?
    | .path value => some value
    | _ => none
  get?_eq_some := by
    intro field value
    cases field <;> simp
  key_eq_name := by
    intro field
    cases field <;> simp [IdleField.key] <;> decide

/-- The storage of an idle routine. -/
def localsSlot : Slot IdleField.key Statics where
  name := Bytes.ofString "locals"
  make := .locals
  get?
    | .locals value => some value
    | _ => none
  get?_eq_some := by
    intro field value
    cases field <;> simp
  key_eq_name := by
    intro field
    cases field <;> simp [IdleField.key] <;> decide

/-- The names of the shared storage that an idle routine uses. -/
def resourcesSlot : Slot IdleField.key NameSet where
  name := Bytes.ofString "resources"
  make := .resources
  get?
    | .resources value => some value
    | _ => none
  get?_eq_some := by
    intro field value
    cases field <;> simp
  key_eq_name := by
    intro field
    cases field <;> simp [IdleField.key] <;> decide

/-- The slots that fields are read into. -/
def ofFields (fields : List IdleField) : IdleSlots :=
  ⟨localsSlot.find fields, pathSlot.find fields, resourcesSlot.find fields⟩

/-- The slots with the rules for their values. -/
def readers : List (Reader IdleField.key) :=
  [⟨pathSlot, Grammar.path⟩, ⟨localsSlot, statics⟩, ⟨resourcesSlot, idents⟩]

theorem visits_slot (name : Leaf) (before : List IdleField) :
    VisitsSlot readers ofFields name before (visit name (ofFields before)) := by
  rw [visit]
  split
  · rename_i hname
    refine .fills ⟨pathSlot, Grammar.path⟩ (by simp [readers]) hname fun hnone value => ?_
    simp (disch := decide) only [ofFields, Slot.find_append_self _ hnone, Slot.find_append_other]
  split
  · rename_i hname
    refine .fills ⟨localsSlot, statics⟩ (by simp [readers]) hname fun hnone value => ?_
    simp (disch := decide) only [ofFields, Slot.find_append_self _ hnone, Slot.find_append_other]
  split
  · rename_i hname
    refine .fills ⟨resourcesSlot, idents⟩ (by simp [readers]) hname fun hnone value => ?_
    simp (disch := decide) only [ofFields, Slot.find_append_self _ hnone, Slot.find_append_other]
  · rename_i hpath hlocals hresources
    apply VisitsSlot.unknown
    simp only [readers, List.forall_mem_cons]
    exact ⟨Ne.symm hpath, Ne.symm hlocals, Ne.symm hresources, by simp⟩

theorem reads_visit (name : Leaf) (before : List IdleField) :
    (visit name (ofFields before)).Reads
      (Fields.Extends IdleField.key IdleField.Value ofFields name before) := by
  apply (visits_slot name before).reads
  · simp only [readers, List.forall_mem_cons]
    exact ⟨reads_path, reads_statics, reads_idents, by simp⟩
  · intro field
    cases field <;> simp [readers, IdleField.key, pathSlot, localsSlot, resourcesSlot]

theorem finish_eq_ok_iff {slots : IdleSlots} {idle : Idle} :
    slots.finish = .ok idle ↔ slots.path = some idle.path ∧
      idle.locals = slots.locals.getD .empty ∧ idle.resources = slots.resources.getD .empty := by
  simp only [finish, bind_eq_ok_iff, filled_eq_ok_iff]
  constructor
  · rintro ⟨path, hpath, h⟩
    cases h
    exact ⟨hpath, rfl, rfl⟩
  · rintro ⟨hpath, hlocals, hresources⟩
    refine ⟨idle.path, hpath, ?_⟩
    rw [← hlocals, ← hresources]
    rfl

theorem finish_ofFields (fields : List IdleField) (idle : Idle)
    (hdistinct : (fields.map IdleField.key).Nodup) :
    (ofFields fields).finish = .ok idle ↔ IdleField.Describe fields idle := by
  rw [finish_eq_ok_iff, ofFields, pathSlot.find_eq_some_iff hdistinct,
    localsSlot.getD_find_iff hdistinct, resourcesSlot.getD_find_iff hdistinct]
  constructor
  · rintro ⟨hpath, hlocals, hresources⟩
    exact ⟨hpath, hlocals, hresources⟩
  · rintro ⟨hpath, hlocals, hresources⟩
    exact ⟨hpath, hlocals, hresources⟩

end IdleSlots

theorem reads_idle : idle.Reads (Group .brace IsIdle) :=
  Fields.reads_group (fun name before _ => IdleSlots.reads_visit name before)
    IdleSlots.finish_ofFields

/-! ## Tasks -/

namespace TaskSlots

/-- Whether a task is enabled. -/
def enabledSlot : Slot TaskField.key Bool where
  name := Bytes.ofString "enabled"
  make := .enabled
  get?
    | .enabled value => some value
    | _ => none
  get?_eq_some := by
    intro field value
    cases field <;> simp
  key_eq_name := by
    intro field
    cases field <;> simp [TaskField.key] <;> decide

/-- The priority of a task. -/
def prioritySlot : Slot TaskField.key UInt8 where
  name := Bytes.ofString "priority"
  make := .priority
  get?
    | .priority value => some value
    | _ => none
  get?_eq_some := by
    intro field value
    cases field <;> simp
  key_eq_name := by
    intro field
    cases field <;> simp [TaskField.key] <;> decide

/-- The names of the shared storage that a task uses. -/
def resourcesSlot : Slot TaskField.key NameSet where
  name := Bytes.ofString "resources"
  make := .resources
  get?
    | .resources value => some value
    | _ => none
  get?_eq_some := by
    intro field value
    cases field <;> simp
  key_eq_name := by
    intro field
    cases field <;> simp [TaskField.key] <;> decide

/-- The slots that fields are read into. -/
def ofFields (fields : List TaskField) : TaskSlots :=
  ⟨enabledSlot.find fields, prioritySlot.find fields, resourcesSlot.find fields⟩

/-- The slots with the rules for their values. -/
def readers : List (Reader TaskField.key) :=
  [⟨enabledSlot, bool⟩, ⟨prioritySlot, byte⟩, ⟨resourcesSlot, idents⟩]

theorem visits_slot (name : Leaf) (before : List TaskField) :
    VisitsSlot readers ofFields name before (visit name (ofFields before)) := by
  rw [visit]
  split
  · rename_i hname
    refine .fills ⟨enabledSlot, bool⟩ (by simp [readers]) hname fun hnone value => ?_
    simp (disch := decide) only [ofFields, Slot.find_append_self _ hnone, Slot.find_append_other]
  split
  · rename_i hname
    refine .fills ⟨prioritySlot, byte⟩ (by simp [readers]) hname fun hnone value => ?_
    simp (disch := decide) only [ofFields, Slot.find_append_self _ hnone, Slot.find_append_other]
  split
  · rename_i hname
    refine .fills ⟨resourcesSlot, idents⟩ (by simp [readers]) hname fun hnone value => ?_
    simp (disch := decide) only [ofFields, Slot.find_append_self _ hnone, Slot.find_append_other]
  · rename_i henabled hpriority hresources
    apply VisitsSlot.unknown
    simp only [readers, List.forall_mem_cons]
    exact ⟨Ne.symm henabled, Ne.symm hpriority, Ne.symm hresources, by simp⟩

theorem reads_visit (name : Leaf) (before : List TaskField) :
    (visit name (ofFields before)).Reads
      (Fields.Extends TaskField.key TaskField.Value ofFields name before) := by
  apply (visits_slot name before).reads
  · simp only [readers, List.forall_mem_cons]
    exact ⟨reads_bool, reads_byte, reads_idents, by simp⟩
  · intro field
    cases field <;> simp [readers, TaskField.key, enabledSlot, prioritySlot, resourcesSlot]

theorem finish_ofFields (fields : List TaskField) (task : Task)
    (hdistinct : (fields.map TaskField.key).Nodup) :
    (Except.ok (ofFields fields).finish : Except ParseError Task) = .ok task ↔
      TaskField.Describe fields task := by
  obtain ⟨enabled, priority, resources⟩ := task
  rw [Except.ok.injEq, finish, ofFields, Task.mk.injEq]
  constructor
  · rintro ⟨rfl, rfl, hresources⟩
    exact ⟨fun value => enabledSlot.find_eq_some_iff hdistinct,
      fun value => prioritySlot.find_eq_some_iff hdistinct,
      (resourcesSlot.getD_find_iff hdistinct).1 hresources.symm⟩
  · rintro ⟨henabled, hpriority, hresources⟩
    refine ⟨?_, ?_, ((resourcesSlot.getD_find_iff hdistinct).2 hresources).symm⟩
    · apply Option.ext
      intro value
      rw [enabledSlot.find_eq_some_iff hdistinct]
      exact (henabled value).symm
    · apply Option.ext
      intro value
      rw [prioritySlot.find_eq_some_iff hdistinct]
      exact (hpriority value).symm

end TaskSlots

theorem reads_task : task.Reads (Group .brace IsTask) :=
  Fields.reads_group (fun name before _ => TaskSlots.reads_visit name before)
    TaskSlots.finish_ofFields

theorem reads_visitTask (name : Leaf) (before : List (Bytes × Task))
    (hdistinct : (before.map Prod.fst).Nodup) :
    (visitTask name (NameMap.ofEntries before)).Reads
      (Fields.Extends Prod.fst (fun entry => Group .brace IsTask entry.2) NameMap.ofEntries name
        before) := by
  have hlists := NameMap.lists_ofEntries hdistinct
  rw [visitTask]
  cases hcontains : (NameMap.ofEntries before).contains name.lexeme with
  | true =>
      intro tasks run rest _
      constructor
      · intro h
        cases h
      · rintro ⟨entry, -, hnew, -⟩
        rw [hlists.contains_eq_false_iff.2 hnew] at hcontains
        cases hcontains
  | false =>
      have hnew := hlists.contains_eq_false_iff.1 hcontains
      refine Reads.congr ((reads_task.within (.task name.lexeme)).map _) ?_
      intro tasks run
      constructor
      · rintro ⟨task, htask, rfl⟩
        have happend := NameMap.ofEntries_append before (name.lexeme, task)
        exact ⟨(name.lexeme, task), rfl, hnew, htask, happend.symm⟩
      · rintro ⟨⟨_, task⟩, rfl, -, htask, rfl⟩
        exact ⟨task, htask, (NameMap.ofEntries_append before (name.lexeme, task)).symm⟩

theorem reads_tasks : tasks.Reads (Group .brace AreTasks) := by
  apply reads_delimited
  intro tasks members
  rw [show NameMap.empty = NameMap.ofEntries ([] : List (Bytes × Task)) from rfl,
    Fields.result_eq_ok_iff_areFields reads_visitTask]
  constructor
  · rintro ⟨entries, hentries, rfl⟩
    exact ⟨entries, hentries, NameMap.lists_ofEntries hentries.distinct⟩
  · rintro ⟨entries, hentries, htasks⟩
    exact ⟨entries, hentries, htasks.unique (NameMap.lists_ofEntries hentries.distinct)⟩

/-! ## Applications -/

namespace AppSlots

/-- The device of an application. -/
def deviceSlot : Slot AppField.key Fragment where
  name := Bytes.ofString "device"
  make := .device
  get?
    | .device value => some value
    | _ => none
  get?_eq_some := by
    intro field value
    cases field <;> simp
  key_eq_name := by
    intro field
    cases field <;> simp [AppField.key] <;> decide

/-- The idle routine of an application. -/
def idleSlot : Slot AppField.key Idle where
  name := Bytes.ofString "idle"
  make := .idle
  get?
    | .idle value => some value
    | _ => none
  get?_eq_some := by
    intro field value
    cases field <;> simp
  key_eq_name := by
    intro field
    cases field <;> simp [AppField.key] <;> decide

/-- The start routine of an application. -/
def initSlot : Slot AppField.key Init where
  name := Bytes.ofString "init"
  make := .init
  get?
    | .init value => some value
    | _ => none
  get?_eq_some := by
    intro field value
    cases field <;> simp
  key_eq_name := by
    intro field
    cases field <;> simp [AppField.key] <;> decide

/-- The shared storage of an application. -/
def resourcesSlot : Slot AppField.key Statics where
  name := Bytes.ofString "resources"
  make := .resources
  get?
    | .resources value => some value
    | _ => none
  get?_eq_some := by
    intro field value
    cases field <;> simp
  key_eq_name := by
    intro field
    cases field <;> simp [AppField.key] <;> decide

/-- The tasks of an application. -/
def tasksSlot : Slot AppField.key Tasks where
  name := Bytes.ofString "tasks"
  make := .tasks
  get?
    | .tasks value => some value
    | _ => none
  get?_eq_some := by
    intro field value
    cases field <;> simp
  key_eq_name := by
    intro field
    cases field <;> simp [AppField.key] <;> decide

/-- The slots that fields are read into. -/
def ofFields (fields : List AppField) : AppSlots :=
  ⟨deviceSlot.find fields, idleSlot.find fields, initSlot.find fields, resourcesSlot.find fields,
    tasksSlot.find fields⟩

/-- The slots with the rules for their values. -/
def readers : List (Reader AppField.key) :=
  [⟨deviceSlot, Grammar.path⟩, ⟨idleSlot, Grammar.idle⟩, ⟨initSlot, Grammar.init⟩,
    ⟨resourcesSlot, statics⟩, ⟨tasksSlot, Grammar.tasks⟩]

theorem visits_slot (name : Leaf) (before : List AppField) :
    VisitsSlot readers ofFields name before (visit name (ofFields before)) := by
  rw [visit]
  split
  · rename_i hname
    refine .fills ⟨deviceSlot, Grammar.path⟩ (by simp [readers]) hname fun hnone value => ?_
    simp (disch := decide) only [ofFields, Slot.find_append_self _ hnone, Slot.find_append_other]
  split
  · rename_i hname
    refine .fills ⟨idleSlot, Grammar.idle⟩ (by simp [readers]) hname fun hnone value => ?_
    simp (disch := decide) only [ofFields, Slot.find_append_self _ hnone, Slot.find_append_other]
  split
  · rename_i hname
    refine .fills ⟨initSlot, Grammar.init⟩ (by simp [readers]) hname fun hnone value => ?_
    simp (disch := decide) only [ofFields, Slot.find_append_self _ hnone, Slot.find_append_other]
  split
  · rename_i hname
    refine .fills ⟨resourcesSlot, statics⟩ (by simp [readers]) hname fun hnone value => ?_
    simp (disch := decide) only [ofFields, Slot.find_append_self _ hnone, Slot.find_append_other]
  split
  · rename_i hname
    refine .fills ⟨tasksSlot, Grammar.tasks⟩ (by simp [readers]) hname fun hnone value => ?_
    simp (disch := decide) only [ofFields, Slot.find_append_self _ hnone, Slot.find_append_other]
  · rename_i hdevice hidle hinit hresources htasks
    apply VisitsSlot.unknown
    simp only [readers, List.forall_mem_cons]
    exact ⟨Ne.symm hdevice, Ne.symm hidle, Ne.symm hinit, Ne.symm hresources, Ne.symm htasks,
      by simp⟩

theorem reads_visit (name : Leaf) (before : List AppField) :
    (visit name (ofFields before)).Reads
      (Fields.Extends AppField.key AppField.Value ofFields name before) := by
  apply (visits_slot name before).reads
  · simp only [readers, List.forall_mem_cons]
    exact ⟨reads_path, reads_idle, reads_init, reads_statics, reads_tasks, by simp⟩
  · intro field
    cases field <;>
      simp [readers, AppField.key, deviceSlot, idleSlot, initSlot, resourcesSlot, tasksSlot]

theorem finish_eq_ok_iff {slots : AppSlots} {app : App} :
    slots.finish = .ok app ↔
      slots.device = some app.device ∧ slots.idle = some app.idle ∧ slots.init = some app.init ∧
        app.resources = slots.resources.getD .empty ∧ app.tasks = slots.tasks.getD .empty := by
  simp only [finish, bind_eq_ok_iff, filled_eq_ok_iff]
  constructor
  · rintro ⟨device, hdevice, idle, hidle, init, hinit, h⟩
    cases h
    exact ⟨hdevice, hidle, hinit, rfl, rfl⟩
  · rintro ⟨hdevice, hidle, hinit, hresources, htasks⟩
    refine ⟨app.device, hdevice, app.idle, hidle, app.init, hinit, ?_⟩
    rw [← hresources, ← htasks]
    rfl

theorem finish_ofFields (fields : List AppField) (app : App)
    (hdistinct : (fields.map AppField.key).Nodup) :
    (ofFields fields).finish = .ok app ↔ AppField.Describe fields app := by
  rw [finish_eq_ok_iff, ofFields, deviceSlot.find_eq_some_iff hdistinct,
    idleSlot.find_eq_some_iff hdistinct, initSlot.find_eq_some_iff hdistinct,
    resourcesSlot.getD_find_iff hdistinct, tasksSlot.getD_find_iff hdistinct]
  constructor
  · rintro ⟨hdevice, hidle, hinit, hresources, htasks⟩
    exact ⟨hdevice, hidle, hinit, hresources, htasks⟩
  · rintro ⟨hdevice, hidle, hinit, hresources, htasks⟩
    exact ⟨hdevice, hidle, hinit, hresources, htasks⟩

end AppSlots

theorem reads_app : app.Reads IsDescription :=
  Fields.reads_group (fun name before _ => AppSlots.reads_visit name before)
    AppSlots.finish_ofFields

end Grammar

theorem App.ofTokens_eq_ok_iff {tokens : List Token} {app : App} :
    App.ofTokens tokens = .ok app ↔ Grammar.app.run tokens = (.ok app, []) := by
  rw [App.ofTokens]
  constructor
  · intro h
    split at h
    · cases h
    · rename_i found hrun
      cases h
      exact hrun
    · cases h
  · intro h
    rw [h]

/-- A sequence of tokens is accepted exactly when it is the written form of an application, and
that application is what it stands for. -/
theorem App.ofTokens_eq_ok_iff_isDescription (tokens : List Token) (app : App) :
    App.ofTokens tokens = .ok app ↔ Written.IsDescription app tokens := by
  rw [App.ofTokens_eq_ok_iff]
  exact Grammar.reads_app.run_eq

end RealtimeApp
