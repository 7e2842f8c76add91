import RealtimeApp.Operation

/-!
# Files that stay

Logging makes directories and a file, and only where nothing lies yet (`Host.kept_call`), when the
platform does (`Platform.Keeps`).  So what a path leads to is still there afterwards
(`FileTree.Kept.find`): a file that could be read reads the same.
-/

namespace RealtimeApp

namespace FileTree

/-- What lies somewhere in the first tree lies there in the second one. -/
def Kept (first second : FileTree) : Prop :=
  ∀ place entry, first.get? place = some entry → second.get? place = some entry

theorem Kept.refl (tree : FileTree) : Kept tree tree := fun _ _ h => h

theorem Kept.trans {first second third : FileTree} (h : Kept first second)
    (h' : Kept second third) : Kept first third :=
  fun place entry hentry => h' place entry (h place entry hentry)

/-- Putting something where nothing lies keeps all else. -/
theorem kept_set {tree : FileTree} {place : Place} (h : tree.get? place = none) (entry : Entry) :
    Kept tree (tree.set place entry) := by
  intro other found hfound
  by_cases hroot : other = []
  · rwa [get?, if_pos hroot] at hfound ⊢
  · have hother : place ≠ other := by
      rintro rfl
      rw [h] at hfound
      cases hfound
    rw [get?, if_neg hroot] at hfound ⊢
    rw [set, List.find?_cons_of_neg (by simpa using hother), List.find?_filter, ← hfound]
    congr 2
    funext item
    by_cases hitem : item.1 = other
    · simp [hitem, hother.symm]
    · simp [hitem]

/-! ## Following paths -/

/-- A path that leads somewhere leads there still. -/
theorem Kept.walk {tree grown : FileTree} (h : Kept tree grown) {names : List Bytes}
    {place target : Place} {entry : Entry}
    (hwalk : tree.walk place names = .present target entry) :
    grown.walk place names = .present target entry := by
  fun_induction tree.walk place names with
  | case1 place => exact hwalk
  | case2 place name names hstays ih =>
      rw [FileTree.walk, if_pos hstays]
      exact ih hwalk
  | case3 place name names hstays hback ih =>
      rw [FileTree.walk, if_neg hstays, if_pos hback]
      exact ih hwalk
  | case4 place name names hstays hback hlong => cases hwalk
  | case5 place name names hstays hback hlong hfound ih =>
      rw [FileTree.walk, if_neg hstays, if_neg hback, if_neg hlong, h _ _ hfound]
      exact ih hwalk
  | case6 place name names hstays hback hlong found hfile hfound hlast =>
      rw [FileTree.walk, if_neg hstays, if_neg hback, if_neg hlong, h _ _ hfound]
      rw [← hwalk]
      cases found with
      | directory => exact absurd rfl hfile
      | file content => exact if_pos hlast
      | locked => exact if_pos hlast
  | case7 => cases hwalk
  | case8 => cases hwalk
  | case9 => cases hwalk

theorem Kept.find {tree grown : FileTree} (h : Kept tree grown) {path : Bytes} {place : Place}
    {entry : Entry} (hfind : tree.find path = .present place entry) :
    grown.find path = .present place entry := by
  simp only [FileTree.find] at hfind ⊢
  split
  · rw [if_pos ‹_›] at hfind
    cases hfind
  · rw [if_neg ‹_›] at hfind
    split
    · rw [if_pos ‹_›] at hfind
      cases hfind
    · rw [if_neg ‹_›] at hfind
      exact h.walk hfind

/-- Nothing lies at a new place that a path leads to. -/
theorem get?_of_walk_eq_absent {tree : FileTree} {names : List Bytes} {place target : Place}
    (hwalk : tree.walk place names = .absent target) : tree.get? target = none := by
  fun_induction tree.walk place names with
  | case1 | case4 | case6 | case7 | case9 => cases hwalk
  | case2 place name names hstays ih => exact ih hwalk
  | case3 place name names hstays hback ih => exact ih hwalk
  | case5 place name names hstays hback hlong hfound ih => exact ih hwalk
  | case8 place name names hstays hback hlong hfound hlast =>
      cases hwalk
      exact hfound

theorem get?_of_find_eq_absent {tree : FileTree} {path : Bytes} {place : Place}
    (hfind : tree.find path = .absent place) : tree.get? place = none := by
  simp only [FileTree.find] at hfind
  split at hfind
  · cases hfind
  · split at hfind
    · cases hfind
    · exact get?_of_walk_eq_absent hfind

/-! ## Making files -/

theorem kept_makeAlong (tree : FileTree) (place : Place) (names : List Bytes) :
    Kept tree (tree.makeAlong place names).1 := by
  induction names generalizing tree place with
  | nil => exact .refl tree
  | cons name names ih =>
      rw [makeAlong]
      split
      · exact ih tree place
      · split
        · exact ih tree place.dropLast
        · split
          · exact .refl tree
          · cases hfound : tree.get? (place ++ [name]) with
            | none => exact (kept_set hfound .directory).trans (ih _ _)
            | some found =>
                cases found with
                | directory => exact ih tree _
                | file content => exact .refl tree
                | locked => exact .refl tree

theorem kept_makeDirectories (tree : FileTree) (path : Bytes) :
    Kept tree (tree.makeDirectories path).1 := by
  simp only [makeDirectories]
  split
  · exact .refl tree
  · exact kept_makeAlong tree [] _

theorem kept_openToAppend (tree : FileTree) (path : Bytes) :
    Kept tree (tree.openToAppend path).1 := by
  rw [openToAppend]
  cases hfind : tree.find path with
  | absent place =>
      simp only
      split
      · exact .refl tree
      · exact kept_set (get?_of_find_eq_absent hfind) (.file [])
  | present place entry => cases entry <;> exact .refl tree
  | unreachable => exact .refl tree
  | tooLong => exact .refl tree

end FileTree

/-- The platform makes directories and files only where nothing lies yet. -/
structure Platform.Keeps (platform : Platform) : Prop where
  makeDirectories : ∀ files path, FileTree.Kept files (platform.makeDirectories files path).1
  openRotating : ∀ files path maxSize maxFiles,
    FileTree.Kept files (platform.openRotating files path maxSize maxFiles).1

theorem Platform.disk_keeps : disk.Keeps where
  makeDirectories := FileTree.kept_makeDirectories
  openRotating files path maxSize maxFiles := by
    simp only [disk]
    split
    · exact .refl files
    · exact files.kept_openToAppend path

namespace Host

open FileTree (Kept)

variable {host : Host}

/-! ## Calls of logging -/

theorem around_getLogger (host : Host) :
    host.getLogger.2.platform = (host.initLog .default).platform ∧
      host.getLogger.2.files = (host.initLog .default).files := by
  rw [getLogger]
  generalize host.initLog .default = ready
  cases ready.log.logger <;> exact ⟨rfl, rfl⟩

/-- Around the log, a call does what setting up with some plan does. -/
theorem around_call (host : Host) (call : LogCall) :
    ∃ plan, (host.call call).platform = (host.initLog plan).platform ∧
      (host.call call).files = (host.initLog plan).files := by
  cases call with
  | init plan => exact ⟨plan, rfl, rfl⟩
  | get => exact ⟨.default, host.around_getLogger⟩
  | setLevel level => exact ⟨.default, host.around_getLogger⟩
  | write level text =>
      refine ⟨.default, ?_⟩
      simp only [Host.call, write]
      split <;> exact host.around_getLogger

/-- Logging goes on on the same platform. -/
theorem platform_call (host : Host) (call : LogCall) :
    (host.call call).platform = host.platform := by
  obtain ⟨plan, hplatform, -⟩ := host.around_call call
  rw [hplatform, initLog]
  split
  · rfl
  · split <;> rfl

theorem kept_prepare (h : host.platform.Keeps) (plan : LogPlan) :
    Kept host.files (host.prepare plan).1 := by
  rw [prepare]
  split
  · exact .refl host.files
  · cases FileTree.parent? plan.file with
    | none => exact h.openRotating _ _ _ _
    | some around =>
        have hmade := h.makeDirectories host.files around
        simp only
        generalize host.platform.makeDirectories host.files around = made at hmade
        obtain ⟨tree, _ | _⟩ := made
        · exact hmade
        · exact hmade.trans (h.openRotating _ _ _ _)

/-- Logging keeps the files that are there. -/
theorem kept_call (h : host.platform.Keeps) (call : LogCall) :
    Kept host.files (host.call call).files := by
  obtain ⟨plan, -, hfiles⟩ := host.around_call call
  have hprepare := kept_prepare h plan
  rw [hfiles, initLog]
  split
  · exact .refl host.files
  · generalize host.prepare plan = prepared at hprepare
    obtain ⟨files, _ | _⟩ := prepared <;> exact hprepare

end Host

end RealtimeApp
