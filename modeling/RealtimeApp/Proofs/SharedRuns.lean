import Mathlib.Data.List.Permutation
import RealtimeApp.Proofs.ApplicationHistory
import RealtimeApp.Proofs.KeptFiles
import RealtimeApp.Shared

/-!
# Calls that overlap

A shared session behaves as if its calls came one at a time, in the order of their returns, as
long as a text is parsed while its file still reads so (`linearizable_of_upToDate`).  That is so
when nobody changes a file between the two sections of a load of it (`upToDate_of_undisturbed`);
the log, which makes files of its own, does no harm.  A file that changes in between can bring
back an application that a later load has replaced already.
-/

namespace RealtimeApp

/-! ## Files that stay -/

theorem FileTree.Reads.of_kept {tree grown : FileTree} (h : FileTree.Kept tree grown)
    {path text : Bytes} (hreads : tree.Reads path text) : grown.Reads path text := by
  cases hreads with
  | file hfind => exact .file (h.find hfind)
  | directory hfind => exact .directory (h.find hfind)

theorem Session.platform_perform (format : DocumentFormat) (session : Session)
    (operation : Operation) :
    (session.perform format operation).2.host.platform = session.host.platform :=
  host_perform (p := fun host => host.platform = session.host.platform)
    (fun host call h => (host.platform_call call).trans h) rfl fun _ _ => rfl

/-- What is not changed on purpose is kept. -/
theorem Session.files_kept_perform {format : DocumentFormat} {session : Session}
    {operation : Operation} (hkeeps : session.host.platform.Keeps)
    (h : ∀ files, operation ≠ .changeFiles files) :
    FileTree.Kept session.host.files (session.perform format operation).2.host.files := by
  refine (host_perform (p := fun host =>
    host.platform.Keeps ∧ FileTree.Kept session.host.files host.files) ?_ ⟨hkeeps, .refl _⟩ ?_).2
  · intro host call ⟨hhost, hkept⟩
    exact ⟨by rwa [host.platform_call], hkept.trans (Host.kept_call hhost call)⟩
  · exact fun files hoperation => absurd hoperation (h files)

namespace Shared

/-! ## Orders -/

/-- The sections of one call all come before those of another one. -/
def Before (sections : List Nat) (i j : Nat) : Prop :=
  ∃ first second, sections = first ++ second ∧ i ∉ second ∧ j ∉ first

/-- An order of the calls that returned, in which they come to the same one at a time: to the same
answers, and to a manager that keeps the same. -/
structure SameOneAtATime (format : DocumentFormat) (calls : Nat → Operation)
    (platform : Platform) (files : FileTree) (schedule order : List Nat) : Prop where
  answers : (oneAtATime format calls (.start platform files) order).1.Perm
    (run format calls (start platform files) schedule).returned
  manager : (oneAtATime format calls (.start platform files) order).2.manager =
    (run format calls (start platform files) schedule).session.manager

/-- The calls come to the same one at a time, in an order that keeps calls which do not
overlap. -/
def Linearizable (format : DocumentFormat) (calls : Nat → Operation) (platform : Platform)
    (files : FileTree) (schedule : List Nat) : Prop :=
  ∃ order, SameOneAtATime format calls platform files schedule order ∧
    ∀ i ∈ order, ∀ j ∈ order, Before schedule i j → Before order i j

/-- What a load has read and not parsed yet is what its file reads as. -/
def StillReads (calls : Nat → Operation) (shared : Shared) (i : Nat) (files : FileTree) : Prop :=
  ∀ path text, calls i = .loadApplication path → shared.held i = some text →
    files.Reads path text

/-- Every text is parsed while its file still reads so. -/
def UpToDate (format : DocumentFormat) (calls : Nat → Operation) (shared : Shared) :
    List Nat → Prop
  | [] => True
  | i :: rest => StillReads calls shared i shared.session.host.files ∧
      UpToDate format calls (step format calls shared i) rest

/-- Nobody changes a file that a load has read and not parsed yet. -/
def Undisturbed (format : DocumentFormat) (calls : Nat → Operation) (shared : Shared) :
    List Nat → Prop
  | [] => True
  | i :: rest => (∀ files, calls i = .changeFiles files → ∀ j, StillReads calls shared j files) ∧
      Undisturbed format calls (step format calls shared i) rest

/-! ## One section -/

/-- What a section of a call comes to: a load has read its text, it has parsed the text, or the
call is done at once, which a load is where there is no text. -/
inductive Turn (format : DocumentFormat) (calls : Nat → Operation) (shared : Shared) (i : Nat) :
    Shared → Prop
  | reads {path text : Bytes} : calls i = .loadApplication path → shared.held i = none →
      shared.session.host.files.Reads path text →
      Turn format calls shared i (shared.hold i (some text))
  | parses {path text : Bytes} : calls i = .loadApplication path → shared.held i = some text →
      Turn format calls shared i ((shared.hold i none).finish i
        (shared.session.perform format (.parseApplication text path)))
  | whole : (∀ path, calls i = .loadApplication path →
        shared.held i = none ∧ ∀ text, ¬ shared.session.host.files.Reads path text) →
      Turn format calls shared i (shared.finish i (shared.session.perform format (calls i)))

variable (format : DocumentFormat) (calls : Nat → Operation)

theorem turn_step (shared : Shared) (i : Nat) :
    Turn format calls shared i (step format calls shared i) := by
  rw [step]
  split
  · rename_i path hcall
    cases hheld : shared.held i with
    | some text => exact .parses hcall hheld
    | none =>
        cases hread : shared.session.readApplication path with
        | ok text => exact .reads hcall hheld (Session.readApplication_eq_ok_iff.1 hread)
        | error refused =>
            have hperform : shared.session.perform format (calls i) = (.done false, refused) := by
              rw [hcall, Session.perform, Session.loadApplication, hread]
            change Turn format calls shared i (shared.finish i (.done false, refused))
            rw [← hperform]
            refine .whole fun path' hcall' => ⟨hheld, fun text hreads => ?_⟩
            obtain rfl : path = path' := by
              rw [hcall] at hcall'
              cases hcall'
              rfl
            rw [Session.readApplication_eq_ok_iff.2 hreads] at hread
            cases hread
  · rename_i hother
    exact .whole fun path hcall => (hother path hcall).elim

/-- A section adds no other answer than that of its call. -/
theorem returned_step (shared : Shared) (i : Nat) :
    ∃ answers, (step format calls shared i).returned = shared.returned ++ answers ∧
      ∀ answer ∈ answers, answer.1 = i := by
  have hturn := turn_step format calls shared i
  generalize step format calls shared i = left at hturn
  cases hturn with
  | reads => exact ⟨[], (List.append_nil _).symm, by simp⟩
  | parses => exact ⟨[_], rfl, by simp⟩
  | whole => exact ⟨[_], rfl, by simp⟩

theorem returned_run (shared : Shared) (schedule : List Nat) :
    ∃ answers, (run format calls shared schedule).returned = shared.returned ++ answers ∧
      ∀ answer ∈ answers, answer.1 ∈ schedule := by
  induction schedule generalizing shared with
  | nil => exact ⟨[], (List.append_nil _).symm, by simp⟩
  | cons i rest ih =>
      obtain ⟨first, hfirst, hnumber⟩ := returned_step format calls shared i
      obtain ⟨others, hothers, hnumbers⟩ := ih (step format calls shared i)
      refine ⟨first ++ others, by rw [run_cons, hothers, hfirst, List.append_assoc], ?_⟩
      intro answer hanswer
      rcases List.mem_append.1 hanswer with hanswer | hanswer
      · rw [hnumber answer hanswer]
        exact List.mem_cons_self
      · exact List.mem_cons_of_mem _ (hnumbers answer hanswer)

/-- Whatever overlaps, the session is one that operations one after the other leave. -/
theorem exists_session_run_eq (shared : Shared) (schedule : List Nat) :
    ∃ operations, (run format calls shared schedule).session =
      shared.session.run format operations := by
  induction schedule generalizing shared with
  | nil => exact ⟨[], rfl⟩
  | cons i rest ih =>
      obtain ⟨operations, hrest⟩ := ih (step format calls shared i)
      rw [run_cons, hrest]
      have hturn := turn_step format calls shared i
      generalize step format calls shared i = left at hturn
      cases hturn with
      | reads => exact ⟨operations, rfl⟩
      | @parses path text => exact ⟨.parseApplication text path :: operations, rfl⟩
      | whole => exact ⟨calls i :: operations, rfl⟩

/-- Overlapping calls never leave an application with messages, nor a limit on nesting below
one. -/
theorem coherent_run (platform : Platform) (files : FileTree) (schedule : List Nat) :
    let manager := (run format calls (start platform files) schedule).session.manager
    (manager.application = none ∨ manager.errors = []) ∧
      1 ≤ manager.settings.maxNestingDepth := by
  intro manager
  obtain ⟨operations, hrun⟩ :=
    exists_session_run_eq format calls (start platform files) schedule
  rw [show manager = _ from congrArg Session.manager hrun]
  exact ⟨(Session.decided_iff.2 ⟨rfl, rfl⟩).none_or_nil,
    Session.one_le_maxNestingDepth_after platform files operations⟩

variable {calls}

/-- The order of the returns keeps calls that do not overlap. -/
theorem before_returned {platform : Platform} {files : FileTree} {schedule : List Nat} {i j : Nat}
    (h : Before schedule i j) :
    Before ((run format calls (start platform files) schedule).returned.map Prod.fst) i j := by
  obtain ⟨first, second, rfl, hi, hj⟩ := h
  obtain ⟨early, hearly, hfirst⟩ :=
    returned_run format calls (start platform files) first
  obtain ⟨late, hlate, hsecond⟩ := returned_run format calls
    (run format calls (start platform files) first) second
  refine ⟨early.map Prod.fst, late.map Prod.fst, ?_, ?_, ?_⟩
  · rw [run_append, hlate, hearly, List.map_append]
    rfl
  · intro hlast
    obtain ⟨answer, hanswer, rfl⟩ := List.mem_map.1 hlast
    exact hi (hsecond answer hanswer)
  · intro hearlier
    obtain ⟨answer, hanswer, rfl⟩ := List.mem_map.1 hearlier
    exact hj (hfirst answer hanswer)

/-! ## One at a time -/

theorem map_fst_oneAtATime (session : Session) (order : List Nat) :
    (oneAtATime format calls session order).1.map Prod.fst = order := by
  induction order generalizing session with
  | nil => rfl
  | cons i rest ih => rw [oneAtATime_cons, List.map_cons, ih]

/-- A section of a load that is up to date changes nothing, or it does all that its call does. -/
theorem step_of_stillReads {shared : Shared} {i : Nat}
    (h : StillReads calls shared i shared.session.host.files) :
    ((step format calls shared i).returned = shared.returned ∧
      (step format calls shared i).session = shared.session) ∨
    ((step format calls shared i).returned =
        shared.returned ++ [(i, (shared.session.perform format (calls i)).1)] ∧
      (step format calls shared i).session = (shared.session.perform format (calls i)).2) := by
  have hturn := turn_step format calls shared i
  generalize step format calls shared i = left at hturn
  cases hturn with
  | reads => exact .inl ⟨rfl, rfl⟩
  | @parses path text hcall hheld =>
      have hsame : shared.session.perform format (.parseApplication text path) =
          shared.session.perform format (calls i) := by
        rw [hcall, Session.perform, Session.perform,
          Session.loadApplication_of_reads (h path text hcall hheld)]
      rw [hsame]
      exact .inr ⟨rfl, rfl⟩
  | whole => exact .inr ⟨rfl, rfl⟩

variable {format}

/-- Calls that are up to date come to what they come to one at a time, in the order of their
returns. -/
theorem run_of_upToDate {schedule : List Nat} {shared : Shared}
    (h : UpToDate format calls shared schedule) :
    ∃ answers, (run format calls shared schedule).returned = shared.returned ++ answers ∧
      oneAtATime format calls shared.session (answers.map Prod.fst) =
        (answers, (run format calls shared schedule).session) := by
  -- A section that reads changes no session, so that all before it counts as done already.
  induction schedule generalizing shared with
  | nil => exact ⟨[], (List.append_nil _).symm, rfl⟩
  | cons i rest ih =>
      obtain ⟨answers, hreturned, hone⟩ := ih h.2
      rcases step_of_stillReads format h.1 with ⟨hkept, hsession⟩ | ⟨hadded, hsession⟩
      · rw [hkept] at hreturned
        rw [hsession] at hone
        exact ⟨answers, hreturned, hone⟩
      · rw [hadded, List.append_assoc] at hreturned
        rw [hsession] at hone
        refine ⟨_, hreturned, ?_⟩
        rw [List.singleton_append, List.map_cons, oneAtATime_cons, hone, run_cons]

/-! ## Texts that are parsed late -/

/-- A section leaves the platform as it is. -/
theorem platform_step (shared : Shared) (i : Nat) :
    (step format calls shared i).session.host.platform = shared.session.host.platform := by
  have hturn := turn_step format calls shared i
  generalize step format calls shared i = left at hturn
  cases hturn with
  | reads => rfl
  | parses | whole => exact Session.platform_perform format shared.session _

/-- A section leaves all texts what their files read as. -/
theorem stillReads_step {shared : Shared} {i : Nat} (hkeeps : shared.session.host.platform.Keeps)
    (h : ∀ j, StillReads calls shared j shared.session.host.files)
    (hfiles : ∀ files, calls i = .changeFiles files → ∀ j, StillReads calls shared j files)
    (j : Nat) : StillReads calls (step format calls shared i) j
      (step format calls shared i).session.host.files := by
  have hturn := turn_step format calls shared i
  generalize step format calls shared i = left at hturn
  intro path text hcall hheld
  cases hturn with
  | @reads path' text' hcall' hfree hreads =>
      by_cases hj : j = i
      · subst hj
        rw [hcall'] at hcall
        cases hcall
        obtain rfl : text' = text := by simpa [hold] using hheld
        exact hreads
      · exact h j path text hcall (by simpa [hold, hj] using hheld)
  | @parses path' text' hcall' hheld' =>
      have hj : j ≠ i := by
        rintro rfl
        simp [hold, finish] at hheld
      -- Parsing logs, and the log may make a file: not one that is there.
      have hreads := h j path text hcall (by simpa [hold, finish, hj] using hheld)
      exact hreads.of_kept (Session.files_kept_perform hkeeps fun _ => by simp)
  | whole =>
      by_cases hchange : ∃ files, calls i = .changeFiles files
      · obtain ⟨files, hchange⟩ := hchange
        simp only [finish, hchange, Session.perform]
        exact hfiles files hchange j path text hcall hheld
      · have hreads := h j path text hcall hheld
        exact hreads.of_kept (Session.files_kept_perform hkeeps (not_exists.1 hchange))

/-- Loads are up to date where nobody changes their files in between, on a platform that keeps
files. -/
theorem upToDate_of_undisturbed {schedule : List Nat} {shared : Shared}
    (hkeeps : shared.session.host.platform.Keeps)
    (hstill : ∀ j, StillReads calls shared j shared.session.host.files)
    (h : Undisturbed format calls shared schedule) : UpToDate format calls shared schedule := by
  induction schedule generalizing shared with
  | nil => trivial
  | cons i rest ih =>
      have hkeeps' : (step format calls shared i).session.host.platform.Keeps := by
        rwa [platform_step]
      exact ⟨hstill i, ih hkeeps' (stillReads_step hkeeps hstill h.1) h.2⟩

/-! ## Loads between changes of files -/

/-- Calls overlap without harm as long as every text is parsed while its file still reads so. -/
theorem linearizable_of_upToDate (format : DocumentFormat) (calls : Nat → Operation)
    (platform : Platform) (files : FileTree) (schedule : List Nat)
    (h : UpToDate format calls (start platform files) schedule) :
    Linearizable format calls platform files schedule := by
  obtain ⟨answers, hreturned, hone⟩ := run_of_upToDate h
  rw [start, List.nil_append] at hreturned
  refine ⟨answers.map Prod.fst, ⟨?_, ?_⟩, ?_⟩
  · rw [start, hreturned]
    exact .of_eq (congrArg Prod.fst hone)
  · exact congrArg (fun done => done.2.manager) hone
  · intro i _ j _ hbefore
    rw [← hreturned]
    exact before_returned format hbefore

/-- A load of one file while another one is put beside it. -/
def besides : Nat → Operation
  | 0 => .loadApplication (Bytes.ofString "a")
  | _ => .changeFiles ((FileTree.empty.putFile (Bytes.ofString "a") []).putFile
      (Bytes.ofString "b") (Bytes.ofString "\x7b\x7d"))

theorem linearizable_besides :
    let files := FileTree.empty.putFile (Bytes.ofString "a") []
    UpToDate .json besides (start .disk files) [0, 1, 0] ∧
      Linearizable .json besides .disk files [0, 1, 0] := by
  intro files
  have hstill : UpToDate .json besides (start .disk files) [0, 1, 0] := by
    refine upToDate_of_undisturbed Platform.disk_keeps ?_ ⟨?_, ?_, ?_, trivial⟩
    · intro _ path text _ hheld
      cases hheld
    · intro left hchange
      cases hchange
    · -- the change leaves the file that the load has read
      intro left hchange j path text hcall hheld
      cases j with
      | succ j => cases hcall
      | zero =>
          cases hcall
          cases hchange
          have hempty : (run .json besides (start .disk files) [0]).held 0 = some [] := by
            decide +kernel
          obtain rfl : text = [] := Option.some.inj (hheld.symm.trans hempty)
          have hfind : ((FileTree.empty.putFile (Bytes.ofString "a") []).putFile
              (Bytes.ofString "b") (Bytes.ofString "\x7b\x7d")).find (Bytes.ofString "a") =
                .present [Bytes.ofString "a"] (.file []) := by
            decide +kernel
          exact .file hfind
    · intro left hchange
      cases hchange
  exact ⟨hstill, linearizable_of_upToDate .json besides .disk files [0, 1, 0] hstill⟩

/-! ## A file that changes in between -/

/-- Two loads of a file, and a change of it that makes it empty. -/
def overtaken : Nat → Operation
  | 1 => .changeFiles (FileTree.empty.putFile (Bytes.ofString "a") [])
  | _ => .loadApplication (Bytes.ofString "a")

/-- The file before the change. -/
def described : FileTree :=
  FileTree.empty.putFile (Bytes.ofString "a") (Bytes.ofString
    "\x7bdevice:d,idle:\x7bpath:i\x7d,init:\x7bpath:n\x7d,tasks:\x7bt:\x7bpriority:1\x7d\x7d\x7d")

/-- Whether an answer is that loading went. -/
def went : Answer → Bool
  | .done ok => ok
  | _ => false

/-- The first load has read the file when it changes, and parses what it has read when the second
load has refused the new text already.  Every call returns once, and what they leave is
the application of the old text, which they leave in no order one at a time. -/
theorem not_linearizable_overtaken :
    let left := run .json overtaken (start .disk described) [0, 1, 2, 2, 0]
    left.returned.map (fun answer => (answer.1, went answer.2)) =
        [(1, false), (2, false), (0, true)] ∧
      left.session.manager.application.isSome ∧
      ¬ Linearizable .json overtaken .disk described [0, 1, 2, 2, 0] := by
  intro left
  have hreturned : left.returned.map (fun answer => (answer.1, went answer.2)) =
      [(1, false), (2, false), (0, true)] := by
    decide +kernel
  have hsome : left.session.manager.application.isSome := by decide +kernel
  refine ⟨hreturned, hsome, ?_⟩
  rintro ⟨order, hsame, -⟩
  -- The load of the old text went, so that it came before the change, and the other one after it.
  have hnone : ∀ order ∈ [1, 2, 0].permutations',
      ((oneAtATime .json overtaken (.start .disk described) order).1.map
        fun answer => (answer.1, went answer.2)).Perm [(1, false), (2, false), (0, true)] →
      (oneAtATime .json overtaken (.start .disk described) order).2.manager.application.isSome =
        false := by
    decide +kernel
  have hanswers := hsame.answers.map fun answer => (answer.1, went answer.2)
  rw [hreturned] at hanswers
  have horder : order.Perm [1, 2, 0] := by
    have hnumbers := hanswers.map Prod.fst
    rwa [List.map_map, show Prod.fst ∘ (fun answer : Nat × Answer => (answer.1, went answer.2)) =
      Prod.fst from rfl, map_fst_oneAtATime] at hnumbers
  have hleft := hnone order (List.mem_permutations'.2 horder) hanswers
  rw [hsame.manager, hsome] at hleft
  cases hleft

end Shared

end RealtimeApp
