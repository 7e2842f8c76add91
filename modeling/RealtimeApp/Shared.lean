import RealtimeApp.Operation

/-!
# Shared sessions

Several clients may use one session at once.  A call has sections, during which no other call
goes on.  Loading an application has two: the file is read in the first one and its text parsed
in the second one, and between them other calls may have their turn.  All other operations have
one section.  A schedule gives the numbers of the calls in the order of their sections.
-/

namespace RealtimeApp

/-- A session in use. -/
structure Shared where
  session : Session
  /-- The texts that loads have read and not parsed yet, under the numbers of the calls. -/
  held : Nat → Option Bytes
  /-- The calls that have returned, with their answers, in the order of their returns. -/
  returned : List (Nat × Answer)

namespace Shared

/-- A new session that nobody has called yet. -/
def start (platform : Platform) (files : FileTree) : Shared :=
  ⟨.start platform files, fun _ => none, []⟩

/-- A call holds the text that it has read, or does not hold it any more. -/
def hold (shared : Shared) (i : Nat) (text : Option Bytes) : Shared :=
  { shared with held := fun j => if j = i then text else shared.held j }

/-- A call returns. -/
def finish (shared : Shared) (i : Nat) (answered : Answer × Session) : Shared :=
  { shared with session := answered.2, returned := shared.returned ++ [(i, answered.1)] }

variable (format : DocumentFormat) (calls : Nat → Operation)

/-- The next section of a call. -/
def step (shared : Shared) (i : Nat) : Shared :=
  match calls i with
  | .loadApplication path =>
    match shared.held i with
    | some text =>
      (shared.hold i none).finish i (shared.session.perform format (.parseApplication text path))
    | none =>
      match shared.session.readApplication path with
      | .ok text => shared.hold i (some text)
      | .error refused => shared.finish i (.done false, refused)
  | operation => shared.finish i (shared.session.perform format operation)

/-- The sections of a schedule, one after the other. -/
def run (shared : Shared) (schedule : List Nat) : Shared :=
  schedule.foldl (step format calls) shared

/-- Calls one at a time: their answers and the session behind them. -/
def oneAtATime (session : Session) : List Nat → List (Nat × Answer) × Session
  | [] => ([], session)
  | i :: rest =>
    let (answer, next) := session.perform format (calls i)
    let (answers, last) := oneAtATime next rest
    ((i, answer) :: answers, last)

@[simp] theorem run_cons (shared : Shared) (i : Nat) (rest : List Nat) :
    run format calls shared (i :: rest) =
      run format calls (step format calls shared i) rest := rfl

theorem run_append (shared : Shared) (first second : List Nat) :
    run format calls shared (first ++ second) =
      run format calls (run format calls shared first) second :=
  List.foldl_append

theorem oneAtATime_cons (session : Session) (i : Nat) (rest : List Nat) :
    oneAtATime format calls session (i :: rest) =
      ((i, (session.perform format (calls i)).1) ::
          (oneAtATime format calls (session.perform format (calls i)).2 rest).1,
        (oneAtATime format calls (session.perform format (calls i)).2 rest).2) := rfl

end Shared

end RealtimeApp
