import RealtimeApp.Session

/-!
# Operations on a session

What happens to a session is an operation: it is told to load settings or an application, it is
asked for what it keeps, and others change the files and use the log around it.  An operation
is answered and leaves a session; operations one after the other are a run.
-/

namespace RealtimeApp

/-- What a session can be asked for. -/
inductive Question where
  | settings
  | application
  | errors
  | applicationText
  | settingsText
  deriving DecidableEq, Repr

/-- One thing that happens to a session. -/
inductive Operation where
  | loadSettings (path : Bytes)
  | loadApplication (path : Bytes)
  | parseApplication (source origin : Bytes)
  | clearApplication
  | ask (question : Question)
  /-- Someone else changes the files. -/
  | changeFiles (files : FileTree)
  /-- Someone else uses the log. -/
  | log (call : LogCall)

/-- What an operation is answered. -/
inductive Answer where
  | nothing
  /-- Whether loading went. -/
  | done (ok : Bool)
  | settings (settings : Settings)
  | application (application : Option App)
  | errors (errors : List Bytes)
  | text (text : Bytes)

namespace Session

/-- The answer to a question. -/
def answerTo (session : Session) : Question → Answer
  | .settings => .settings session.manager.settings
  | .application => .application session.manager.application
  | .errors => .errors session.manager.errors
  | .applicationText => .text session.applicationText
  | .settingsText => .text session.settingsText

/-- The answer of an operation, and the session behind it.  Settings are documents of the
format. -/
def perform (format : DocumentFormat) (session : Session) : Operation → Answer × Session
  | .loadSettings path =>
    (.done (session.loadSettingsAs format path).1, (session.loadSettingsAs format path).2)
  | .loadApplication path =>
    (.done (session.loadApplication path).1, (session.loadApplication path).2)
  | .parseApplication source origin =>
    (.done (session.parseApplication source origin).1,
      (session.parseApplication source origin).2)
  | .clearApplication => (.nothing, session.clearApplication)
  | .ask question => (session.answerTo question, session)
  | .changeFiles files => (.nothing, { session with host := { session.host with files := files } })
  | .log call => (.nothing, { session with host := session.host.call call })

/-- The session behind operations one after the other. -/
def run (format : DocumentFormat) (session : Session) (operations : List Operation) : Session :=
  operations.foldl (fun session operation => (session.perform format operation).2) session

/-- The session behind operations on a new one. -/
def after (format : DocumentFormat) (platform : Platform) (files : FileTree)
    (operations : List Operation) : Session :=
  (start platform files).run format operations

theorem run_append (format : DocumentFormat) (session : Session)
    (first second : List Operation) :
    session.run format (first ++ second) = (session.run format first).run format second :=
  List.foldl_append

@[simp] theorem run_cons (format : DocumentFormat) (session : Session) (operation : Operation)
    (rest : List Operation) :
    session.run format (operation :: rest) =
      (session.perform format operation).2.run format rest := rfl

theorem after_append (format : DocumentFormat) (platform : Platform) (files : FileTree)
    (first second : List Operation) :
    after format platform files (first ++ second) =
      (after format platform files first).run format second :=
  run_append format (start platform files) first second

theorem after_concat (format : DocumentFormat) (platform : Platform) (files : FileTree)
    (operations : List Operation) (operation : Operation) :
    after format platform files (operations ++ [operation]) =
      ((after format platform files operations).perform format operation).2 :=
  after_append format platform files operations [operation]

/-- What holds of a new session and is kept by every operation holds behind all operations. -/
theorem after_induction {p : Session → Prop} {format : DocumentFormat} {platform : Platform}
    {files : FileTree} (hstart : p (start platform files))
    (hperform : ∀ session operation, p session → p (session.perform format operation).2)
    (operations : List Operation) : p (after format platform files operations) := by
  have hrun : ∀ session, p session → p (session.run format operations) := by
    induction operations with
    | nil => exact fun _ h => h
    | cons operation rest ih => exact fun session h => ih _ (hperform session operation h)
  exact hrun _ hstart

end Session

end RealtimeApp
