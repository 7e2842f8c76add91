import RealtimeApp.Grammar
import RealtimeApp.Lexer

/-!
# Descriptions of applications

A description is read once as tokens, and then as often as it is asked for as an application.
Faults of the source come before errors of the grammar: a source with faults has no
application, whatever its tokens are.
-/

namespace RealtimeApp

/-- Why a description has no application. -/
inductive Refusal where
  | ofSource (faults : List Fault)
  | ofGrammar (error : ParseError)
  deriving Repr

/-- The messages of a refusal, from the outermost inwards. -/
def Refusal.chain : Refusal → List Bytes
  | ofSource faults => Bytes.ofString "tokenizing application block" :: faults.map Fault.message
  | ofGrammar error => error.chain

/-- The application that tokens describe, where no fault was found on the way to them. -/
def App.ofReading (tokens : List Token) (faults : List Fault) : Except Refusal App :=
  if faults.isEmpty then (App.ofTokens tokens).mapError .ofGrammar else .error (.ofSource faults)

/-- The application that a source describes, under a limit on nesting. -/
def App.ofSource (source : Bytes) (limit : Int) : Except Refusal App :=
  App.ofReading (lex source limit).1 (lex source limit).2

/-- The tokens of a description, the faults found on the way to them, and the messages of the
last attempt to read an application. -/
structure Description where
  tokens : List Token
  faults : List Fault
  errors : List Bytes

namespace Description

/-- A description given by its tokens. -/
def ofTokens (tokens : List Token) : Description := ⟨tokens, [], []⟩

/-- A description given by its source. -/
def ofSource (source : Bytes) (limit : Int) : Description :=
  ⟨(lex source limit).1, (lex source limit).2, []⟩

/-- Read the application, and keep the messages of a refusal. -/
def parse (description : Description) : Option App × Description :=
  match App.ofReading description.tokens description.faults with
  | .ok app => (some app, { description with errors := [] })
  | .error refusal => (none, { description with errors := refusal.chain })

/-- Did the last attempt fail? -/
def hasErrors (description : Description) : Bool := !description.errors.isEmpty

end Description

end RealtimeApp
