import RealtimeApp.Grammar.Routine

/-!
# The application block

An application is one group in braces with the fields `device`, `idle`, `init`, `resources`
and `tasks`, of which the first three must be given, and nothing behind it.
-/

namespace RealtimeApp

namespace Grammar

/-- The fields of an application. -/
structure AppSlots where
  device : Option Fragment
  idle : Option Idle
  init : Option Init
  resources : Option Statics
  tasks : Option Tasks

namespace AppSlots

/-- No field given. -/
def empty : AppSlots := ⟨none, none, none, none, none⟩

/-- Read the value of one field. -/
def visit (key : Leaf) (slots : AppSlots) : Rule AppSlots :=
  if key.lexeme = Bytes.ofString "device" then do
    let value ← fill key slots.device path
    return { slots with device := some value }
  else if key.lexeme = Bytes.ofString "idle" then do
    let value ← fill key slots.idle Grammar.idle
    return { slots with idle := some value }
  else if key.lexeme = Bytes.ofString "init" then do
    let value ← fill key slots.init Grammar.init
    return { slots with init := some value }
  else if key.lexeme = Bytes.ofString "resources" then do
    let value ← fill key slots.resources statics
    return { slots with resources := some value }
  else if key.lexeme = Bytes.ofString "tasks" then do
    let value ← fill key slots.tasks Grammar.tasks
    return { slots with tasks := some value }
  else unknown key

/-- The application that the fields describe. -/
def finish (slots : AppSlots) : Except ParseError App := do
  let device ← filled (Bytes.ofString "device") slots.device
  let idle ← filled (Bytes.ofString "idle") slots.idle
  let init ← filled (Bytes.ofString "init") slots.init
  return ⟨device, idle, init, slots.resources.getD .empty, slots.tasks.getD .empty⟩

end AppSlots

/-- An application block. -/
def app : Rule App := .delimited .brace fun body => do
  (← (Fields.read (.ofRules AppSlots.visit) .empty body).result).finish

end Grammar

/-- The application that a whole sequence of tokens describes. -/
def App.ofTokens (tokens : List Token) : Except ParseError App :=
  match Grammar.app.run tokens with
  | (.error e, _) => .error e
  | (.ok app, []) => .ok app
  | (.ok _, extra :: _) => .error (.ofCause (.trailing extra))

end RealtimeApp
