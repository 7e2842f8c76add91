import RealtimeApp.App
import RealtimeApp.Json
import RealtimeApp.Token.Printer

/-!
# Applications as JSON

The keys of every object are in the order of their bytes.  Fragments are strings of printed
tokens, and what a task leaves open is null.
-/

namespace RealtimeApp

/-- A fragment as the string of its printed tokens. -/
def Fragment.json (fragment : Fragment) : Json := .string (Token.textAll fragment)

/-- A map from names as an object. -/
def NameMap.json {α : Type} (encode : α → Json) (map : NameMap α) : Json :=
  .object (map.entries.map fun (name, value) => (name, encode value))

/-- A set of names as an array. -/
def NameSet.json (names : NameSet) : Json := .array (names.names.map .string)

/-- Storage with its initial value and type. -/
def Static.json (item : Static) : Json :=
  .object [(Bytes.ofString "expr", Fragment.json item.initial),
    (Bytes.ofString "ty", Fragment.json item.type)]

/-- A start routine with its path. -/
def Init.json (init : Init) : Json :=
  .object [(Bytes.ofString "path", Fragment.json init.path)]

/-- An idle routine with its storage, its path and the names it uses. -/
def Idle.json (idle : Idle) : Json :=
  .object [(Bytes.ofString "locals", NameMap.json Static.json idle.locals),
    (Bytes.ofString "path", Fragment.json idle.path),
    (Bytes.ofString "resources", NameSet.json idle.resources)]

/-- A task, with null for what it leaves open. -/
def Task.json (task : Task) : Json :=
  .object [(Bytes.ofString "enabled", (task.enabled.map Json.bool).getD .null),
    (Bytes.ofString "priority", (task.priority.map fun p => Json.ofInt p.toNat).getD .null),
    (Bytes.ofString "resources", NameSet.json task.resources)]

/-- An application. -/
def App.json (app : App) : Json :=
  .object [(Bytes.ofString "device", Fragment.json app.device),
    (Bytes.ofString "idle", app.idle.json),
    (Bytes.ofString "init", app.init.json),
    (Bytes.ofString "resources", NameMap.json Static.json app.resources),
    (Bytes.ofString "tasks", NameMap.json Task.json app.tasks)]

end RealtimeApp
