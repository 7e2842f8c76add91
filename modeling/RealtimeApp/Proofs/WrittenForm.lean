import RealtimeApp.App
import RealtimeApp.Proofs.NameMap

/-!
# The written form of an application

The language of descriptions, as relations between a value and the tokens that it is written
with.  Nothing here reads tokens from left to right: a list is cut into its items by `Commas` and
`IsStaticEntries`, and the fields of a group are values that each stand for one key.

The relation for a whole description is `IsDescription`.
-/

namespace RealtimeApp
namespace Written

/-! ## Lists, groups and fields -/

section Lists

variable {α F : Type}

/-- Items in order with commas between them, and perhaps one more behind the last. -/
inductive Commas (Item : α → List Token → Prop) : List α → List Token → Prop
  | nil : Commas Item [] []
  | last {a : α} {run : List Token} : Item a run → Commas Item [a] run
  | cons {a : α} {run rest : List Token} {comma : Token} {others : List α} :
      Item a run → comma.isLeaf .comma = true → Commas Item others rest →
      Commas Item (a :: others) (run ++ comma :: rest)

/-- One group of this shape, with members of this form. -/
def Group (d : Delimiter) (Form : α → List Token → Prop) (a : α) (tokens : List Token) : Prop :=
  ∃ position members, tokens = [.group d position members] ∧ Form a members

/-- An identifier with this name. -/
def IsName (name : Bytes) (t : Token) : Prop :=
  ∃ l, t = .leaf l ∧ l.kind = .ident ∧ l.lexeme = name

/-- A field `key : value`. -/
def IsField (key : F → Bytes) (Value : F → List Token → Prop) (field : F)
    (tokens : List Token) : Prop :=
  ∃ name colon run, tokens = name :: colon :: run ∧ IsName (key field) name ∧
    colon.isLeaf .colon = true ∧ Value field run

/-- Fields between commas, no two of them with the same key. -/
structure AreFields (key : F → Bytes) (Value : F → List Token → Prop) (fields : List F)
    (tokens : List Token) : Prop where
  listed : Commas (IsField key Value) fields tokens
  distinct : (fields.map key).Nodup

/-- The value that one of the fields gives, or else a default. -/
def GivenOr (fields : List F) (make : α → F) (default value : α) : Prop :=
  make value ∈ fields ∨ (∀ other, make other ∉ fields) ∧ value = default

end Lists

/-! ## Values -/

/-- A run of at least one token, none of them of the kind `stop`. -/
structure IsRun (stop : LeafKind) (fragment : Fragment) : Prop where
  ne_nil : fragment ≠ []
  stopless : ∀ t ∈ fragment, t.isLeaf stop = false

/-- A path is written as itself. -/
def IsPath (path : Fragment) (tokens : List Token) : Prop := tokens = path ∧ IsRun .comma path

/-- A leaf that carries a truth value. -/
def IsBool (value : Bool) (tokens : List Token) : Prop :=
  ∃ l, tokens = [.leaf l] ∧ l.kind = .bool ∧ l.literal = some (.bool value)

/-- A leaf that carries an integer below 256 and no suffix. -/
def IsByte (value : UInt8) (tokens : List Token) : Prop :=
  ∃ l n, tokens = [.leaf l] ∧ l.kind = .integer ∧ l.suffix = [] ∧
    l.literal = some (.integer n) ∧ n < 256 ∧ value = n.toUInt8

/-- A name in a list of names. -/
def IsIdent (entry : Bytes × Unit) (tokens : List Token) : Prop :=
  ∃ t, tokens = [t] ∧ IsName entry.1 t

/-- Distinct names between commas that make up the set. -/
def AreIdents (idents : NameSet) (tokens : List Token) : Prop :=
  ∃ entries, Commas IsIdent entries tokens ∧ idents.Lists entries

/-- Entries `name : type = initial ;` in order. -/
inductive IsStaticEntries : List (Bytes × Static) → List Token → Prop
  | nil : IsStaticEntries [] []
  | cons {entry : Bytes × Static} {others : List (Bytes × Static)}
      {name colon equal semicolon : Token} {rest : List Token} :
      IsName entry.1 name → colon.isLeaf .colon = true →
      IsRun .equal entry.2.type → equal.isLeaf .equal = true →
      IsRun .semicolon entry.2.initial → semicolon.isLeaf .semicolon = true →
      IsStaticEntries others rest →
      IsStaticEntries (entry :: others)
        (name :: colon :: (entry.2.type ++ equal :: (entry.2.initial ++ semicolon :: rest)))

/-- Entries with distinct names that make up the storage. -/
def AreStatics (statics : Statics) (tokens : List Token) : Prop :=
  ∃ entries, IsStaticEntries entries tokens ∧ statics.Lists entries

/-! ## Routines and tasks -/

/-- A field of a start routine. -/
inductive InitField where
  | path (value : Fragment)

namespace InitField

/-- The key of a field. -/
def key : InitField → Bytes
  | path _ => Bytes.ofString "path"

/-- The value of a field is written with these tokens. -/
def Value : InitField → List Token → Prop
  | path value => IsPath value

end InitField

/-- The fields of a start routine: its path. -/
def IsInit (init : Init) (tokens : List Token) : Prop :=
  ∃ fields, AreFields InitField.key InitField.Value fields tokens ∧ .path init.path ∈ fields

/-- A field of an idle routine. -/
inductive IdleField where
  | path (value : Fragment)
  | locals (value : Statics)
  | resources (value : NameSet)

namespace IdleField

/-- The key of a field. -/
def key : IdleField → Bytes
  | path _ => Bytes.ofString "path"
  | locals _ => Bytes.ofString "locals"
  | resources _ => Bytes.ofString "resources"

/-- The value of a field is written with these tokens. -/
def Value : IdleField → List Token → Prop
  | path value => IsPath value
  | locals value => Group .brace AreStatics value
  | resources value => Group .bracket AreIdents value

/-- The fields describe the routine. -/
structure Describe (fields : List IdleField) (idle : Idle) : Prop where
  path : .path idle.path ∈ fields
  locals : GivenOr fields .locals .empty idle.locals
  resources : GivenOr fields .resources .empty idle.resources

end IdleField

/-- The fields of an idle routine: its path, and perhaps storage of its own and the names of the
shared storage that it uses. -/
def IsIdle (idle : Idle) (tokens : List Token) : Prop :=
  ∃ fields, AreFields IdleField.key IdleField.Value fields tokens ∧ IdleField.Describe fields idle

/-- A field of a task. -/
inductive TaskField where
  | enabled (value : Bool)
  | priority (value : UInt8)
  | resources (value : NameSet)

namespace TaskField

/-- The key of a field. -/
def key : TaskField → Bytes
  | enabled _ => Bytes.ofString "enabled"
  | priority _ => Bytes.ofString "priority"
  | resources _ => Bytes.ofString "resources"

/-- The value of a field is written with these tokens. -/
def Value : TaskField → List Token → Prop
  | enabled value => IsBool value
  | priority value => IsByte value
  | resources value => Group .bracket AreIdents value

/-- The fields describe the task; what no field gives is left open. -/
structure Describe (fields : List TaskField) (task : Task) : Prop where
  enabled : ∀ value, task.enabled = some value ↔ .enabled value ∈ fields
  priority : ∀ value, task.priority = some value ↔ .priority value ∈ fields
  resources : GivenOr fields .resources .empty task.resources

end TaskField

/-- The fields of a task, all of which may be left out. -/
def IsTask (task : Task) (tokens : List Token) : Prop :=
  ∃ fields, AreFields TaskField.key TaskField.Value fields tokens ∧ TaskField.Describe fields task

/-- Tasks in braces, each as the value of a field with its name. -/
def AreTasks (tasks : Tasks) (tokens : List Token) : Prop :=
  ∃ entries, AreFields Prod.fst (fun entry => Group .brace IsTask entry.2) entries tokens ∧
    tasks.Lists entries

/-! ## Applications -/

/-- A field of an application. -/
inductive AppField where
  | device (value : Fragment)
  | idle (value : Idle)
  | init (value : Init)
  | resources (value : Statics)
  | tasks (value : Tasks)

namespace AppField

/-- The key of a field. -/
def key : AppField → Bytes
  | device _ => Bytes.ofString "device"
  | idle _ => Bytes.ofString "idle"
  | init _ => Bytes.ofString "init"
  | resources _ => Bytes.ofString "resources"
  | tasks _ => Bytes.ofString "tasks"

/-- The value of a field is written with these tokens. -/
def Value : AppField → List Token → Prop
  | device value => IsPath value
  | idle value => Group .brace IsIdle value
  | init value => Group .brace IsInit value
  | resources value => Group .brace AreStatics value
  | tasks value => Group .brace AreTasks value

/-- The fields describe the application. -/
structure Describe (fields : List AppField) (app : App) : Prop where
  device : .device app.device ∈ fields
  idle : .idle app.idle ∈ fields
  init : .init app.init ∈ fields
  resources : GivenOr fields .resources .empty app.resources
  tasks : GivenOr fields .tasks .empty app.tasks

end AppField

/-- The fields of an application: its device, its two routines, and perhaps shared storage and
tasks. -/
def IsApp (app : App) (tokens : List Token) : Prop :=
  ∃ fields, AreFields AppField.key AppField.Value fields tokens ∧ AppField.Describe fields app

/-- A whole description: one group in braces with the fields of the application. -/
def IsDescription (app : App) (tokens : List Token) : Prop := Group .brace IsApp app tokens

end Written
end RealtimeApp
