import Mathlib.Data.List.Forall2
import RealtimeApp.Export
import RealtimeApp.Decimal
import RealtimeApp.Lexer
import RealtimeApp.Proofs.NameMap

/-!
# Reading an exported application

The way back from the exported JSON value to an application.  Every string that holds a fragment
is lexed on its own; no group in it lies deeper than the string is long, so that its length is no
limit on nesting (`lex_eq_of_length_le`).

What comes back is compared by `App.Same`: the fragments are written the same way, and everything
else is equal.
-/

namespace RealtimeApp

/-! ## Sameness -/

/-- Two fragments are written the same way. -/
def Fragment.Same (a b : Fragment) : Prop := Token.sameAll a b = true

/-- Storage of the same type and with the same initial value. -/
structure Static.Same (a b : Static) : Prop where
  type : Fragment.Same a.type b.type
  initial : Fragment.Same a.initial b.initial

/-- The same names in the same order, with related values. -/
def NameMap.EntriesRelated {α : Type} (R : α → α → Prop) (first second : List (Bytes × α)) : Prop :=
  List.Forall₂ (fun x y => x.1 = y.1 ∧ R x.2 y.2) first second

/-- The same names with the same storage under each. -/
def Statics.Same (a b : Statics) : Prop :=
  NameMap.EntriesRelated Static.Same a.entries b.entries

/-- Idle routines with the same path and storage, and equal names of shared storage. -/
structure Idle.Same (a b : Idle) : Prop where
  locals : Statics.Same a.locals b.locals
  path : Fragment.Same a.path b.path
  resources : a.resources = b.resources

/-- Applications that differ at most in the places and the decoded values of their tokens. -/
structure App.Same (a b : App) : Prop where
  device : Fragment.Same a.device b.device
  idle : Idle.Same a.idle b.idle
  init : Fragment.Same a.init.path b.init.path
  resources : Statics.Same a.resources b.resources
  tasks : a.tasks = b.tasks

/-! ## Decoding -/

namespace Json

/-- The value under a key of an object. -/
def field? (key : String) : Json → Option Json
  | object entries => (entries.find? (·.1 == Bytes.ofString key)).map Prod.snd
  | _ => none

/-- A truth value. -/
def bool? : Json → Option Bool
  | bool value => some value
  | _ => none

/-- A number below 256. -/
def byte? : Json → Option UInt8
  | number text =>
    if Decimal.ofDigits text < 256 then some (Decimal.ofDigits text).toUInt8 else none
  | _ => none

/-- A value that null leaves open. -/
def optional? {α : Type} (decode : Json → Option α) : Json → Option (Option α)
  | null => some none
  | j => (decode j).map some

end Json

/-- The tokens of a string, if it is lexed without a fault. -/
def Fragment.ofJson? : Json → Option Fragment
  | .string text =>
    match lex text text.length with
    | (tokens, []) => some tokens
    | (_, _ :: _) => none
  | _ => none

/-- An entry whose value is decoded. -/
def NameMap.entryOfJson? {α : Type} (decode : Json → Option α) (entry : Bytes × Json) :
    Option (Bytes × α) := (decode entry.2).map fun value => (entry.1, value)

/-- The map of an object whose values are all decoded. -/
def NameMap.ofJson? {α : Type} (decode : Json → Option α) : Json → Option (NameMap α)
  | .object entries => (entries.mapM (entryOfJson? decode)).map ofEntries
  | _ => none

/-- The name that a string gives. -/
def NameSet.nameOfJson? : Json → Option (Bytes × Unit)
  | .string name => some (name, ())
  | _ => none

/-- The set of the names in an array. -/
def NameSet.ofJson? : Json → Option NameSet
  | .array items => (items.mapM nameOfJson?).map NameMap.ofEntries
  | _ => none

/-- Storage from an object with its initial value and type. -/
def Static.ofJson? (j : Json) : Option Static := do
  let initial ← Fragment.ofJson? (← j.field? "expr")
  let type ← Fragment.ofJson? (← j.field? "ty")
  return ⟨type, initial⟩

/-- A start routine from an object with its path. -/
def Init.ofJson? (j : Json) : Option Init := do
  return ⟨← Fragment.ofJson? (← j.field? "path")⟩

/-- An idle routine from an object with its storage, its path and the names it uses. -/
def Idle.ofJson? (j : Json) : Option Idle := do
  let locals ← NameMap.ofJson? Static.ofJson? (← j.field? "locals")
  let path ← Fragment.ofJson? (← j.field? "path")
  let resources ← NameSet.ofJson? (← j.field? "resources")
  return ⟨locals, path, resources⟩

/-- A task from an object, where null leaves open. -/
def Task.ofJson? (j : Json) : Option Task := do
  let enabled ← Json.optional? Json.bool? (← j.field? "enabled")
  let priority ← Json.optional? Json.byte? (← j.field? "priority")
  let resources ← NameSet.ofJson? (← j.field? "resources")
  return ⟨enabled, priority, resources⟩

/-- An application from an object with its parts. -/
def App.ofJson? (j : Json) : Option App := do
  let device ← Fragment.ofJson? (← j.field? "device")
  let idle ← Idle.ofJson? (← j.field? "idle")
  let init ← Init.ofJson? (← j.field? "init")
  let resources ← NameMap.ofJson? Static.ofJson? (← j.field? "resources")
  let tasks ← NameMap.ofJson? Task.ofJson? (← j.field? "tasks")
  return ⟨device, idle, init, resources, tasks⟩

end RealtimeApp
