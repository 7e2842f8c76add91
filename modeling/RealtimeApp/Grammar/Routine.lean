import RealtimeApp.Grammar.Slot
import RealtimeApp.Grammar.Storage

/-!
# Routines and tasks

The start routine has a path.  The idle routine has a path, storage of its own and the names
of shared storage.  A task may say whether it is enabled, its priority, and the names of
shared storage.
-/

namespace RealtimeApp

namespace Grammar

/-- The fields of a start routine. -/
structure InitSlots where
  path : Option Fragment

namespace InitSlots

/-- Read the value of one field. -/
def visit (key : Leaf) (slots : InitSlots) : Rule InitSlots :=
  if key.lexeme = Bytes.ofString "path" then do
    let value ← fill key slots.path Grammar.path
    return { slots with path := some value }
  else unknown key

/-- The routine that the fields describe. -/
def finish (slots : InitSlots) : Except ParseError Init := do
  let path ← filled (Bytes.ofString "path") slots.path
  return ⟨path⟩

end InitSlots

/-- A start routine in braces. -/
def init : Rule Init := .delimited .brace fun body => do
  (← (Fields.read (.ofRules InitSlots.visit) ⟨none⟩ body).result).finish

/-- The fields of an idle routine. -/
structure IdleSlots where
  locals : Option Statics
  path : Option Fragment
  resources : Option NameSet

namespace IdleSlots

/-- Read the value of one field. -/
def visit (key : Leaf) (slots : IdleSlots) : Rule IdleSlots :=
  if key.lexeme = Bytes.ofString "path" then do
    let value ← fill key slots.path Grammar.path
    return { slots with path := some value }
  else if key.lexeme = Bytes.ofString "locals" then do
    let value ← fill key slots.locals statics
    return { slots with locals := some value }
  else if key.lexeme = Bytes.ofString "resources" then do
    let value ← fill key slots.resources idents
    return { slots with resources := some value }
  else unknown key

/-- The routine that the fields describe. -/
def finish (slots : IdleSlots) : Except ParseError Idle := do
  let path ← filled (Bytes.ofString "path") slots.path
  return ⟨slots.locals.getD .empty, path, slots.resources.getD .empty⟩

end IdleSlots

/-- An idle routine in braces. -/
def idle : Rule Idle := .delimited .brace fun body => do
  (← (Fields.read (.ofRules IdleSlots.visit) ⟨none, none, none⟩ body).result).finish

/-- The fields of a task. -/
structure TaskSlots where
  enabled : Option Bool
  priority : Option UInt8
  resources : Option NameSet

namespace TaskSlots

/-- Read the value of one field. -/
def visit (key : Leaf) (slots : TaskSlots) : Rule TaskSlots :=
  if key.lexeme = Bytes.ofString "enabled" then do
    let value ← fill key slots.enabled bool
    return { slots with enabled := some value }
  else if key.lexeme = Bytes.ofString "priority" then do
    let value ← fill key slots.priority byte
    return { slots with priority := some value }
  else if key.lexeme = Bytes.ofString "resources" then do
    let value ← fill key slots.resources idents
    return { slots with resources := some value }
  else unknown key

/-- The task that the fields describe. -/
def finish (slots : TaskSlots) : Task :=
  ⟨slots.enabled, slots.priority, slots.resources.getD .empty⟩

end TaskSlots

/-- A task in braces. -/
def task : Rule Task := .delimited .brace fun body =>
  (Fields.read (.ofRules TaskSlots.visit) ⟨none, none, none⟩ body).result.map TaskSlots.finish

/-- Read the task under one name. -/
def visitTask (name : Leaf) (tasks : Tasks) : Rule Tasks :=
  if tasks.contains name.lexeme then .fail (.duplicateTask name.lexeme)
  else do
    let value ← task.within (.task name.lexeme)
    return tasks.insert name.lexeme value

/-- Tasks in braces, each under its name. -/
def tasks : Rule Tasks :=
  .delimited .brace fun body => (Fields.read (.ofRules visitTask) .empty body).result

end Grammar

end RealtimeApp
