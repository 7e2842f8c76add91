import RealtimeApp.NameMap
import RealtimeApp.Token

/-!
# Applications

An application runs on a device: a start routine, an idle routine that runs when nothing else
does, tasks with priorities, and storage that they share.  Types, initial values and paths are
kept as the tokens that they are written with.
-/

namespace RealtimeApp

/-- Tokens that are kept as they are written. -/
abbrev Fragment := List Token

/-- Statically allocated storage of a type, with its initial value. -/
structure Static where
  type : Fragment
  initial : Fragment

/-- Statically allocated storage under names. -/
abbrev Statics := NameMap Static

/-- The start routine. -/
structure Init where
  path : Fragment

/-- The routine that runs when nothing else does, with storage of its own and the names of
the shared storage that it uses. -/
structure Idle where
  locals : Statics
  path : Fragment
  resources : NameSet

/-- A task.  What is not said about it is left open. -/
structure Task where
  enabled : Option Bool
  priority : Option UInt8
  resources : NameSet

/-- Tasks under names. -/
abbrev Tasks := NameMap Task

/-- An application. -/
structure App where
  device : Fragment
  idle : Idle
  init : Init
  resources : Statics
  tasks : Tasks

end RealtimeApp
