import RealtimeApp.Bytes

/-!
# File trees

Files lie in directories under names.  A path is a text whose names stand between slashes; an
empty name and a dot stay where they are, and two dots lead back to the directory around.  A
path leads nowhere when a name is missing or a file stands where a directory belongs, and
cannot be followed when a name or the whole path is too long.
-/

namespace RealtimeApp

/-- What lies in a directory under a name. -/
inductive Entry where
  | file (content : Bytes)
  /-- A file that may not be opened. -/
  | locked
  | directory
  deriving DecidableEq, Repr

/-- A place in a file tree: the names from the root on. -/
abbrev Place := List Bytes

/-- What lies at each place. -/
structure FileTree where
  entries : List (Place × Entry)
  deriving Repr

/-- Where a path leads. -/
inductive Target where
  /-- To a place where something lies. -/
  | present (place : Place) (entry : Entry)
  /-- To a new name in a directory that is there. -/
  | absent (place : Place)
  /-- Beyond a missing name, or beyond a file. -/
  | unreachable
  | tooLong
  deriving DecidableEq, Repr

namespace FileTree

/-- The tree without files. -/
def empty : FileTree := ⟨[]⟩

/-- What lies at a place; the root is a directory. -/
def get? (tree : FileTree) (place : Place) : Option Entry :=
  if place = [] then some .directory
  else (tree.entries.find? (·.1 == place)).map Prod.snd

/-- The tree with something else at a place. -/
def set (tree : FileTree) (place : Place) (entry : Entry) : FileTree :=
  ⟨(place, entry) :: tree.entries.filter (·.1 != place)⟩

/-- The tree without what lies at a place and below it. -/
def erase (tree : FileTree) (place : Place) : FileTree :=
  ⟨tree.entries.filter fun entry => !place.isPrefixOf entry.1⟩

/-- The names of a path. -/
def namesOf : Bytes → List Bytes
  | [] => [[]]
  | b :: rest =>
    if b = ascii '/' then [] :: namesOf rest
    else
      match namesOf rest with
      | [] => [[b]]
      | name :: names => (b :: name) :: names

/-- The most bytes that a name may have. -/
def longestName : Nat := 255

/-- The most bytes that a path may have. -/
def longestPath : Nat := 4095

/-- Does the name stay in its directory? -/
def stays (name : Bytes) : Bool := name.isEmpty || name == Bytes.ofString "."

/-- Does the name lead back to the directory around? -/
def leadsBack (name : Bytes) : Bool := name == Bytes.ofString ".."

/-- Follow names from a directory on. -/
def walk (tree : FileTree) (place : Place) : List Bytes → Target
  | [] => .present place .directory
  | name :: names =>
    if stays name then walk tree place names
    else if leadsBack name then walk tree place.dropLast names
    else if longestName < name.length then .tooLong
    else
      match tree.get? (place ++ [name]) with
      | some .directory => walk tree (place ++ [name]) names
      | some entry => if names.isEmpty then .present (place ++ [name]) entry else .unreachable
      | none => if names.all stays then .absent (place ++ [name]) else .unreachable

/-- The path up to its first zero byte, where it ends for every use of it. -/
def cut (path : Bytes) : Bytes := path.takeWhile (· != 0)

/-- Where a path leads. -/
def find (tree : FileTree) (path : Bytes) : Target :=
  let path := cut path
  if path.isEmpty then .unreachable
  else if longestPath < path.length then .tooLong
  else tree.walk [] (namesOf path)

/-- Does something lie where a path leads? -/
def contains (tree : FileTree) (path : Bytes) : Bool :=
  match tree.find path with
  | .present .. => true
  | _ => false

/-- Follow names and make the directories that are missing, as far as that goes. -/
def makeAlong (tree : FileTree) (place : Place) : List Bytes → FileTree × Bool
  | [] => (tree, true)
  | name :: names =>
    if stays name then makeAlong tree place names
    else if leadsBack name then makeAlong tree place.dropLast names
    else if longestName < name.length then (tree, false)
    else
      match tree.get? (place ++ [name]) with
      | some .directory => makeAlong tree (place ++ [name]) names
      | some _ => (tree, false)
      | none => makeAlong (tree.set (place ++ [name]) .directory) (place ++ [name]) names

/-- Make the directory that a path leads to and those around it, and say whether it is there
in the end. -/
def makeDirectories (tree : FileTree) (path : Bytes) : FileTree × Bool :=
  let path := cut path
  if path.isEmpty || longestPath < path.length then (tree, false)
  else tree.makeAlong [] (namesOf path)

/-- The path of the directory around, if the path names one: what stands before the last
slash, or the slash itself where nothing does. -/
def parent? (path : Bytes) : Option Bytes :=
  match path.reverse.dropWhile (· != ascii '/') with
  | [] => none
  | [slash] => some [slash]
  | _ :: before => some before.reverse

/-- Open a file for adding to it, making it when it is not there, and say whether that went. -/
def openToAppend (tree : FileTree) (path : Bytes) : FileTree × Bool :=
  match tree.find path with
  | .present _ (.file _) => (tree, true)
  | .absent place =>
    if (namesOf (cut path)).getLast?.any stays then (tree, false)
    else (tree.set place (.file []), true)
  | _ => (tree, false)

/-- Put a file where a path leads, with the directories around it.  A directory that lies there
stays. -/
def putFile (tree : FileTree) (path content : Bytes) : FileTree :=
  let tree := ((parent? path).map fun around => (tree.makeDirectories around).1).getD tree
  match tree.find path with
  | .absent place => tree.set place (.file content)
  | .present place (.file _) => tree.set place (.file content)
  | _ => tree

/-- Remove what lies where a path leads, and all below it. -/
def remove (tree : FileTree) (path : Bytes) : FileTree :=
  match tree.find path with
  | .present place _ => tree.erase place
  | _ => tree

end FileTree

end RealtimeApp
