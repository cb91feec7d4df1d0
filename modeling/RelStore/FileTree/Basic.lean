import RelStore.FileTree.Path
import Std.Data.HashMap

/-!
# File trees

A file tree maps locations, the lists of names from the root, to files and directories.  Paths are
followed name by name by `FileTree.locate`: each name but the last has to be that of a directory,
a point stays and two points go up.  A name has at most 255 bytes.  A path that is too long or has a
null character leads nowhere.

Actions give the new tree, or say why they fail.  `makeDirectories` may fail half-way and gives
the tree in either case.
-/

namespace RelStore

/-- The names from the root to a file or a directory. -/
abbrev Location := List String

/-- What is at a location. -/
inductive FileNode where
  | file (bytes : ByteArray)
  | directory
deriving Inhabited

/-- Whether it is a directory. -/
def FileNode.isDirectory : FileNode → Bool
  | file _ => false
  | directory => true

/-- Why a path cannot be followed, or an action on a file fails. -/
inductive PathFault where
  | notFound
  | notDirectory
  | isDirectory
  | badName
  | badText
deriving DecidableEq, Repr

/-- Files and directories below a root. -/
structure FileTree where
  /-- What is at each location other than the root. -/
  nodes : Std.HashMap Location FileNode := ∅
  /-- The number of bytes that a path may have. -/
  pathLimit : Nat := 4095
deriving Inhabited

namespace FileTree

/-- The number of bytes that a name may have. -/
def nameLimit : Nat := 255

/-- What is at a location. -/
def get? (t : FileTree) (location : Location) : Option FileNode :=
  if location = [] then some .directory else t.nodes[location]?

/-- Removes what is at a location. -/
def erase (t : FileTree) (location : Location) : FileTree :=
  { t with nodes := t.nodes.erase location }

/-- Puts a file or a directory at a location. -/
def put (t : FileTree) (location : Location) (node : FileNode) : FileTree :=
  { t with nodes := t.nodes.insert location node }

theorem get?_root (t : FileTree) : t.get? [] = some .directory := if_pos rfl

theorem get?_put (t : FileTree) {location : Location} (h : location ≠ []) (node : FileNode)
    (other : Location) :
    (t.put location node).get? other = if other = location then some node else t.get? other := by
  by_cases e : other = location
  · subst e
    simp [get?, put, h]
  · simp [get?, put, e, Std.HashMap.getElem?_insert, Ne.symm e]

theorem get?_erase (t : FileTree) {location : Location} (h : location ≠ []) (other : Location) :
    (t.erase location).get? other = if other = location then none else t.get? other := by
  by_cases e : other = location
  · subst e
    simp [get?, erase, h]
  · simp [get?, erase, e, Std.HashMap.getElem?_erase, Ne.symm e]

/-! ### Following paths -/

/-- The location of a name in a directory. -/
def step (t : FileTree) (location : Location) (name : String) : Except PathFault Location :=
  match t.get? location with
  | none => .error .notFound
  | some (.file _) => .error .notDirectory
  | some .directory =>
    if name = "." then .ok location
    else if name = ".." then .ok location.dropLast
    else if nameLimit < name.utf8ByteSize then .error .badName
    else .ok (location ++ [name])

/-- Whether a path can be followed: it is not too long and has no null character. -/
def accepts (t : FileTree) (path : String) : Bool :=
  path.utf8ByteSize ≤ t.pathLimit && !path.toList.contains '\x00'

/-- The location that a path leads to. There may be nothing, but its parent is a directory. -/
def locate (t : FileTree) (path : String) : Except PathFault Location := do
  unless t.accepts path do
    throw .badName
  (Path.names path).foldlM t.step []

/-- What is at the end of a path. -/
def find (t : FileTree) (path : String) : Except PathFault FileNode := do
  match t.get? (← t.locate path) with
  | some node => return node
  | none => throw .notFound

/-- Whether there is something at the end of a path. -/
def contains (t : FileTree) (path : String) : Bool :=
  (t.find path).toBool

/-! ### Actions -/

/-- The bytes of a file. -/
def readBytes (t : FileTree) (path : String) : Except PathFault ByteArray := do
  match ← t.find path with
  | .file bytes => return bytes
  | .directory => throw .isDirectory

/-- The text of a file. -/
def readText (t : FileTree) (path : String) : Except PathFault String := do
  match String.fromUTF8? (← t.readBytes path) with
  | some text => return text
  | none => throw .badText

/-- Writes a file, which may exist. -/
def writeBytes (t : FileTree) (path : String) (bytes : ByteArray) : Except PathFault FileTree := do
  let location ← t.locate path
  if (t.get? location).any (·.isDirectory) then
    throw .isDirectory
  return t.put location (.file bytes)

/-- Writes the text of a file, which may exist. -/
def writeText (t : FileTree) (path text : String) : Except PathFault FileTree :=
  t.writeBytes path text.toUTF8

/-- Removes a file. -/
def remove (t : FileTree) (path : String) : Except PathFault FileTree := do
  let location ← t.locate path
  match t.get? location with
  | none => throw .notFound
  | some .directory => throw .isDirectory
  | some (.file _) => return t.erase location

/-- Moves a file to another path, where a file may be. -/
def rename (t : FileTree) (source target : String) : Except PathFault FileTree := do
  let bytes ← t.readBytes source
  (t.erase (← t.locate source)).writeBytes target bytes

/-- Follows names and makes the directories that are missing.  One that only points follow is not
made, as a point at the end has to find its directory. -/
def makeAlong (t : FileTree) (location : Location) : List String → Except PathFault Unit × FileTree
  | [] => (.ok (), t)
  | name :: names =>
    match t.step location name with
    | .error fault => (.error fault, t)
    | .ok next =>
      match t.get? next with
      | some .directory => t.makeAlong next names
      | some (.file _) => (.error .notDirectory, t)
      | none =>
        if names ≠ [] ∧ names.all (· = ".") then (.error .notFound, t)
        else (t.put next .directory).makeAlong next names

/-- Makes the directory of a path and all above it that are missing. -/
def makeDirectories (t : FileTree) (path : String) : Except PathFault Unit × FileTree :=
  if t.accepts path then t.makeAlong [] (Path.parts path) else (.error .badName, t)

/-! ### Listings -/

/-- The names in a directory, in ascending order; none if there is no directory. -/
def namesIn (t : FileTree) (path : String) : List String :=
  match t.locate path with
  | .error _ => []
  | .ok location =>
    let names := t.nodes.keys.filterMap fun l =>
      if l.dropLast = location then l.getLast? else none
    names.mergeSort fun a b => (compare a b).isLE

end FileTree

end RelStore
