import RelStore.DataDirectory.Manifest
import RelStore.FileTree.Basic
import RelStore.TableFile.Decode
import RelStore.TableFile.Encode

/-!
# Data directories

A data directory holds a manifest and a file for each table that the manifest lists.  The actions
run in `Files`, where the state is a file tree: it keeps what was done before a failure.  A file
is written under a temporary name and then moved to its place, so that a failure to write leaves
the previous file.
-/

namespace RelStore

/-- Actions on a file tree that may fail. -/
abbrev Files := ExceptT Error (StateM FileTree)

namespace Files

/-- Changes the tree, or fails with a fault of the given kind. -/
def change (f : FileTree → Except PathFault FileTree) (fault : FileFault) : Files Unit := do
  match f (← get) with
  | .ok t => set t
  | .error _ => throw (.file fault)

/-- Makes a directory and all above it that are missing. -/
def makeDirectories (path : String) : Files Unit := do
  let (outcome, t) := (← get).makeDirectories path
  set t
  if let .error _ := outcome then
    throw (.file (.create path))

/-- The text of a file. -/
def readText (path : String) : Files String := do
  match (← get).readText path with
  | .ok text => return text
  | .error _ => throw (.file (.read path))

/-- The name under which a file is written before it is moved to its place. -/
def temporary (path : String) : String :=
  path ++ ".tmp"

/-- Writes a file, with the directories above it. -/
def replace (path text : String) : Files Unit := do
  if let some parent := Path.parent? path then
    unless parent.isEmpty do
      makeDirectories parent
  change (·.writeText (temporary path) text) (.write path)
  change (·.rename (temporary path) path) (.replace path)

/-- Removes a file if it is there. -/
def removeIfPresent (path : String) : Files Unit := do
  match (← get).remove path with
  | .ok t => set t
  | .error .notFound => return
  | .error _ => throw (.file (.remove path))

end Files

namespace DataDirectory

/-- The path of a table's file. -/
def tablePath (directory table : String) : String :=
  Path.join directory (table ++ ".tbl")

/-- The path of the manifest. -/
def manifestPath (directory : String) : String :=
  Path.join directory "catalog"

/-! ### Files of tables -/

/-- Writes a table to a file. -/
def writeTable (path : String) (t : Table) : Files Unit := do
  Files.replace path (← (TableFile.ofTable t).encode t.kind)

/-- Reads the file of a table of the given kind. -/
def readTable (path : String) (kind : TableKind) : Files TableFile := do
  match TableFile.decode kind (← Files.readText path) with
  | .ok f => return f
  | .error (.parse fault) => throw (.parse (.inFile path fault))
  | .error e => throw e

/-- Reads a table of the given kind. -/
def restoreTable (path : String) (kind : TableKind) (shape : Shape) : Files Table := do
  (← readTable path kind).restore kind shape

/-- Removes the file of a table, if there is one. -/
def removeTable (directory table : String) : Files Unit :=
  Files.removeIfPresent (tablePath directory table)

/-! ### The manifest -/

/-- Writes the manifest. -/
def writeManifest (directory : String) (m : Manifest) : Files Unit :=
  Files.replace (manifestPath directory) m.encode

/-- Reads the manifest; a directory without one has no tables. -/
def readManifest (directory : String) : Files Manifest := do
  let path := manifestPath directory
  if (← get).contains path then
    Manifest.decode path (← Files.readText path)
  else
    return []

end DataDirectory

end RelStore
