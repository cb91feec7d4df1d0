import RelStore.Error
import RelStore.Table.Kind
import RelStore.Text.Cut
import RelStore.Text.Lines

/-!
# Manifests

The manifest of a data directory lists the saved tables in the order of their creation.  Its text
has a line for each table, the name and the kind with a null character between them.  Reading
skips empty lines.
-/

namespace RelStore

/-- A saved table. -/
structure ManifestEntry where
  name : String
  kind : TableKind
deriving DecidableEq, Inhabited, Repr

/-- The saved tables of a data directory. -/
abbrev Manifest := List ManifestEntry

namespace Manifest

/-- The line of a table. -/
def line (e : ManifestEntry) : String :=
  Text.joined '\x00' [e.name, toString e.kind]

/-- The text of a manifest. -/
def encode (m : Manifest) : String :=
  Text.unlines (m.map line)

/-- Reads the line of a table in the file at `path`. -/
def decodeLine (path : String) (number : Nat) (line : String) : Except Error ManifestEntry :=
  match Text.cutFirst? '\x00' line with
  | none => .error (.parse (.inFile path (.atLine number .noTableKind)))
  | some (name, kind) => do return { name, kind := ← TableKind.parse kind }

/-- Reads the text of the manifest at `path`. -/
def decode (path text : String) : Except Error Manifest :=
  let numbered := (Text.lines text).zipIdx 1
  (numbered.filter (·.1 ≠ "")).mapM fun (line, number) => decodeLine path number line

end Manifest

end RelStore
