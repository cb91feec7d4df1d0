import RelStore.Table.Basic

/-!
# Table files

`TableFile` is what the file of a table holds: the table's name, its schema, the columns of its
indexes and its rows.  `TableFile.ofTable` is the file of a table and `TableFile.restore` the
table of a file; a table's kind and the shape of its trees are not in the file.
-/

namespace RelStore

/-- The contents of a table's file. -/
structure TableFile where
  name : String
  schema : Schema
  /-- The column of the only index. -/
  keyColumn : Option Nat
  /-- The declarations of several indexes. -/
  declarations : List Declaration
  rows : List Row
deriving DecidableEq, Inhabited

namespace TableFile

/-- The character between the fields of a line. -/
def separator : Char := '\x00'

/-- The file of a table. -/
def ofTable (t : Table) : TableFile where
  name := t.name
  schema := t.schema
  keyColumn := t.keyColumn?
  declarations := t.declarations
  rows := t.records

/-- The table of a file. -/
def restore (f : TableFile) (kind : TableKind) (shape : Shape) : Except Error Table := do
  let t ← Table.empty kind f.name f.schema f.keyColumn f.declarations shape
  return (t.insertAll f.rows).2

end TableFile

end RelStore
