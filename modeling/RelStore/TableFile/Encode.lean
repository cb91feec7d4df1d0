import RelStore.TableFile.Basic
import RelStore.Text.Lines

/-!
# Writing table files

The text of a table file has a line for the name, one for the number of columns, one for each column
with its name and the code of its type, and one for the primary key, `-1` if there is none.  Then
comes the column of the only index, or the number of index declarations and a line for each of
them, and then a line for each row.  `TableFile.encode` fails on a field that would not read back.
-/

namespace RelStore.TableFile

/-- The line of a column. -/
def columnLine (c : Column) : String :=
  Text.joined separator [c.name, toString c.type.code.toInt]

/-- The line of the primary key. -/
def primaryKeyLine (key : Option Nat) : String :=
  match key with
  | some key => toString (Int64.ofNat key).toInt
  | none => "-1"

/-- The line of an index declaration. -/
def declarationLine (d : Declaration) : String :=
  Text.joined separator [toString d.column, toString d.index]

/-- The lines that tell the indexes. -/
def indexLines (f : TableFile) (kind : TableKind) : List String :=
  match kind with
  | .hash | .tree => [toString (f.keyColumn.getD 0)]
  | .multi => toString f.declarations.length :: f.declarations.map declarationLine
  | .set | .list => []

/-- The lines before the rows. -/
def headerLines (f : TableFile) (kind : TableKind) : List String :=
  [f.name, toString f.schema.width] ++ f.schema.columns.map columnLine ++
    [primaryKeyLine f.schema.primaryKey] ++ f.indexLines kind

/-- The field of a value, unless it would not read back. -/
def fieldOf (v : Value) (c : Column) : Except Error String := do
  if let .text s := v then
    if s.toList.any fun ch => ch == separator || ch == '\n' || ch == '\r' then
      throw (.invalidArgument (.separatorInField c.name))
    if s = Value.nullField then
      throw (.invalidArgument (.readsAsNull c.name))
  return v.field

/-- The line of a row. -/
def rowLine (s : Schema) (row : Row) : Except Error String := do
  let fields ← (row.zip s.columns).mapM fun (v, c) => fieldOf v c
  return Text.joined separator fields

/-- The text of a table file. -/
def encode (f : TableFile) (kind : TableKind) : Except Error String := do
  let rows ← f.rows.mapM (rowLine f.schema)
  return Text.unlines (f.headerLines kind ++ rows)

end RelStore.TableFile
