import RelStore.DataType
import RelStore.Text.Cut

/-!
# Schemas

A schema gives a table its name, its columns and at most one primary key column.  A column name
may be qualified, as `table.name`; `Column.localName` is what follows the last point.  A column
that is not qualified is known as `table.name` through the name of its schema
(`Schema.qualified`). `Schema.resolve` finds the column that a reference means, and `Schema.check`
says whether the schema defines a table.
-/

namespace RelStore

/-- A named and typed column. -/
structure Column where
  name : String
  type : DataType
deriving DecidableEq, Inhabited, Repr

namespace Column

/-- The column's name without the table's. -/
def localName (c : Column) : String :=
  match Text.cutLast? '.' c.name with
  | some (_, name) => name
  | none => c.name

/-- Whether the name holds the name of a table. -/
def isQualified (c : Column) : Bool :=
  c.name.toList.contains '.'

/-- The column as it is shown. -/
protected def toString (c : Column) : String :=
  s!"{c.name} {c.type}"

instance : ToString Column where
  toString := Column.toString

end Column

/-- The name and the columns of a table. -/
structure Schema where
  table : String
  columns : List Column
  /-- The position of the primary key column. -/
  primaryKey : Option Nat
deriving DecidableEq, Inhabited, Repr

/-- The first element that is equal to an earlier one. -/
def firstRepeat? {α : Type} [DecidableEq α] (l : List α) : Option α :=
  go [] l
where
  /-- Looks for a member of `seen`. -/
  go (seen : List α) : List α → Option α
    | [] => none
    | a :: l => if a ∈ seen then some a else go (a :: seen) l

namespace Schema

/-- The number of columns. -/
def width (s : Schema) : Nat :=
  s.columns.length

/-- The names of the columns. -/
def names (s : Schema) : List String :=
  s.columns.map (·.name)

/-- Appends a column. -/
def add (s : Schema) (c : Column) : Schema :=
  { s with columns := s.columns ++ [c] }

/-- Appends a column that is the primary key from now on. -/
def addPrimaryKey (s : Schema) (c : Column) : Schema :=
  { s with columns := s.columns ++ [c], primaryKey := some s.width }

/-- Fails if there is no column, two columns share a name, or the primary key is no column. -/
def check (s : Schema) : Except Error Unit := do
  if s.columns.isEmpty then
    throw (.invalidArgument (.noColumns s.table))
  if let some name := firstRepeat? s.names then
    throw (.duplicateColumn name)
  if let some key := s.primaryKey then
    if s.width ≤ key then
      throw (.columnOutOfBounds key)

/-- The schema under another table name. -/
def renamed (s : Schema) (table : String) : Schema :=
  { s with table }

/-! ### Names of columns -/

/-- The name of a column together with its table's. -/
def dotted (table name : String) : String :=
  s!"{table}.{name}"

/-- The qualified name of a column of the schema. -/
def qualified (s : Schema) (c : Column) : String :=
  if c.isQualified then c.name else dotted s.table c.name

/-- The qualified names of the columns. -/
def qualifiedNames (s : Schema) : List String :=
  s.columns.map s.qualified

/-- The columns under their qualified names. -/
def qualifiedColumns (s : Schema) : List Column :=
  s.columns.map fun c => { c with name := s.qualified c }

/-- The position of the first column with a qualified name. -/
def position? (s : Schema) (name : String) : Option Nat :=
  s.qualifiedNames.findIdx? (· == name)

/-- Splits a reference without a table at its last point, if it has one. -/
def splitReference (table : Option String) (name : String) : Option String × String :=
  match table, Text.cutLast? '.' name with
  | none, some (t, n) => (some t, n)
  | _, _ => (table, name)

/-- Whether a column is the one a reference means. -/
def isNamed (s : Schema) (table : Option String) (name : String) (c : Column) : Bool :=
  match table with
  | some t => s.qualified c == dotted t name
  | none => c.localName == name

/-- The position of the only column that a reference means.  With a table the qualified name has to
agree, without one the local name. -/
def resolve (s : Schema) (table : Option String) (name : String) : Except Error Nat :=
  let (table, name) := splitReference table name
  let isMeant := s.isNamed table name
  match s.columns.findIdx? isMeant with
  | none =>
    .error (.columnNotFound (table.elim name (dotted · name)))
  | some i =>
    if (s.columns.drop (i + 1)).any isMeant then .error (.ambiguousColumn name) else .ok i

/-! ### Text -/

/-- The schema as it is shown. -/
protected def toString (s : Schema) : String :=
  let column := fun (c, i) =>
    if s.primaryKey = some i then s!"{c} PRIMARY KEY" else s!"{c}"
  let columns := ", ".intercalate (s.columns.zipIdx.map column)
  s!"{s.table} ({columns})"

instance : ToString Schema where
  toString := Schema.toString

end Schema

end RelStore
