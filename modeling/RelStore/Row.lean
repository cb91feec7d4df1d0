import RelStore.Operator
import RelStore.Schema

/-!
# Rows

A row is the list of its values, in the order of the columns of its schema.  `Row.check` says
whether a row may be stored under a schema: it has one value for each column, of the column's
type, within its bound, and such that a table file can carry it.
-/

namespace RelStore

/-- The values of a row. -/
abbrev Row := List Value

namespace Row

/-- The row of absent values. -/
def ofNulls (s : Schema) : Row :=
  List.replicate s.width .null

/-- The row with one value replaced. -/
def set (r : Row) (i : Nat) (v : Value) : Except Error Row :=
  if i < r.length then .ok (List.set r i v) else .error (.columnOutOfBounds i)

/-- The values at the given positions. -/
def select (r : Row) (positions : List Nat) : Except Error Row :=
  positions.mapM fun i =>
    match r[i]? with
    | some v => .ok v
    | none => .error (.columnOutOfBounds i)

/-- Fails if a column may not hold a value. -/
def checkField (v : Value) (c : Column) : Except Error Unit := do
  unless c.type.accepts v do
    throw (.typeMismatch s!"column {c.name} ({c.type})" v.kindName)
  if let (some limit, .text s) := (c.type.limit?, v) then
    if limit < s.length then
      throw (.valueTooLong c.name limit s.length)
  if let .text s := v then
    unless Value.Storable s do
      throw (.invalidArgument (.unstorable c.name))

/-- Fails if the row may not be stored under the schema. -/
def check (r : Row) (s : Schema) : Except Error Unit := do
  if r.length ≠ s.width then
    throw (.columnCount s.width r.length)
  (r.zip s.columns).forM fun (v, c) => checkField v c

/-- The row as it is shown. -/
def text (r : Row) : String :=
  let values := ", ".intercalate (r.map toString)
  s!"({values})"

/-! ### Order -/

/-- Lexicographic comparison of rows. -/
def compare (r s : Row) : Ordering :=
  List.compareLex Ord.compare r s

/-- Whether `r` comes no later than `s` in the order of a column; a missing value comes first. -/
def leAt (column : Nat) (r s : Row) : Bool :=
  (Ord.compare r[column]? s[column]?).isLE

/-- The rows in the order of a column; rows with equal values keep their order. -/
def sorted (column : Nat) (rows : List Row) : List Row :=
  rows.mergeSort (leAt column)

/-- The value of the row at the column of the primary key. -/
def primaryKey? (s : Schema) (r : Row) : Option Value := do
  r[← s.primaryKey]?

/-- Whether the row has a value at the column and the comparison with the key is true. -/
def satisfies (column : Nat) (op : Operator) (key : Value) (r : Row) : Bool :=
  r[column]?.any fun v => op.holds v key

end Row

end RelStore
