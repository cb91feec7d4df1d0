import RelStore.Table.Keyed

/-!
# Storages

`Storage` is where a table keeps its rows, always in the order of their insertion: as a set of
distinct rows, with an index on one column, with one index on each of several columns, or as a plain
list.  `records` is the list of rows, and `check`, `insert`, `query`, `queryRange` and `sorted` hand
each request to the storage that answers it.
-/

namespace RelStore

/-- Rows that are told apart by all their values, with the set of them and of their primary keys. -/
structure Distinct where
  rows : Array Row := #[]
  members : Std.HashSet Row := ∅
  primaryKeys : KeySet := ∅

namespace Distinct

/-- Whether a row may be inserted. -/
def check (d : Distinct) (s : Schema) (row : Row) : Verdict :=
  if d.members.contains row then .duplicateRow else d.primaryKeys.check s row

/-- Inserts a row. -/
def insert (d : Distinct) (s : Schema) (row : Row) : Distinct where
  rows := d.rows.push row
  members := d.members.insert row
  primaryKeys := d.primaryKeys.insertOf s row

end Distinct

/-- Rows with an index on each of one or more columns; every part holds all rows. -/
structure MultiKeyed where
  first : Keyed
  others : List Keyed

namespace MultiKeyed

/-- The parts, one for each index. -/
def parts (m : MultiKeyed) : List Keyed :=
  m.first :: m.others

/-- The part whose index is on the column, or the first part. -/
def route (m : MultiKeyed) (column : Nat) : Keyed :=
  (m.parts.find? (·.column == column)).getD m.first

/-- Whether a row may be inserted.  A part that finds an equal row decides before the others. -/
def check (m : MultiKeyed) (s : Schema) (row : Row) : Verdict :=
  let verdicts := m.parts.map (·.check s row)
  if verdicts.contains .duplicateRow then .duplicateRow
  else (verdicts.find? (· != .success)).getD .success

/-- Inserts a row into every part. -/
def insert (m : MultiKeyed) (s : Schema) (row : Row) : MultiKeyed where
  first := m.first.insert s row
  others := m.others.map (·.insert s row)

/-- The declarations of the indexes. -/
def declarations (m : MultiKeyed) : List Declaration :=
  m.parts.map fun k => ⟨k.column, k.index.type⟩

/-- A part without rows for a declaration. -/
def part (shape : Shape) (d : Declaration) : Keyed :=
  match d.index with
  | .hash => .hash d.column
  | _ => .tree d.column shape

/-- A storage without rows for the given declarations. -/
def ofDeclarations? (shape : Shape) (declarations : List Declaration) : Option MultiKeyed :=
  match declarations with
  | [] => none
  | d :: ds => some ⟨part shape d, ds.map (part shape)⟩

end MultiKeyed

/-- Where a table keeps its rows. -/
inductive Storage where
  | set (rows : Distinct)
  | keyed (rows : Keyed)
  | multi (rows : MultiKeyed)
  | list (rows : Array Row)

namespace Storage

instance : Inhabited Storage where
  default := .list #[]

/-- The kind of tables with the storage. -/
def kind : Storage → TableKind
  | set _ => .set
  | keyed k =>
    match k.index with
    | .hash _ => .hash
    | .tree _ => .tree
  | multi _ => .multi
  | list _ => .list

/-- The column of the only index. -/
def keyColumn? : Storage → Option Nat
  | keyed k => some k.column
  | _ => none

/-- The declarations of several indexes. -/
def declarations : Storage → List Declaration
  | multi m => m.declarations
  | _ => []

/-- The rows in the order of their insertion, as an array. -/
def rowArray : Storage → Array Row
  | set d => d.rows
  | keyed k => k.rows
  | multi m => m.first.rows
  | list rows => rows

/-- The rows in the order of their insertion. -/
def records (st : Storage) : List Row :=
  st.rowArray.toList

/-- The number of rows. -/
def size (st : Storage) : Nat :=
  st.rowArray.size

/-! ### Insertion -/

/-- Whether a row may be inserted. -/
def check (st : Storage) (s : Schema) (row : Row) : Verdict :=
  match st with
  | set d => d.check s row
  | keyed k => k.check s row
  | multi m => m.check s row
  | list _ => .success

/-- Inserts a row. -/
def insert (st : Storage) (s : Schema) (row : Row) : Storage :=
  match st with
  | set d => set (d.insert s row)
  | keyed k => keyed (k.insert s row)
  | multi m => multi (m.insert s row)
  | list rows => list (rows.push row)

/-- Inserts rows in order. -/
def insertAll (st : Storage) (s : Schema) (rows : List Row) : Storage :=
  match st with
  | keyed k => keyed (k.insertAll s rows)
  | st => rows.foldl (·.insert s ·) st

/-! ### Retrieval -/

/-- The rows with a column that compares with a key. -/
def query (st : Storage) (s : Schema) (column : Nat) (op : Operator) (key : Value) : List Row :=
  match st with
  | keyed k => k.query s column op key
  | multi m => (m.route column).query s column op key
  | st => Row.filter column op key st.records

/-- The rows with a column in a range. -/
def queryRange (st : Storage) (s : Schema) (column : Nat) (range : ValueRange) : List Row :=
  match st with
  | keyed k => k.queryRange s column range
  | multi m => (m.route column).queryRange s column range
  | st => range.filter column st.records

/-- The rows in the order of a column; rows with equal values keep their order. -/
def sorted (st : Storage) (column : Nat) : List Row :=
  match st with
  | keyed k => k.sorted column
  | multi m => (m.route column).sorted column
  | st => Row.sorted column st.records

end Storage

end RelStore
