import RelStore.Relation.Basic
import RelStore.Table.Storage
import RelStore.Text.Quoted

/-!
# Tables

A table is a storage under a header: a name, a schema, the set of the tables that its rows come
from, and whether it is an alias.  An alias is another name for the same rows and refuses
insertion. `Table.empty` makes a table of a given kind, and `Table.query`, `queryRange` and `scan`
answer with a relation that keeps the table's header.
-/

namespace RelStore

/-- What a table is called, apart from its rows. -/
structure Header where
  name : String
  schema : Schema
  sources : Sources
  /-- Whether the table is another name for the rows of a table. -/
  isAlias : Bool
deriving DecidableEq, Inhabited

namespace Header

/-- The header of a table that is its own source. -/
def base (name : String) (schema : Schema) : Header where
  name
  schema
  sources := .single name
  isAlias := false

/-- The header of an alias. -/
def aliased (h : Header) (name : String) : Header where
  name
  schema := h.schema.renamed name
  sources := .single name
  isAlias := true

end Header

/-- A named storage. -/
structure Table extends Header where
  storage : Storage
deriving Inhabited

namespace Table

/-- The kind of the table. -/
def kind (t : Table) : TableKind :=
  t.storage.kind

/-- The rows in the order of their insertion. -/
def records (t : Table) : List Row :=
  t.storage.records

/-- The number of rows. -/
def size (t : Table) : Nat :=
  t.storage.size

/-- The column of the only index. -/
def keyColumn? (t : Table) : Option Nat :=
  t.storage.keyColumn?

/-- The declarations of several indexes. -/
def declarations (t : Table) : List Declaration :=
  t.storage.declarations

/-- A table without rows.  The index on one column is on the given column, or else on the primary
key, or else on the first column.  Several indexes are made by the declarations that count; there
has to be one, and all have to be on columns of the schema. -/
def empty (kind : TableKind) (name : String) (schema : Schema) (keyColumn : Option Nat)
    (declarations : List Declaration) (shape : Shape) : Except Error Table := do
  let column := (keyColumn.or schema.primaryKey).getD 0
  let storage ← match kind with
    | .set => pure (.set {})
    | .hash => pure (.keyed (.hash column))
    | .tree => pure (.keyed (.tree column shape))
    | .list => pure (.list #[])
    | .multi =>
      if let some d := Declaration.outOfRange? schema.width declarations then
        throw (.columnOutOfBounds d.column)
      match MultiKeyed.ofDeclarations? shape (Declaration.effective declarations) with
      | some m => pure (.multi m)
      | none => throw (.invalidArgument (.noIndex name))
  return { Header.base name schema with storage }

/-- The list of a relation's rows as a table. -/
def ofRelation (r : Relation) : Table where
  name := r.name
  schema := r.schema
  sources := r.sources
  isAlias := false
  storage := .list r.rows.toArray

/-- The table under another name. -/
def aliased (t : Table) (name : String) : Table where
  toHeader := t.toHeader.aliased name
  storage := t.storage

/-! ### Insertion -/

/-- Whether a row may be inserted. -/
def check (t : Table) (row : Row) : Verdict :=
  t.storage.check t.schema row

/-- Inserts a row unchecked; an alias refuses.  Says whether the row was stored. -/
def insert (t : Table) (row : Row) : Bool × Table :=
  if t.isAlias then (false, t) else (true, { t with storage := t.storage.insert t.schema row })

/-- Inserts rows unchecked; an alias refuses.  Gives the number of rows stored. -/
def insertAll (t : Table) (rows : List Row) : Nat × Table :=
  if t.isAlias then (0, t)
  else (rows.length, { t with storage := t.storage.insertAll t.schema rows })

/-! ### Retrieval -/

/-- Rows as a relation under the table's header. -/
def result (t : Table) (rows : List Row) : Relation where
  name := t.name
  schema := t.schema
  sources := t.sources
  rows

/-- The rows in the order of a column; rows with equal values keep their order. -/
def sorted (t : Table) (column : Nat) : List Row :=
  t.storage.sorted column

/-- The rows with a column that compares with a key. -/
def query (t : Table) (column : Nat) (op : Operator) (key : Value) : Relation :=
  t.result (t.storage.query t.schema column op key)

/-- The rows with a column in a range. -/
def queryRange (t : Table) (column : Nat) (range : ValueRange) : Relation :=
  t.result (t.storage.queryRange t.schema column range)

/-- The rows that satisfy a predicate. -/
def scan (t : Table) (p : Row → Bool) : Relation :=
  t.result (t.records.filter p)

/-- The rows in which a comparison of two columns is true. -/
def scanColumns (t : Table) (left : Nat) (op : Operator) (right : Nat) : Relation :=
  t.scan fun row =>
    match row[left]?, row[right]? with
    | some a, some b => op.holds a b
    | _, _ => false

/-- A summary of the table on one line. -/
def summary (t : Table) : String :=
  let name := Text.quoted t.name
  s!"Table \x7b name: {name}, kind: {t.kind.label}, rows: {t.size} \x7d"

end Table

end RelStore
