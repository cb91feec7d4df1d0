import Std.Data.HashSet
import RelStore.Table.KeyIndex
import RelStore.Table.Kind

/-!
# Storages with one key

`Keyed` holds rows in the order of their insertion together with an index on one column.  Rows
whose key is absent are not indexed but kept in a list of their own, `unkeyed`.  The primary keys
of all rows are kept as a set.

`Keyed.check` decides whether a row may be inserted: an equal row with the same key, an absent
primary key and a primary key in use are reported in this order.  `Keyed.query` answers a
comparison of a column with a key from the index if it can, and by looking at every row otherwise.
-/

namespace RelStore

/-- The primary keys of stored rows. -/
abbrev KeySet := Std.HashSet Value

/-- Adds the primary key of a row, if it has one. -/
def KeySet.insertOf (s : Schema) (keys : KeySet) (row : Row) : KeySet :=
  match Row.primaryKey? s row with
  | some key => keys.insert key
  | none => keys

/-- Whether the primary key of a row is present and new. -/
def KeySet.check (s : Schema) (keys : KeySet) (row : Row) : Verdict :=
  match Row.primaryKey? s row with
  | none => .success
  | some key =>
    if key.isNull then .nullKey else if keys.contains key then .duplicateKey else .success

/-- The rows that satisfy a comparison of a column with a key. -/
def Row.filter (column : Nat) (op : Operator) (key : Value) (rows : List Row) : List Row :=
  rows.filter (Row.satisfies column op key)

/-- The operator that a lower bound stands for. -/
def Operator.ofLower (inclusive : Bool) : Operator :=
  if inclusive then .ge else .gt

/-- The operator that an upper bound stands for. -/
def Operator.ofUpper (inclusive : Bool) : Operator :=
  if inclusive then .le else .lt

/-- A range of values. -/
structure ValueRange where
  low : Value
  lowInclusive : Bool
  high : Value
  highInclusive : Bool
deriving DecidableEq, Inhabited, Repr

/-- The rows with a column in range: of those the lower bound allows, those the upper bound
allows. -/
def ValueRange.filter (range : ValueRange) (column : Nat) (rows : List Row) : List Row :=
  Row.filter column (.ofUpper range.highInclusive) range.high <|
    Row.filter column (.ofLower range.lowInclusive) range.low rows

/-- Rows with an index on one column. -/
structure Keyed where
  column : Nat
  index : KeyIndex
  rows : Array Row := #[]
  /-- The rows whose key is absent. -/
  unkeyed : Array Row := #[]
  primaryKeys : KeySet := ∅

namespace Keyed

/-- A storage without rows whose index is a hash table. -/
def hash (column : Nat) : Keyed where
  column
  index := .hash ∅

/-- A storage without rows whose index is a tree. -/
def tree (column : Nat) (shape : Shape) : Keyed where
  column
  index := .tree (.empty shape)

/-- The key of a row, if it is present. -/
def key? (k : Keyed) (row : Row) : Option Value :=
  row[k.column]?.filter (!·.isNull)

/-! ### Insertion -/

/-- Whether a row may be inserted. -/
def check (k : Keyed) (s : Schema) (row : Row) : Verdict :=
  let bucket := ((k.key? row).bind k.index.bucket?).getD #[]
  if bucket.contains row then .duplicateRow else k.primaryKeys.check s row

/-- Inserts a row. -/
def insert (k : Keyed) (s : Schema) (row : Row) : Keyed :=
  let primaryKeys := k.primaryKeys.insertOf s row
  match k.key? row with
  | some key =>
    { k with index := k.index.append key row, rows := k.rows.push row, primaryKeys }
  | none =>
    { k with rows := k.rows.push row, unkeyed := k.unkeyed.push row, primaryKeys }

/-- Inserts rows into a storage without rows whose index is a tree of the given shape, building the
tree at once. -/
def load (k : Keyed) (s : Schema) (shape : Shape) (rows : List Row) : Keyed :=
  let keyed := rows.filterMap fun row => (k.key? row).map (·, row)
  let ascending := keyed.mergeSort fun a b => (compare a.1 b.1).isLE
  { k with
    index := .tree (.ofEntries shape (KeyIndex.gather ascending))
    rows := rows.toArray
    unkeyed := (rows.filter fun row => (k.key? row).isNone).toArray
    primaryKeys := rows.foldl (·.insertOf s ·) k.primaryKeys }

/-- Inserts rows in order. -/
def insertAll (k : Keyed) (s : Schema) (rows : List Row) : Keyed :=
  match k.index with
  | .tree buckets =>
    if k.rows.isEmpty then k.load s buckets.shape rows else rows.foldl (·.insert s ·) k
  | .hash _ => rows.foldl (·.insert s ·) k

/-! ### Retrieval -/

/-- Whether a tree index answers comparisons of the column with the key. -/
def isIndexed (k : Keyed) (s : Schema) (column : Nat) (key : Value) : Bool :=
  column == k.column && !key.isNull && s.columns[column]?.any (·.type.accepts key)

/-- The rows whose key compares with a value, from the tree. -/
def queryTree (k : Keyed) (buckets : BTree Value Bucket) (op : Operator) (key : Value) :
    List Row :=
  match op with
  | .eq => ((buckets.get? key).getD #[]).toList
  | .ne =>
    k.unkeyed.toList ++ KeyIndex.flatten (buckets.below key) ++
      KeyIndex.flatten (buckets.above key)
  | .lt => KeyIndex.flatten (buckets.below key)
  | .le => KeyIndex.flatten (buckets.upTo key)
  | .gt => KeyIndex.flatten (buckets.above key)
  | .ge => KeyIndex.flatten (buckets.startingAt key)

/-- The rows whose key is equal to a value, from the hash table. -/
def queryHash (k : Keyed) (buckets : Std.HashMap Value Bucket) (key : Value) : List Row :=
  if key.isNull then k.unkeyed.toList else (buckets.getD key #[]).toList

/-- The rows with a column that compares with a key. -/
def query (k : Keyed) (s : Schema) (column : Nat) (op : Operator) (key : Value) : List Row :=
  match k.index with
  | .hash buckets =>
    if column = k.column ∧ op = .eq then k.queryHash buckets key
    else Row.filter column op key k.rows.toList
  | .tree buckets =>
    if k.isIndexed s column key then k.queryTree buckets op key
    else Row.filter column op key k.rows.toList

/-- The rows with a column in a range. -/
def queryRange (k : Keyed) (s : Schema) (column : Nat) (range : ValueRange) : List Row :=
  match k.index with
  | .hash _ => range.filter column k.rows.toList
  | .tree buckets =>
    if k.isIndexed s column range.low && k.isIndexed s column range.high then
      KeyIndex.flatten <|
        buckets.between (.ofKey range.low range.lowInclusive)
          (.ofKey range.high range.highInclusive)
    else range.filter column k.rows.toList

/-- The rows in the order of a column. -/
def sorted (k : Keyed) (column : Nat) : List Row :=
  match k.index with
  | .hash _ => Row.sorted column k.rows.toList
  | .tree buckets =>
    if column = k.column then k.unkeyed.toList ++ KeyIndex.flatten buckets.toList
    else Row.sorted column k.rows.toList

end Keyed

end RelStore
