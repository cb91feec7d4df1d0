import RelStore.Table.Basic

/-!
# Joins

The join of two tables has the columns of both under their qualified names, and its rows are pairs
of a left and a right row.  With a comparison the left rows are taken in the order of the compared
column, each with the right rows that compare; left rows with the same key follow each other, so the
right rows are looked up once for each key.  Without a comparison every left row is taken with every
right row.
-/

namespace RelStore

/-- A comparison of a left with a right column. -/
structure JoinOn where
  left : Nat
  op : Operator
  right : Nat
deriving DecidableEq, Inhabited, Repr

/-- The columns of both schemas under their qualified names. -/
def Schema.join (l r : Schema) : Schema where
  table := "$result"
  columns := l.qualifiedColumns ++ r.qualifiedColumns
  primaryKey := none

namespace Table

/-- Every left row with every right row. -/
def productRows (l r : Table) : List Row :=
  l.records.flatMap fun row => r.records.map (row ++ ·)

/-- The value of a left row that right rows are compared with; a missing value counts as absent. -/
def joinKey (on : JoinOn) (row : Row) : Value :=
  row[on.left]?.getD .null

/-- The right rows that compare with a key. -/
def rowsFor (r : Table) (on : JoinOn) (key : Value) : List Row :=
  (r.query on.right on.op.flip key).rows

/-- How far the left rows have been merged with the right ones. -/
structure Merge where
  /-- The latest key and the right rows that compare with it. -/
  latest : Option (Value × List Row) := none
  rows : Array Row := #[]

/-- The right rows that compare with a key, looked up unless the key is the latest. -/
def Merge.rowsFor (m : Merge) (r : Table) (on : JoinOn) (key : Value) : List Row :=
  match m.latest with
  | some (latest, rows) => if latest = key then rows else r.rowsFor on key
  | none => r.rowsFor on key

/-- Merges one more left row. -/
def Merge.step (r : Table) (on : JoinOn) (m : Merge) (row : Row) : Merge :=
  let key := joinKey on row
  let rows := m.rowsFor r on key
  { latest := some (key, rows), rows := m.rows ++ rows.map (row ++ ·) }

/-- The left rows in order, each with the right rows that compare; the right rows are looked up once
for left rows with the same key. -/
def matchingRows (l r : Table) (on : JoinOn) : List Row :=
  ((l.sorted on.left).foldl (Merge.step r on) {}).rows.toList

/-- The join of two tables. -/
def join (l r : Table) (on : Option JoinOn) : Relation where
  name := "$result"
  schema := l.schema.join r.schema
  sources := l.sources.union r.sources
  rows :=
    match on with
    | some on => matchingRows l r on
    | none => productRows l r

end Table

/-- The product of a relation with a table. -/
def Relation.product (r : Relation) (t : Table) : Relation :=
  (Table.ofRelation r).join t none

end RelStore
