import RelStore.Database.Basic
import RelStore.Query.Evaluate

/-!
# Selections

`Database.select` evaluates a condition list over tables of the database, each under its own name or
another, and projects the result to the targets.  A table may be read several times under distinct
names.  The headings of the columns are qualified if the result comes from more than one table.
-/

namespace RelStore

/-- A table to be read, possibly under another name. -/
structure FromEntry where
  name : String
  otherName : Option String
deriving DecidableEq, Inhabited, Repr

/-- The name under which the table is read. -/
def FromEntry.visibleName (e : FromEntry) : String :=
  e.otherName.getD e.name

/-- A target of a selection. -/
inductive Target where
  /-- All columns. -/
  | all
  | column (reference : ColumnRef)
deriving DecidableEq, Inhabited, Repr

/-- The target as it is written. -/
protected def Target.toString : Target → String
  | all => "*"
  | column r => toString r

instance : ToString Target where
  toString := Target.toString

/-- The rows that a selection gives, under the headings of their columns. -/
structure Selection where
  columns : List String
  rows : List Row
deriving DecidableEq, Inhabited, Repr

/-- The position of the first column with a heading. -/
def Selection.position? (s : Selection) (heading : String) : Option Nat :=
  s.columns.findIdx? (· == heading)

/-! ### Projection -/

namespace Relation

/-- The positions of the columns of a target. -/
def positions (r : Relation) : Target → Except Error (List Nat)
  | .all => .ok (List.range r.schema.width)
  | .column ref => (r.schema.resolve ref.table ref.name).map ([·])

/-- The heading of a column. -/
def heading (r : Relation) (c : Column) : String :=
  if 1 < r.sources.size then r.schema.qualified c else c.localName

/-- The columns of the targets; all columns if there is no target. -/
def select (r : Relation) (targets : List Target) : Except Error Selection := do
  let positions := (← (if targets.isEmpty then [.all] else targets).mapM r.positions).flatten
  let rows ← r.rows.mapM (·.select positions)
  return { columns := positions.filterMap fun i => r.schema.columns[i]?.map r.heading, rows }

end Relation

namespace Database

/-- The scope of the tables that a selection reads. -/
def scope (db : Database) (entries : List FromEntry) : Except Error Scope :=
  entries.foldlM (fun s e => do s.add ((← db.table e.name).aliased e.visibleName)) .empty

/-- The rows of the tables that satisfy the conditions, projected to the targets. -/
def select (db : Database) (entries : List FromEntry) (conditions : List Condition)
    (targets : List Target) : Except Error Selection := do
  let s ← db.scope entries
  (← s.evaluate conditions).select targets

end Database

end RelStore
