import RelStore.Database.Select

/-!
# The meaning of a selection

A selection reads tables, each under a name of its own, and a `Label` tells a column by the name of
its table and its own.  An environment gives values to labelled columns; `environments` lists those
that come from a choice of one stored row for each table.  A condition list in postfix order stands
for a `Formula`, which holds in an environment or not.  `meaning` lists the values of the wanted
columns in the environments in which the formula holds.

Nothing here speaks of indexes, joins or the order in which tables are combined.
-/

namespace RelStore

/-! ### Labels -/

/-- A column of a table that is read. -/
structure Label where
  /-- The name under which the table is read. -/
  table : String
  column : String
deriving DecidableEq, Repr

namespace Label

/-- The full name of the column. -/
def text (l : Label) : String :=
  Schema.dotted l.table l.column

/-- Whether a reference means the column.  A reference with a point in it is a full name, one
without is the name of a column of any table. -/
def isNamed (l : Label) (r : ColumnRef) : Bool :=
  if '.' ∈ (toString r).toList then l.text == toString r else l.column == toString r

/-- The heading of the column; a column of the only table goes by its own name. -/
def heading (alone : Bool) (l : Label) : String :=
  if alone then l.column else l.text

end Label

/-- The labels of the columns of a table. -/
def Table.labels (t : Table) : List Label :=
  t.schema.columns.map fun c => ⟨t.name, c.name⟩

/-- The labels of the columns of tables. -/
def labelsOf (tables : List Table) : List Label :=
  tables.flatMap (·.labels)

/-! ### Environments -/

/-- Values of labelled columns. -/
abbrev Env := List (Label × Value)

namespace Env

/-- The value that a reference means. -/
def value? (env : Env) (r : ColumnRef) : Option Value :=
  (env.find? fun cell => cell.1.isNamed r).map (·.2)

/-- The values of columns. -/
def project (env : Env) (labels : List Label) : Option Row :=
  labels.mapM (env.lookup ·)

end Env

/-- A row of a table with its values labelled. -/
def Table.cells (t : Table) (row : Row) : Env :=
  t.labels.zip row

/-- Each choice of a stored row for every table. -/
def environments : List Table → List Env
  | [] => [[]]
  | t :: ts => t.records.flatMap fun row => (environments ts).map (t.cells row ++ ·)

/-! ### Formulas -/

/-- What a condition list says of an environment. -/
inductive Formula where
  | always
  | compare (left : Operand) (op : Operator) (right : Operand)
  | and (left right : Formula)
  | or (left right : Formula)
deriving DecidableEq, Repr

/-- The value of an operand. -/
def Operand.value? (env : Env) : Operand → Option Value
  | constant v => some v
  | column r => env.value? r

/-- The column that an operand refers to. -/
def Operand.references : Operand → List ColumnRef
  | constant _ => []
  | column r => [r]

namespace Formula

/-- The truth of a formula. -/
def holds (env : Env) : Formula → Bool
  | always => true
  | compare left op right =>
    match left.value? env, right.value? env with
    | some a, some b => op.holds a b
    | _, _ => false
  | and f g => f.holds env && g.holds env
  | or f g => f.holds env || g.holds env

/-- The references in a formula. -/
def references : Formula → List ColumnRef
  | always => []
  | compare left _ right => left.references ++ right.references
  | and f g | or f g => f.references ++ g.references

/-- Whether the formula has no connective. -/
def IsPlain : Formula → Prop
  | always | compare .. => True
  | and .. | or .. => False

/-- Reads one element of a condition list beside the formulas read so far, the latest first. -/
def push (fs : List Formula) (c : Condition) : Option (List Formula) :=
  match c, fs with
  | .compare left op right, fs => some (compare left op right :: fs)
  | .and, g :: f :: fs => some (and f g :: fs)
  | .or, g :: f :: fs => some (or f g :: fs)
  | _, _ => none

/-- The formula that a condition list stands for; one without elements is always true. -/
def ofPostfix? (conditions : List Condition) : Option Formula :=
  match conditions.foldlM push [] with
  | some [] => some always
  | some [f] => some f
  | _ => none

end Formula

/-! ### Selections -/

/-- The tables that a selection reads, each under its visible name. -/
def Database.visibleTables (db : Database) (entries : List FromEntry) : Except Error (List Table) :=
  entries.mapM fun e => return (← db.table e.name).aliased e.visibleName

/-- The column that a target refers to. -/
def Target.references : Target → List ColumnRef
  | .all => []
  | .column r => [r]

/-- The columns of a target, given all columns in order. -/
def Target.labels (all : List Label) : Target → List Label
  | .all => all
  | .column r => all.filter (·.isNamed r)

/-- The columns of the targets; all columns if there is no target. -/
def chosen (all : List Label) (targets : List Target) : List Label :=
  (if targets.isEmpty then [.all] else targets).flatMap (·.labels all)

/-- The values of the wanted columns in each environment in which the formula holds. -/
def meaning (tables : List Table) (f : Formula) (wanted : List Label) : List (Option Row) :=
  ((environments tables).filter f.holds).map (·.project wanted)

end RelStore
