import RelStore.Database.Config
import RelStore.Table.Basic

/-!
# Databases

A database holds tables in the order of their creation and remembers the names of those dropped
since it was last saved.  `Database.create` chooses the kind of a table by its index declarations
unless the kind is given.  `Database.insert` stores a row that the schema and the table accept.

The map from names to tables and the order in which the names are listed and saved are one list:
`Database.table` looks a name up in it and `Database.names` reads the order off it, so that both
have the same names.  A change of a table (`Database.replace`) reaches every place of its name, so
that a name that is listed twice, as a manifest may do, stands for one table.
-/

namespace RelStore

/-- A set of named tables. -/
structure Database where
  config : Config
  /-- The tables in the order of their creation. -/
  tables : List Table
  /-- The tables dropped since the database was saved, in the order in which they were dropped. -/
  dropped : List String
deriving Inhabited

namespace Database

/-- A database without tables. -/
def empty (config : Config) : Database where
  config
  tables := []
  dropped := []

/-- A database that cannot be saved. -/
def inMemory : Database :=
  empty {}

/-- The names of the tables. -/
def names (db : Database) : List String :=
  db.tables.map (·.name)

/-- The table with a name. -/
def table (db : Database) (name : String) : Except Error Table :=
  match db.tables.find? (·.name == name) with
  | some t => .ok t
  | none => .error (.tableNotFound name)

/-- Puts a table in the place of the one with its name. -/
def replace (db : Database) (t : Table) : Database :=
  { db with tables := db.tables.map fun u => if u.name = t.name then t else u }

/-! ### Creating and dropping -/

/-- The declarations of a new table: those that count, or else the default index on the primary
key. -/
def declared (config : Config) (s : Schema) (declarations : List Declaration) :
    List Declaration :=
  match Declaration.effective declarations, s.primaryKey with
  | [], some key =>
    if config.defaultIndex = .none then [] else [⟨key, config.defaultIndex⟩]
  | ds, _ => ds

/-- The kind of a table with the given declarations. -/
def kindOf : List Declaration → TableKind
  | [] => .set
  | [d] => if d.index = .hash then .hash else .tree
  | _ => .multi

/-- A new table.  The index of a table with one index is on the first declared column. -/
def build (config : Config) (s : Schema) (declarations : List Declaration)
    (kind : Option TableKind) : Except Error Table :=
  let ds := declared config s declarations
  Table.empty (kind.getD (kindOf ds)) s.table s (ds.head?.map (·.column)) ds config.shape

/-- Creates a table and gives its kind. -/
def create (db : Database) (s : Schema) (declarations : List Declaration)
    (kind : Option TableKind) : Except Error (TableKind × Database) := do
  s.check
  if s.table ∈ db.names then
    throw (.tableAlreadyExists s.table)
  if let some d := Declaration.outOfRange? s.width declarations then
    throw (.columnOutOfBounds d.column)
  let t ← build db.config s declarations kind
  return (t.kind, { db with
    tables := db.tables ++ [t]
    dropped := db.dropped.filter (· ≠ s.table) })

/-- Drops a table. -/
def drop (db : Database) (name : String) : Except Error Database := do
  if name ∉ db.names then
    throw (.tableNotFound name)
  return { db with
    tables := db.tables.filter (·.name ≠ name)
    dropped := db.dropped.filter (· ≠ name) ++ [name] }

/-! ### Insertion -/

/-- Inserts a row if the table finds nothing against it. -/
def insert (db : Database) (name : String) (row : Row) : Except Error (Verdict × Database) := do
  let t ← db.table name
  row.check t.schema
  match t.check row with
  | .success =>
    let (stored, t) := t.insert row
    unless stored do
      throw (.internal (.refusedRow name))
    return (.success, db.replace t)
  | verdict => return (verdict, db)

end Database

end RelStore
