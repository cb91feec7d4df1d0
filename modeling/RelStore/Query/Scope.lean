import RelStore.Query.Condition
import RelStore.Table.Basic

/-!
# Scopes

A scope holds the tables that a query reads, in order and under distinct names.  `Scope.resolve`
finds the table and the column that a reference means: with the name of a table in that table, and
without one in the only table that has the column.
-/

namespace RelStore

/-- The tables that a query reads. -/
structure Scope where
  tables : List Table
  nodup_names : (tables.map (·.name)).Nodup

namespace Scope

/-- The scope without tables. -/
def empty : Scope where
  tables := []
  nodup_names := .nil

instance : Inhabited Scope where
  default := empty

/-- The names of the tables. -/
def names (s : Scope) : List String :=
  s.tables.map (·.name)

/-- Adds a table, whose name must be new. -/
def add (s : Scope) (t : Table) : Except Error Scope :=
  if h : t.name ∈ s.names then .error (.invalidArgument (.repeatedTable t.name))
  else .ok {
    tables := s.tables ++ [t]
    nodup_names := by
      rw [List.map_append, List.nodup_append]
      refine ⟨s.nodup_names, by simp, fun a ha b hb => ?_⟩
      rintro rfl
      simp only [List.map_cons, List.map_nil, List.mem_singleton] at hb
      exact h (hb ▸ ha) }

/-- The table with a name. -/
def table (s : Scope) (name : String) : Except Error Table :=
  match s.tables.find? (·.name == name) with
  | some t => .ok t
  | none => .error (.tableNotFound name)

/-- The table that a query reads first. -/
def firstTable (s : Scope) : Except Error Table :=
  match s.tables with
  | t :: _ => .ok t
  | [] => .error (.invalidArgument .noTableRead)

/-- The names of the tables on one line. -/
def summary (s : Scope) : String :=
  "[" ++ ", ".intercalate (s.names.map Text.quoted) ++ "]"

/-! ### References -/

/-- A column of a table. -/
structure Place where
  table : Table
  column : Nat
deriving Inhabited

/-- Looks for a column in one more table; there may be only one table that has it. -/
def searchIn (name : String) (found : Option Place) (t : Table) : Except Error (Option Place) :=
  match t.schema.resolve none name with
  | .ok column =>
    if found.isSome then .error (.ambiguousColumn name) else .ok (some ⟨t, column⟩)
  | .error (.columnNotFound _) => .ok found
  | .error e => .error e

/-- The only column with a name. -/
def search (s : Scope) (name : String) : Except Error Place := do
  match ← s.tables.foldlM (searchIn name) none with
  | some place => return place
  | none => throw (.columnNotFound name)

/-- Splits a reference without a table at its first point, if it has one. -/
def splitReference (r : ColumnRef) : ColumnRef :=
  match r.table, Text.cutFirst? '.' r.name with
  | none, some (table, name) => ⟨some table, name⟩
  | _, _ => r

/-- The column that a reference means. -/
def resolve (s : Scope) (reference : ColumnRef) : Except Error Place := do
  let r := splitReference reference
  match r.table with
  | some name =>
    let t ← s.table name
    return ⟨t, ← t.schema.resolve (some name) r.name⟩
  | none => s.search r.name

end Scope

end RelStore
