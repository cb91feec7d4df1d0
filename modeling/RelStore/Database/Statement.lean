import RelStore.Database.Select

/-!
# Statements

A statement is one action on a database as data.  `Database.execute` runs it and gives its outcome
together with the database afterwards.  Statements other than selections act on the first of their
tables.
-/

namespace RelStore

/-- An action on a database. -/
inductive Statement where
  | createTable (tables : List FromEntry) (names : List String) (types : List DataType)
      (primaryKey : Option Nat) (declarations : List Declaration)
  | dropTable (tables : List FromEntry)
  | insert (tables : List FromEntry) (row : Row)
  | select (tables : List FromEntry) (conditions : List Condition) (targets : List Target)
deriving Repr

/-- What a statement gives. -/
inductive Outcome where
  | done
  | inserted (verdict : Verdict)
  | rows (selection : Selection)
deriving DecidableEq, Repr

namespace Statement

/-- The name of the action. -/
def action : Statement → String
  | createTable .. => "CreateTable"
  | dropTable _ => "DropTable"
  | insert .. => "Insert"
  | select .. => "Select"

/-- The tables that a statement names. -/
def tables : Statement → List FromEntry
  | createTable tables .. => tables
  | dropTable tables => tables
  | insert tables _ => tables
  | select tables .. => tables

/-- The table that a statement acts on. -/
def target (s : Statement) : Except Error String :=
  match s.tables with
  | e :: _ => .ok e.name
  | [] => .error (.invalidArgument (.noTarget s.action))

end Statement

/-- Runs a statement. -/
def Database.execute (db : Database) (s : Statement) : Except Error (Outcome × Database) := do
  match s with
  | .createTable _ names types primaryKey declarations =>
    if names.length ≠ types.length then
      throw (.invalidArgument .columnListsDiffer)
    let columns := List.zipWith Column.mk names types
    let (_, db) ← db.create { table := ← s.target, columns, primaryKey } declarations none
    return (.done, db)
  | .dropTable _ => return (.done, ← db.drop (← s.target))
  | .insert _ row =>
    let (verdict, db) ← db.insert (← s.target) row
    return (.inserted verdict, db)
  | .select tables conditions targets =>
    return (.rows (← db.select tables conditions targets), db)

end RelStore
