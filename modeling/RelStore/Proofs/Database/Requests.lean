import RelStore.Database.Statement
import RelStore.Proofs.Database.Reachable

/-!
# Requests to a database

`Request` lists what a database can be asked to do, and `Database.handle` does it: it gives the
answer and the database afterwards, which is the database before if the request fails.  Statements
are among the requests; what a statement does to the database, a request of another kind does as
well.

`Database.Step p db db'` says all that a request can do: it creates a table with a schema that
satisfies `p`, inserts a row, drops a table, or changes nothing (`Database.step_handle`).  So a
property that these three keep holds after every sequence of requests, if it holds at the start.
-/

namespace RelStore

/-- A request to a database. -/
inductive Request where
  | create (s : Schema) (declarations : List Declaration) (kind : Option TableKind)
  | drop (name : String)
  | insert (name : String) (row : Row)
  | select (entries : List FromEntry) (conditions : List Condition) (targets : List Target)
  | execute (statement : Statement)

/-- What a request gives. -/
inductive Answer where
  | created (kind : TableKind)
  | outcome (outcome : Outcome)
deriving DecidableEq, Repr

/-- The schema of the table that a statement creates. -/
def Statement.schema? : Statement → Option Schema
  | .createTable (e :: _) names types primaryKey _ =>
    some { table := e.name, columns := List.zipWith Column.mk names types, primaryKey }
  | _ => none

/-- The schema of the table that a request creates. -/
def Request.schema? : Request → Option Schema
  | create s _ _ => some s
  | execute statement => statement.schema?
  | _ => none

namespace Database

/-- The outcome of an action, and the database after it; an action that fails changes nothing. -/
def settle {α : Type} (db : Database) : Except Error (α × Database) → Except Error α × Database
  | .ok (a, db') => (.ok a, db')
  | .error e => (.error e, db)

/-- The answer to a request, and the database after it. -/
def handle (db : Database) : Request → Except Error Answer × Database
  | .create s declarations kind => db.settle do
    let (kind, db) ← db.create s declarations kind
    return (.created kind, db)
  | .drop name => db.settle do
    return (.outcome .done, ← db.drop name)
  | .insert name row => db.settle do
    let (verdict, db) ← db.insert name row
    return (.outcome (.inserted verdict), db)
  | .select entries conditions targets => db.settle do
    return (.outcome (.rows (← db.select entries conditions targets)), db)
  | .execute statement => db.settle do
    let (outcome, db) ← db.execute statement
    return (.outcome outcome, db)

/-! ### Steps -/

variable {p : Schema → Prop} {db db' : Database}

/-- One action on a database, if tables are created with schemas that satisfy `p`, or none. -/
inductive Step (p : Schema → Prop) (db : Database) : Database → Prop
  | none : Step p db db
  | create {db' : Database} {s : Schema} {declarations : List Declaration}
      {kind : Option TableKind} {chosen : TableKind} (hs : p s)
      (h : db.create s declarations kind = .ok (chosen, db')) : Step p db db'
  | insert {db' : Database} {name : String} {row : Row} {verdict : Verdict}
      (h : db.insert name row = .ok (verdict, db')) : Step p db db'
  | drop {db' : Database} {name : String} (h : db.drop name = .ok db') : Step p db db'

theorem settle_cases {α : Type} {motive : Database → Prop} {e : Except Error (α × Database)}
    (same : motive db) (changed : ∀ a db', e = .ok (a, db') → motive db') :
    motive (db.settle e).2 := by
  cases e with
  | error e => exact same
  | ok r => exact changed r.1 r.2 rfl

/-- A statement does one action. -/
theorem step_execute {statement : Statement} {outcome : Outcome}
    (hp : ∀ s ∈ statement.schema?, p s) (h : db.execute statement = .ok (outcome, db')) :
    Step p db db' := by
  cases statement with
  | createTable tables names types primaryKey declarations =>
    simp only [execute] at h
    split at h
    · contradiction
    · obtain ⟨name, hname, h⟩ := bind_eq_ok_iff.1 h
      obtain ⟨⟨chosen, db''⟩, hcreate, h⟩ := bind_eq_ok_iff.1 h
      cases h
      cases tables with
      | nil => contradiction
      | cons e tables =>
        cases hname
        exact .create (hp _ rfl) hcreate
  | dropTable tables =>
    obtain ⟨name, -, h⟩ := bind_eq_ok_iff.1 h
    obtain ⟨db'', hdrop, h⟩ := bind_eq_ok_iff.1 h
    cases h
    exact .drop hdrop
  | insert tables row =>
    obtain ⟨name, -, h⟩ := bind_eq_ok_iff.1 h
    obtain ⟨⟨verdict, db''⟩, hinsert, h⟩ := bind_eq_ok_iff.1 h
    cases h
    exact .insert hinsert
  | select tables conditions targets =>
    obtain ⟨selection, -, h⟩ := bind_eq_ok_iff.1 h
    cases h
    exact .none

/-- A request does one action. -/
theorem step_handle {r : Request} (hp : ∀ s ∈ r.schema?, p s) : Step p db (db.handle r).2 := by
  cases r with
  | create s declarations kind =>
    refine settle_cases .none fun a db' h => ?_
    obtain ⟨⟨chosen, db''⟩, hcreate, h⟩ := bind_eq_ok_iff.1 h
    cases h
    exact .create (hp s rfl) hcreate
  | drop name =>
    refine settle_cases .none fun a db' h => ?_
    obtain ⟨db'', hdrop, h⟩ := bind_eq_ok_iff.1 h
    cases h
    exact .drop hdrop
  | insert name row =>
    refine settle_cases .none fun a db' h => ?_
    obtain ⟨⟨verdict, db''⟩, hinsert, h⟩ := bind_eq_ok_iff.1 h
    cases h
    exact .insert hinsert
  | select entries conditions targets =>
    refine settle_cases .none fun a db' h => ?_
    obtain ⟨selection, -, h⟩ := bind_eq_ok_iff.1 h
    cases h
    exact .none
  | execute statement =>
    refine settle_cases .none fun a db' h => ?_
    obtain ⟨⟨outcome, db''⟩, hexecute, h⟩ := bind_eq_ok_iff.1 h
    cases h
    exact step_execute hp hexecute

end Database

end RelStore
