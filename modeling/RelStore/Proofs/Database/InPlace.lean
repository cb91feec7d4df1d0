import RelStore.Proofs.Database.Proper

/-!
# Requests in place

`Database.execute` gives a database only if it succeeds.  The programs of this file run on a state
that they change step by step, and what was changed before a failure stays changed: a table takes
the row before the insertion is found to have been refused, and it is taken out before the name is
found to be missing.

On a proper database both come to the same (`Database.run_executeInPlace`,
`Database.run_handleInPlace`): where a program fails, it has not changed anything yet, or not to any
effect.
-/

namespace RelStore.Database

/-- Programs that change a database and may fail on the way. -/
abbrev Program := ExceptT Error (StateM Database)

/-- Creates a table and gives its kind. -/
def createInPlace (s : Schema) (declarations : List Declaration) (kind : Option TableKind) :
    Program TableKind := do
  let db ← get
  s.check
  if s.table ∈ db.names then
    throw (.tableAlreadyExists s.table)
  if let some d := Declaration.outOfRange? s.width declarations then
    throw (.columnOutOfBounds d.column)
  let t ← build db.config s declarations kind
  modify fun db => { db with dropped := db.dropped.filter (· ≠ s.table) }
  modify fun db => { db with tables := db.tables ++ [t] }
  return t.kind

/-- Takes a table out, if it is there. -/
def dropInPlace (name : String) : Program Unit := do
  let db ← get
  modify fun db => { db with tables := db.tables.filter (·.name ≠ name) }
  if name ∉ db.names then
    throw (.tableNotFound name)
  modify fun db => { db with dropped := db.dropped.filter (· ≠ name) ++ [name] }

/-- Inserts a row if the table finds nothing against it. -/
def insertInPlace (name : String) (row : Row) : Program Verdict := do
  let t ← (← get).table name
  row.check t.schema
  match t.check row with
  | .success =>
    let (stored, t) := t.insert row
    modify (·.replace t)
    unless stored do
      throw (.internal (.refusedRow name))
    return .success
  | verdict => return verdict

/-- Runs a statement. -/
def executeInPlace : Statement → Program Outcome
  | .createTable tables names types primaryKey declarations => do
    if names.length ≠ types.length then
      throw (.invalidArgument .columnListsDiffer)
    let columns := List.zipWith Column.mk names types
    let table ← (Statement.createTable tables names types primaryKey declarations).target
    let _ ← createInPlace { table, columns, primaryKey } declarations none
    return .done
  | .dropTable tables => do
    dropInPlace (← (Statement.dropTable tables).target)
    return .done
  | .insert tables row => do
    return .inserted (← insertInPlace (← (Statement.insert tables row).target) row)
  | .select tables conditions targets => do
    return .rows (← (← get).select tables conditions targets)

/-- Does what is requested. -/
def handleInPlace : Request → Program Answer
  | .create s declarations kind => do
    return .created (← createInPlace s declarations kind)
  | .drop name => do
    dropInPlace name
    return .outcome .done
  | .insert name row => do
    return .outcome (.inserted (← insertInPlace name row))
  | .select entries conditions targets => do
    return .outcome (.rows (← (← get).select entries conditions targets))
  | .execute statement => do
    return .outcome (← executeInPlace statement)

variable {α β : Type} {db : Database}

/-! ### Single actions -/

theorem run_createInPlace (db : Database) (s : Schema) (declarations : List Declaration)
    (kind : Option TableKind) :
    (createInPlace s declarations kind).run db = db.settle (db.create s declarations kind) := by
  unfold createInPlace create
  rw [run_bind_of_eq (run_get db)]
  cases s.check with
  | error e => rfl
  | ok u =>
    by_cases hname : s.table ∈ db.names
    · rw [if_pos hname, if_pos hname]
      rfl
    · rw [if_neg hname, if_neg hname]
      cases Declaration.outOfRange? s.width declarations with
      | some d => rfl
      | none =>
        cases hbuild : build db.config s declarations kind with
        | error e => rfl
        | ok t => rfl

/-- Nothing is taken out if there is no table with the name. -/
theorem run_dropInPlace (db : Database) (name : String) :
    (dropInPlace name).run db = db.settle (Prod.mk () <$> db.drop name) := by
  unfold dropInPlace drop
  rw [run_bind_of_eq (run_get db)]
  by_cases hname : name ∈ db.names
  · rw [if_neg (not_not.2 hname), if_neg (not_not.2 hname)]
    rfl
  · have hsame : db.tables.filter (·.name ≠ name) = db.tables := by
      rw [List.filter_eq_self]
      intro t ht
      have hne : t.name ≠ name := by
        rintro rfl
        exact hname (List.mem_map_of_mem ht)
      exact decide_eq_true hne
    rw [if_pos hname, if_pos hname]
    have hrun : (modify fun db : Database =>
        { db with tables := db.tables.filter (·.name ≠ name) } : Program PUnit).run db =
          (.ok ⟨⟩, db) := by
      change (Except.ok PUnit.unit, { db with tables := db.tables.filter (·.name ≠ name) }) = _
      rw [hsame]
    rw [run_bind_of_eq hrun]
    rfl

/-- A table of a proper database does not refuse a row. -/
theorem run_insertInPlace (h : db.Proper) (name : String) (row : Row) :
    (insertInPlace name row).run db = db.settle (db.insert name row) := by
  unfold insertInPlace insert
  rw [run_bind_of_eq (run_get db)]
  cases htable : db.table name with
  | error e => rfl
  | ok t =>
    have ht := h.table t (mem_of_table_eq_ok htable).1
    have hstored : t.insert row = (true, (t.insert row).2) :=
      Prod.ext (Table.insert_stores ht.isAlias_eq row).1 rfl
    rw [run_bind_of_eq (run_liftM (.ok t) db)]
    change _ = db.settle (row.check t.schema >>= _)
    cases row.check t.schema with
    | error e => rfl
    | ok u =>
      rw [run_bind_of_eq (run_liftM (.ok u) db)]
      change _ = db.settle (match t.check row with | .success => _ | _ => _)
      cases t.check row with
      | success =>
        rw [hstored]
        rfl
      | _ => rfl

/-! ### Statements and requests -/

theorem run_return {m : Program α} {e : Except Error (α × Database)} (h : m.run db = db.settle e)
    (f : α → β) :
    (m >>= fun a => pure (f a)).run db = db.settle (e >>= fun r => pure (f r.1, r.2)) := by
  rw [run_bind, h]
  cases e <;> rfl

/-- A statement that runs in place gives the outcome of `Database.execute` and leaves its database,
or fails as it does and leaves the database that was there. -/
theorem run_executeInPlace (h : db.Proper) (statement : Statement) :
    (executeInPlace statement).run db = db.settle (db.execute statement) := by
  cases statement with
  | createTable tables names types primaryKey declarations =>
    unfold executeInPlace execute
    dsimp only
    by_cases hlength : names.length ≠ types.length
    · rw [if_pos hlength, if_pos hlength]
      rfl
    · rw [if_neg hlength, if_neg hlength]
      cases (Statement.createTable tables names types primaryKey declarations).target with
      | error e => rfl
      | ok name =>
        rw [run_bind_of_eq (run_liftM (.ok name) db)]
        exact run_return (run_createInPlace db _ declarations none) fun _ => Outcome.done
  | dropTable tables =>
    unfold executeInPlace execute
    dsimp only
    cases (Statement.dropTable tables).target with
    | error e => rfl
    | ok name =>
      rw [run_bind_of_eq (run_liftM (.ok name) db)]
      refine (run_return (run_dropInPlace db name) fun _ => Outcome.done).trans ?_
      change _ = db.settle (db.drop name >>= _)
      cases db.drop name <;> rfl
  | insert tables row =>
    unfold executeInPlace execute
    dsimp only
    cases (Statement.insert tables row).target with
    | error e => rfl
    | ok name =>
      rw [run_bind_of_eq (run_liftM (.ok name) db)]
      exact run_return (run_insertInPlace h name row) Outcome.inserted
  | select tables conditions targets =>
    unfold executeInPlace execute
    dsimp only
    rw [run_bind_of_eq (run_get db)]
    cases db.select tables conditions targets <;> rfl

/-- A request that runs in place gives the answer of `Database.handle` and leaves its database. -/
theorem run_handleInPlace (h : db.Proper) (r : Request) :
    (handleInPlace r).run db = db.handle r := by
  cases r with
  | create s declarations kind =>
    exact run_return (run_createInPlace db s declarations kind) Answer.created
  | drop name =>
    refine (run_return (run_dropInPlace db name) fun _ => Answer.outcome .done).trans ?_
    change _ = db.settle (db.drop name >>= _)
    cases db.drop name <;> rfl
  | insert name row =>
    exact run_return (run_insertInPlace h name row) fun verdict =>
      Answer.outcome (.inserted verdict)
  | select entries conditions targets =>
    change ((get : Program Database) >>= _).run db =
      db.settle (db.select entries conditions targets >>= _)
    rw [run_bind_of_eq (run_get db)]
    cases db.select entries conditions targets <;> rfl
  | execute statement => exact run_return (run_executeInPlace h statement) Answer.outcome

end RelStore.Database
