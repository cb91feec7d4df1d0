import RelStore.Query.SetOperations

/-!
# Evaluation

`Scope.query` is the result of one comparison: the rows of a table that satisfy it, or pairs of rows
of two tables.  `Scope.evaluate` runs a condition list on a stack of results and completes the
last one: the result comes from every table of the scope.  Without a condition it has all rows.
-/

namespace RelStore.Scope

/-! ### One comparison -/

/-- The name and type of a column, as a complaint shows it. -/
def describe (t : Table) (c : Column) : String :=
  s!"{t.name}.{c.name} ({c.type})"

/-- A comparison of two constants: all rows of the first table, or none. -/
def compareConstants (s : Scope) (a : Value) (op : Operator) (b : Value) :
    Except Error Relation := do
  if let (some x, some y) := (a.dataType?, b.dataType?) then
    if x.isInt ≠ y.isInt then
      throw (.typeMismatch a.kindName b.kindName)
  let t ← s.firstTable
  return t.result (if op.holds a b then t.records else [])

/-- A comparison of a column with a constant. -/
def compareColumn (s : Scope) (r : ColumnRef) (op : Operator) (v : Value) :
    Except Error Relation := do
  let ⟨t, column⟩ ← s.resolve r
  match t.schema.columns[column]? with
  | none => throw (.columnOutOfBounds column)
  | some c =>
    unless c.type.accepts v do
      throw (.typeMismatch (describe t c) v.kindName)
    return t.query column op v

/-- A comparison of two columns, of one table or of two. -/
def compareColumns (s : Scope) (l : ColumnRef) (op : Operator) (r : ColumnRef) :
    Except Error Relation := do
  let ⟨lt, lc⟩ ← s.resolve l
  let ⟨rt, rc⟩ ← s.resolve r
  match lt.schema.columns[lc]?, rt.schema.columns[rc]? with
  | some a, some b =>
    if a.type.isInt ≠ b.type.isInt then
      throw (.typeMismatch (describe lt a) (describe rt b))
    return if lt.name = rt.name then lt.scanColumns lc op rc else lt.join rt (some ⟨lc, op, rc⟩)
  | _, _ => throw (.internal .columnOutOfRange)

/-- The result of a comparison. -/
def query (s : Scope) : Condition → Except Error Relation
  | .compare (.constant a) op (.constant b) => s.compareConstants a op b
  | .compare (.column r) op (.constant v) => s.compareColumn r op v
  | .compare (.constant v) op (.column r) => s.compareColumn r op.flip v
  | .compare (.column l) op (.column r) => s.compareColumns l op r
  | c => .error (.malformedCondition (.notComparison (toString c)))

/-! ### Condition lists -/

/-- Runs one element of a condition list on the results so far, the latest first. -/
def step (s : Scope) (stack : List Relation) (c : Condition) : Except Error (List Relation) := do
  match c, stack with
  | .compare .., _ => return (← s.query c) :: stack
  | .and, right :: left :: rest => return (← s.intersect left right) :: rest
  | .or, right :: left :: rest => return (← s.union left right) :: rest
  | _, _ => throw (.malformedCondition (.missingOperand (toString c)))

/-- The only result that is left; all rows of the first table if there is none. -/
def onlyResult (s : Scope) : List Relation → Except Error Relation
  | [] => do
    let t ← s.firstTable
    return t.result t.records
  | [r] => .ok r
  | stack => .error (.malformedCondition (.leftover stack.length))

/-- The product of a result with the tables of the scope that it does not come from. -/
def complete (s : Scope) (r : Relation) : Relation :=
  s.tables.foldl (fun r t => if t.name ∈ r.sources then r else r.product t) r

/-- The result of a condition list. -/
def evaluate (s : Scope) (conditions : List Condition) : Except Error Relation := do
  let stack ← conditions.foldlM s.step []
  return s.complete (← s.onlyResult stack)

end RelStore.Scope
