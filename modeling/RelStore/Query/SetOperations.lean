import Std.Data.HashSet
import RelStore.Query.Join
import RelStore.Query.Scope

/-!
# Unions and intersections

Two results of one scope may come from different tables.  `Scope.align` extends each by the tables
that only the other comes from, so that both have the same columns, if in another order;
`columnMapping` brings the columns of the right in the order of the left.  `Scope.union` and
`Scope.intersect` then are those of the sets of rows, in the order of the operands and without
repetition: `Row.mem_distinct` and `Row.nodup_distinct` say so of the list that is left.
-/

namespace RelStore

/-! ### Columns in another order -/

/-- For each column of `onto` the position of the column of `source` with its qualified name. -/
def columnMapping (onto source : Schema) : Except Error (List Nat) :=
  onto.qualifiedNames.mapM fun name =>
    match source.position? name with
    | some position => .ok position
    | none => .error (.columnNotFound name)

/-- Whether a mapping leaves every column in its place. -/
def isIdentity (mapping : List Nat) : Bool :=
  mapping == List.range mapping.length

/-- A row in the order of a mapping. -/
def Row.project (mapping : List Nat) (row : Row) : Except Error Row :=
  if isIdentity mapping && row.length == mapping.length then .ok row else row.select mapping

/-- The rows without repetition, in the order of their first occurrences. -/
def Row.distinct (rows : List Row) : List Row :=
  go ∅ rows
where
  /-- Skips the rows seen so far. -/
  go (seen : Std.HashSet Row) : List Row → List Row
    | [] => []
    | row :: rows =>
      if seen.contains row then go seen rows else row :: go (seen.insert row) rows

/-- A row is kept if it was not seen before. -/
theorem Row.mem_distinct_go {seen : Std.HashSet Row} {rows : List Row} {row : Row} :
    row ∈ Row.distinct.go seen rows ↔ row ∈ rows ∧ row ∉ seen := by
  induction rows generalizing seen with
  | nil => simp [Row.distinct.go]
  | cons first rows ih =>
    by_cases h : first ∈ seen <;> simp only [Row.distinct.go, Std.HashSet.contains_iff_mem, h] <;>
      grind

/-- A row that was kept is skipped from then on. -/
theorem Row.nodup_distinct_go (seen : Std.HashSet Row) (rows : List Row) :
    (Row.distinct.go seen rows).Nodup := by
  induction rows generalizing seen with
  | nil => simp [Row.distinct.go]
  | cons first rows ih =>
    by_cases h : first ∈ seen
    · simpa [Row.distinct.go, h] using ih seen
    · simpa [Row.distinct.go, h, Row.mem_distinct_go] using ih (seen.insert first)

/-- No row is lost and none is added. -/
@[simp]
theorem Row.mem_distinct {rows : List Row} {row : Row} : row ∈ Row.distinct rows ↔ row ∈ rows := by
  simp [Row.distinct, Row.mem_distinct_go]

/-- No row is left twice. -/
theorem Row.nodup_distinct (rows : List Row) : (Row.distinct rows).Nodup :=
  Row.nodup_distinct_go ∅ rows

namespace Scope

/-- The products of a relation with tables of the scope, one after the other. -/
def extend (s : Scope) (r : Relation) (names : List String) : Except Error Relation :=
  names.foldlM (fun r name => return r.product (← s.table name)) r

/-- Two results, each extended by the tables that only the other comes from. -/
def align (s : Scope) (l r : Relation) : Except Error (Relation × Relation) := do
  let left ← s.extend l (r.sources.diff l.sources)
  let right ← s.extend r (l.sources.diff r.sources)
  return (left, right)

/-- Two results after alignment, and the rows of the right one in the order of the left columns. -/
def alignRows (s : Scope) (l r : Relation) : Except Error (Relation × Sources × List Row) := do
  let (left, right) ← s.align l r
  let mapping ← columnMapping left.schema right.schema
  let rows ← right.rows.mapM (Row.project mapping)
  return (left, left.sources.union right.sources, rows)

/-- The rows in either result. -/
def union (s : Scope) (l r : Relation) : Except Error Relation := do
  let (left, sources, rows) ← s.alignRows l r
  return { left with sources, rows := Row.distinct (left.rows ++ rows) }

/-- The rows in both results. -/
def intersect (s : Scope) (l r : Relation) : Except Error Relation := do
  let (left, sources, rows) ← s.alignRows l r
  let members := Std.HashSet.ofList rows
  return { left with sources, rows := Row.distinct (left.rows.filter members.contains) }

/-- The rows in any of the results. -/
def unionAll (s : Scope) : List Relation → Except Error Relation
  | [] => .error (.invalidArgument .emptyUnion)
  | r :: rs => rs.foldlM s.union r

/-- The rows in all of the results. -/
def intersectAll (s : Scope) : List Relation → Except Error Relation
  | [] => .error (.invalidArgument .emptyIntersection)
  | r :: rs => rs.foldlM s.intersect r

end Scope

end RelStore
