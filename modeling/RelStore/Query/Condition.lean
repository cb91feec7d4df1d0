import RelStore.Operator

/-!
# Conditions

A condition list is a formula in postfix order: a comparison of two operands stands for itself,
and a connective for its two predecessors.  An operand is a constant or a reference to a column,
with or without the name of a table.
-/

namespace RelStore

/-- A reference to a column, with the name of its table or without. -/
structure ColumnRef where
  table : Option String
  name : String
deriving DecidableEq, Inhabited, Repr

/-- The reference as it is written. -/
protected def ColumnRef.toString (r : ColumnRef) : String :=
  match r.table with
  | some table => s!"{table}.{r.name}"
  | none => r.name

instance : ToString ColumnRef where
  toString := ColumnRef.toString

/-- A side of a comparison. -/
inductive Operand where
  | constant (value : Value)
  | column (reference : ColumnRef)
deriving DecidableEq, Repr

namespace Operand

/-- Whether the operand is a reference to a column. -/
def isColumn : Operand → Bool
  | constant _ => false
  | column _ => true

/-- The operand as it is written; a constant text stands between single quotes. -/
protected def toString : Operand → String
  | constant (.text s) => s!"'{s}'"
  | constant v => toString v
  | column r => toString r

instance : ToString Operand where
  toString := Operand.toString

end Operand

/-- Which sides of a comparison are columns. -/
inductive ComparisonForm where
  | constants
  | constantColumn
  | columnConstant
  | columns
deriving DecidableEq, Repr

/-- An element of a condition list. -/
inductive Condition where
  | compare (left : Operand) (op : Operator) (right : Operand)
  /-- The intersection of the two results before it. -/
  | and
  /-- The union of the two results before it. -/
  | or
deriving DecidableEq, Repr

namespace Condition

/-- Whether the element joins the two before it. -/
def isConnective : Condition → Bool
  | compare .. => false
  | and => true
  | or => true

/-- The form of a comparison. -/
def form? : Condition → Option ComparisonForm
  | compare left _ right =>
    match left.isColumn, right.isColumn with
    | false, false => some .constants
    | false, true => some .constantColumn
    | true, false => some .columnConstant
    | true, true => some .columns
  | _ => none

/-- The element as it is written. -/
protected def toString : Condition → String
  | compare left op right => s!"{left} {op} {right}"
  | and => "AND"
  | or => "OR"

instance : ToString Condition where
  toString := Condition.toString

end Condition

end RelStore
