import RelStore.Value

/-!
# Comparison operators

`Operator.holds` is the truth of a comparison.  Two absent values are equal.  Where one side is
absent or the kinds differ, the sides do not compare, and then only `≠` holds, which is always the
negation of `=`.
-/

namespace RelStore

/-- A comparison operator. -/
inductive Operator where
  | eq
  | ne
  | gt
  | ge
  | lt
  | le
deriving DecidableEq, Inhabited, Repr

namespace Operator

/-- The operator with its sides exchanged. -/
def flip : Operator → Operator
  | eq => eq
  | ne => ne
  | gt => lt
  | ge => le
  | lt => gt
  | le => ge

/-- Whether the operator allows the outcome of a comparison; `none` is the outcome of sides that
do not compare. -/
def allows : Operator → Option Ordering → Bool
  | eq, o => o == some .eq
  | ne, o => o != some .eq
  | gt, o => o == some .gt
  | ge, o => o == some .gt || o == some .eq
  | lt, o => o == some .lt
  | le, o => o == some .lt || o == some .eq

/-- The truth of a comparison of two values. -/
def holds (op : Operator) (a b : Value) : Bool :=
  op.allows (a.compare? b).toOption

/-- The operator as it is shown. -/
protected def toString : Operator → String
  | eq => "="
  | ne => "!="
  | gt => ">"
  | ge => ">="
  | lt => "<"
  | le => "<="

instance : ToString Operator where
  toString := Operator.toString

/-- Reads an operator. -/
def parse : String → Except Error Operator
  | "=" | "==" => .ok eq
  | "!=" | "<>" => .ok ne
  | ">" => .ok gt
  | ">=" => .ok ge
  | "<" => .ok lt
  | "<=" => .ok le
  | s => .error (.invalidArgument (.unknownOperator s))

/-- The position of the operator among the operators. -/
def code : Operator → Nat
  | eq => 0
  | ne => 1
  | gt => 2
  | ge => 3
  | lt => 4
  | le => 5

end Operator

end RelStore
