import RelStore.Error

/-!
# Values

A value is absent, a 64-bit integer or a text.  `Value.compare?` is the comparison of predicates:
it fails when one side is absent or the kinds differ.  The instance `Ord Value` is the total order
of keys and listings: absent, then integers, then texts by code point.  `Value.field` is the text of
a value in a table file.
-/

namespace RelStore

/-- A nullable value. -/
inductive Value where
  | null
  | int (n : Int64)
  | text (s : String)
deriving DecidableEq, Hashable, Inhabited, Repr

namespace Value

/-- Whether the value is absent. -/
def isNull : Value → Bool
  | null => true
  | _ => false

/-- The name of the value's kind. -/
def kindName : Value → String
  | null => "NULL"
  | int _ => "INT"
  | text _ => "VARCHAR"

/-- The integer, if the value is one. -/
def int? : Value → Option Int64
  | int n => some n
  | _ => none

/-- The text, if the value is one. -/
def text? : Value → Option String
  | text s => some s
  | _ => none

/-- The value as it is shown. -/
protected def toString : Value → String
  | null => "NULL"
  | int n => toString n.toInt
  | text s => s

instance : ToString Value where
  toString := Value.toString

/-! ### Comparison -/

/-- Compares two absent values, two integers or two texts. -/
def compare? : Value → Value → Except Error Ordering
  | null, null => .ok .eq
  | null, _ => .error .nullComparison
  | _, null => .error .nullComparison
  | int m, int n => .ok (compare m n)
  | text s, text t => .ok (compare s t)
  | _, _ => .error .incomparableTypes

/-- The place of the value's kind in the total order. -/
def rank : Value → Nat
  | null => 0
  | int _ => 1
  | text _ => 2

/-- The total order: by kind, then by value. -/
protected def compare : Value → Value → Ordering
  | int m, int n => Ord.compare m n
  | text s, text t => Ord.compare s t
  | v, w => Ord.compare v.rank w.rank

instance : Ord Value where
  compare := Value.compare

/-! ### Fields of table files -/

/-- The field that stands for an absent value. -/
def nullField : String := "null"

/-- The text of the value in a table file. -/
def field : Value → String
  | null => nullField
  | int n => toString n.toInt
  | text s => s

/-- Whether a table file can carry the text: it has no separator of fields or lines and does not
read as the absent value. -/
def Storable (s : String) : Prop :=
  '\x00' ∉ s.toList ∧ '\n' ∉ s.toList ∧ '\r' ∉ s.toList ∧ s ≠ nullField

instance (s : String) : Decidable (Storable s) := by
  unfold Storable; infer_instance

end Value

end RelStore
