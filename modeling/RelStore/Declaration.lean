import RelStore.Text.Blank
import RelStore.Text.Upper
import RelStore.Error

/-!
# Index declarations

A table definition may ask for an index on a column.  `effective` keeps the declarations that count:
those that ask for an index at all, and of several for one column the first.
-/

namespace RelStore

/-- The kind of index on a column. -/
inductive IndexType where
  | none
  | hash
  | tree
deriving DecidableEq, Inhabited, Repr

namespace IndexType

/-- The written form of an index kind. -/
protected def toString : IndexType → String
  | none => "NONE"
  | hash => "HASH"
  | tree => "BPLUSTREE"

instance : ToString IndexType where
  toString := IndexType.toString

/-- Reads an index kind, in any case and with blanks around it. -/
def parse (s : String) : Except Error IndexType :=
  match Text.upper (Text.trim s) with
  | "NONE" => .ok none
  | "HASH" => .ok hash
  | "BPLUSTREE" | "BTREE" => .ok tree
  | other => .error (.parse (.unknownIndexType other))

end IndexType

/-- A request for an index on a column. -/
structure Declaration where
  column : Nat
  index : IndexType
deriving DecidableEq, Inhabited, Repr

namespace Declaration

/-- The declarations that ask for an index, the first one of each column. -/
def effective (declarations : List Declaration) : List Declaration :=
  go [] declarations
where
  /-- Skips the columns seen so far. -/
  go (seen : List Nat) : List Declaration → List Declaration
    | [] => []
    | d :: ds =>
      if d.index = .none ∨ d.column ∈ seen then go seen ds else d :: go (d.column :: seen) ds

/-- The first declaration on a column that a table of the given width lacks. -/
def outOfRange? (width : Nat) (declarations : List Declaration) : Option Declaration :=
  declarations.find? fun d => width ≤ d.column

end Declaration

end RelStore
