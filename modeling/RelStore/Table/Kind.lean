import RelStore.Error

/-!
# Kinds of tables and verdicts on rows

A table's kind names the storage behind it.  A verdict is the outcome of checking a row against a
table before it is inserted.
-/

namespace RelStore

/-- The storage behind a table. -/
inductive TableKind where
  /-- Distinct rows, without an index on a column. -/
  | set
  /-- A hash index on one column. -/
  | hash
  /-- A tree index on one column. -/
  | tree
  /-- One index on each of several columns. -/
  | multi
  /-- An unchecked list of rows. -/
  | list
deriving DecidableEq, Inhabited, Repr

namespace TableKind

/-- The written form of a kind. -/
protected def toString : TableKind → String
  | set => "SET"
  | hash => "HASH"
  | tree => "BPLUSTREE"
  | multi => "MULTI"
  | list => "ARRAYLIST"

instance : ToString TableKind where
  toString := TableKind.toString

/-- Reads a kind. -/
def parse : String → Except Error TableKind
  | "SET" => .ok set
  | "HASH" => .ok hash
  | "BPLUSTREE" => .ok tree
  | "MULTI" => .ok multi
  | "ARRAYLIST" => .ok list
  | s => .error (.parse (.unknownTableKind s))

/-- Whether the storage has one index on one column. -/
def hasSingleKey : TableKind → Bool
  | hash | tree => true
  | _ => false

/-- The name of the kind in a table's summary. -/
def label : TableKind → String
  | set => "Set"
  | hash => "Hash"
  | tree => "BPlusTree"
  | multi => "MultiIndex"
  | list => "ArrayList"

end TableKind

/-- The outcome of checking a row against a table. -/
inductive Verdict where
  | success
  /-- An equal row is stored. -/
  | duplicateRow
  /-- A stored row has the same primary key. -/
  | duplicateKey
  /-- The primary key is absent. -/
  | nullKey
deriving DecidableEq, Inhabited, Repr

/-- The verdict as it is shown. -/
protected def Verdict.toString : Verdict → String
  | success => "SUCCESS"
  | duplicateRow => "DUPLICATED_DATA_TUPLE"
  | duplicateKey => "DUPLICATED_PRIMARY_KEY"
  | nullKey => "NULL_PRIMARY_KEY"

instance : ToString Verdict where
  toString := Verdict.toString

end RelStore
