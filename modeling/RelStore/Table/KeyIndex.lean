import Std.Data.HashMap
import RelStore.BTree.Bulk
import RelStore.BTree.Scan
import RelStore.Declaration
import RelStore.Row

/-!
# Key indexes

A key index maps a value to its bucket: the rows whose key it is, in the order of their insertion.
It is a hash table, which answers equality only, or a B+tree, which also answers ranges.
-/

namespace RelStore

/-- The rows with one key, in the order of their insertion. -/
abbrev Bucket := Array Row

/-- An index from keys to buckets. -/
inductive KeyIndex where
  | hash (buckets : Std.HashMap Value Bucket)
  | tree (buckets : BTree Value Bucket)

namespace KeyIndex

/-- The kind of the index. -/
def type : KeyIndex → IndexType
  | hash _ => .hash
  | tree _ => .tree

/-- The bucket of a key. -/
def bucket? (index : KeyIndex) (key : Value) : Option Bucket :=
  match index with
  | hash buckets => buckets[key]?
  | tree buckets => buckets.get? key

/-- The number of keys. -/
def size : KeyIndex → Nat
  | hash buckets => buckets.size
  | tree buckets => buckets.size

/-- The number of levels of a tree index. -/
def height? : KeyIndex → Option Nat
  | hash _ => none
  | tree buckets => some buckets.height

/-- Appends a row to the bucket of a key. -/
def append (index : KeyIndex) (key : Value) (row : Row) : KeyIndex :=
  match index with
  | hash buckets => hash (buckets.alter key fun bucket? => some ((bucket?.getD #[]).push row))
  | tree buckets =>
    tree <|
      if buckets.contains key then buckets.modify key (·.push row)
      else buckets.insert key #[row]

/-- The rows of buckets, one bucket after the other. -/
def flatten (buckets : List (Value × Bucket)) : List Row :=
  buckets.flatMap (·.2.toList)

/-- Gathers rows that ascend by their keys into buckets. -/
def gather (keyed : List (Value × Row)) : List (Value × Bucket) :=
  (keyed.splitBy fun a b => a.1 == b.1).filterMap fun group =>
    group.head?.map fun first => (first.1, (group.map (·.2)).toArray)

end KeyIndex

end RelStore
