import RelStore.BTree.Basic

/-!
# Ordered scans of B+trees

A scan between two bounds descends once, to the first leaf that may hold an entry in range, or
starts at the head of the chain, and then follows the links from leaf to leaf.  `Cursor` is the
state of a scan: the current leaf, the position in it, where the entries in range end in it, and
whether the range ends there.  `Cursor.next` yields the next entry, `Cursor.take` several, and
`Cursor.toList` all that are left.  `BTree.scan` opens a cursor.
-/

namespace RelStore

variable {κ υ : Type}

/-- One end of a range of keys. -/
inductive Bound (κ : Type) where
  | unbounded
  | included (key : κ)
  | excluded (key : κ)
deriving DecidableEq, Repr

namespace Bound

/-- The bound at a key. -/
def ofKey (key : κ) (inclusive : Bool) : Bound κ :=
  if inclusive then included key else excluded key

variable [Ord κ]

/-- Whether a key lies on the inner side of a lower bound. -/
def allowsFrom (lower : Bound κ) (key : κ) : Bool :=
  match lower with
  | unbounded => true
  | included low => keyLE low key
  | excluded low => keyLT low key

/-- Whether a key lies on the inner side of an upper bound. -/
def allowsTo (upper : Bound κ) (key : κ) : Bool :=
  match upper with
  | unbounded => true
  | included high => keyLE key high
  | excluded high => keyLT key high

/-- Whether the ends of a range cross, so that no key lies between them. -/
def crosses : Bound κ → Bound κ → Bool
  | included low, included high => keyLT high low
  | included low, excluded high => keyLE high low
  | excluded low, included high => keyLE high low
  | excluded low, excluded high => keyLE high low
  | _, _ => false

end Bound

/-- The state of an ascending scan. -/
structure Cursor (κ υ : Type) where
  tree : BTree κ υ
  /-- The current leaf, unless the scan is over. -/
  leaf? : Option Nat
  /-- The position of the next entry in the current leaf. -/
  pos : Nat
  /-- The end of the entries in range in the current leaf. -/
  stop : Nat
  /-- Whether the range ends in the current leaf. -/
  ends : Bool
  upper : Bound κ

namespace Cursor

/-- The scan that has nothing to yield. -/
def finished (tree : BTree κ υ) : Cursor κ υ where
  tree
  leaf? := none
  pos := 0
  stop := 0
  ends := true
  upper := .unbounded

variable [Ord κ]

/-- Enters a leaf at a position. -/
def enter (tree : BTree κ υ) (upper : Bound κ) (id pos : Nat) : Cursor κ υ :=
  let leaf := tree.leaves.entries id
  let stop := (leaf.takeWhile fun e => upper.allowsTo e.1).length
  { tree, leaf? := some id, pos, stop, ends := stop < leaf.length, upper }

/-- Goes on to the leaf behind the leaf `id`. -/
def follow (c : Cursor κ υ) (id : Nat) : Cursor κ υ :=
  match c.tree.leaves.next? id with
  | some next => enter c.tree c.upper next 0
  | none => { c with leaf? := none, pos := 0 }

/-- Walks to the next entry in range, in at most the given number of steps. -/
def walk : Nat → Cursor κ υ → Option (κ × υ) × Cursor κ υ
  | 0, c => (none, { c with leaf? := none })
  | steps + 1, c =>
    match c.leaf? with
    | none => (none, c)
    | some id =>
      if c.pos < c.stop then ((c.tree.leaves.entries id)[c.pos]?, { c with pos := c.pos + 1 })
      else if c.ends then (none, { c with leaf? := none })
      else walk steps (c.follow id)

/-- The next entry in range, and the scan after it.  A walk takes one step in each leaf that it
comes to, and one more at the end of the chain. -/
def next (c : Cursor κ υ) : Option (κ × υ) × Cursor κ υ :=
  c.walk (c.tree.leaves.size + 1)

/-- At most `n` entries, and the scan after them. -/
def take : Nat → Cursor κ υ → List (κ × υ) × Cursor κ υ
  | 0, c => ([], c)
  | n + 1, c =>
    match c.next with
    | (none, c) => ([], c)
    | (some e, c) =>
      let (es, c) := take n c
      (e :: es, c)

/-- All entries that are left, which are no more than the tree has. -/
def toList (c : Cursor κ υ) : List (κ × υ) :=
  (c.take c.tree.size).1

end Cursor

namespace BTree

variable [Ord κ]

/-- The leaf that may hold the first key a bound allows. -/
def startOf (t : BTree κ υ) : Bound κ → Nat
  | .unbounded => t.head
  | .included low => t.root.find low
  | .excluded low => t.root.find low

/-- Opens a scan of the entries between two bounds. -/
def scan (t : BTree κ υ) (lower upper : Bound κ) : Cursor κ υ :=
  if lower.crosses upper || t.isEmpty then .finished t
  else
    let id := t.startOf lower
    let before := (t.leaves.entries id).takeWhile fun e => !lower.allowsFrom e.1
    .enter t upper id before.length

/-- The entries between two bounds, in ascending order. -/
def between (t : BTree κ υ) (lower upper : Bound κ) : List (κ × υ) :=
  (t.scan lower upper).toList

/-- The entries with `low ≤ key < high`. -/
def range (t : BTree κ υ) (low high : κ) : List (κ × υ) :=
  t.between (.included low) (.excluded high)

/-- The entries below a key. -/
def below (t : BTree κ υ) (key : κ) : List (κ × υ) :=
  t.between .unbounded (.excluded key)

/-- The entries up to a key. -/
def upTo (t : BTree κ υ) (key : κ) : List (κ × υ) :=
  t.between .unbounded (.included key)

/-- The entries above a key. -/
def above (t : BTree κ υ) (key : κ) : List (κ × υ) :=
  t.between (.excluded key) .unbounded

/-- The entries from a key on. -/
def startingAt (t : BTree κ υ) (key : κ) : List (κ × υ) :=
  t.between (.included key) .unbounded

/-- The entries in ascending order. -/
def toList (t : BTree κ υ) : List (κ × υ) :=
  t.between .unbounded .unbounded

/-- The keys in ascending order. -/
def keys (t : BTree κ υ) : List κ :=
  t.toList.map (·.1)

end BTree

end RelStore
