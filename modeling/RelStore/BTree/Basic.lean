/-!
# B+trees

A B+tree maps keys to values and keeps its entries in leaves, all at the same depth.  A branch
holds subtrees with a separator key between neighbours: the keys of a subtree are below the
separator to its right and not below the one to its left.

Leaves live in an `Arena` and are known by their ids.  Each leaf has links to the leaves beside it,
so that the leaves form a chain from the least key to the greatest, which scans follow.  A tree
keeps the branches above the ids, the id of the first leaf of the chain, and the number of its
entries.

`Subtree κ γ h` is the type of subtrees whose leaves, of type `γ`, lie `h` levels down, so that
equal depth is part of the type and functions recurse on the height.  `Shape` bounds the sizes of
nodes.  This file holds the types and the lookups: `get?` and `modify` follow the separators to one
leaf, `firstKey?` and `lastKey?` look at the ends of the chain.
-/

namespace RelStore

/-- Whether `a` comes before `b`. -/
abbrev keyLT {κ : Type} [Ord κ] (a b : κ) : Bool := (compare a b).isLT

/-- Whether `a` comes no later than `b`. -/
abbrev keyLE {κ : Type} [Ord κ] (a b : κ) : Bool := (compare a b).isLE

/-- The sizes at which the nodes of a B+tree split. -/
structure Shape where
  /-- A branch splits when it holds this many separators. -/
  order : Nat
  /-- A leaf splits when it holds this many entries. -/
  capacity : Nat
  three_le_order : 3 ≤ order := by omega
  three_le_capacity : 3 ≤ capacity := by omega
deriving DecidableEq, Repr

namespace Shape

/-- The shape with the given sizes, raised to at least three. -/
def ofSizes (order capacity : Nat) : Shape where
  order := max order 3
  capacity := max capacity 3

/-- The usual shape. -/
def standard : Shape where
  order := 32
  capacity := 32

instance : Inhabited Shape where
  default := standard

end Shape

/-- Children with a separator key before each but the first. -/
structure Branch (κ γ : Type) where
  first : γ
  rest : List (κ × γ)

/-- The entries of a leaf. -/
abbrev Leaf (κ υ : Type) := List (κ × υ)

/-- Subtrees whose leaves lie `h` levels down. -/
def Subtree (κ γ : Type) : Nat → Type
  | 0 => γ
  | h + 1 => Branch κ (Subtree κ γ h)

/-- Nodes under one root. -/
structure Rooted (κ γ : Type) where
  /-- The number of levels above the leaves. -/
  depth : Nat
  root : Subtree κ γ depth

variable {κ υ γ : Type}

namespace Branch

/-- The children from left to right. -/
def children (b : Branch κ γ) : List γ :=
  b.first :: b.rest.map (·.2)

/-- The last child. -/
def last (b : Branch κ γ) : γ :=
  (b.rest.getLast?.map (·.2)).getD b.first

/-- The child on the way to a key, with the children to its right: the one after the last separator
that is not above the key. -/
def descend [Ord κ] (key : κ) (b : Branch κ γ) : Branch κ γ :=
  go b.first b.rest
where
  /-- Steps right while the next separator is not above the key. -/
  go (child : γ) : List (κ × γ) → Branch κ γ
    | [] => ⟨child, []⟩
    | (separator, next) :: rest =>
      if keyLE separator key then go next rest else ⟨child, (separator, next) :: rest⟩

end Branch

namespace Leaf

/-- The value of a key. -/
def get? [Ord κ] (key : κ) (leaf : Leaf κ υ) : Option υ :=
  (leaf.find? fun e => compare e.1 key == .eq).map (·.2)

/-- Changes the value of a key. -/
def modify [Ord κ] (key : κ) (f : υ → υ) (leaf : Leaf κ υ) : Leaf κ υ :=
  leaf.map fun e => if compare e.1 key == .eq then (e.1, f e.2) else e

end Leaf

namespace Subtree

/-- The leaf on the way to a key. -/
def find [Ord κ] (key : κ) : {h : Nat} → Subtree κ γ h → γ
  | 0, leaf => leaf
  | h + 1, branch => find key (h := h) (Branch.descend key branch).first

/-- The rightmost leaf. -/
def last : {h : Nat} → Subtree κ γ h → γ
  | 0, leaf => leaf
  | h + 1, branch => last (h := h) (Branch.last branch)

end Subtree

/-- A leaf and its links to the leaves beside it. -/
structure LinkedLeaf (κ υ : Type) where
  entries : Leaf κ υ
  /-- The leaf to the left. -/
  prev : Option Nat
  /-- The leaf to the right. -/
  next : Option Nat

/-- Leaves by their ids. -/
abbrev Arena (κ υ : Type) := Array (LinkedLeaf κ υ)

namespace Arena

/-- The entries of a leaf. -/
def entries (a : Arena κ υ) (id : Nat) : Leaf κ υ :=
  (a[id]?.map (·.entries)).getD []

/-- The leaf to the right of a leaf. -/
def next? (a : Arena κ υ) (id : Nat) : Option Nat :=
  a[id]?.bind (·.next)

/-- Changes the entries of a leaf. -/
def modifyEntries (a : Arena κ υ) (id : Nat) (f : Leaf κ υ → Leaf κ υ) : Arena κ υ :=
  a.modify id fun leaf => { leaf with entries := f leaf.entries }

/-- Adds a leaf to the chain, to the right of the leaf `id`. -/
def linkAfter (a : Arena κ υ) (id : Nat) (entries : Leaf κ υ) : Arena κ υ :=
  let new := a.size
  let next := a.next? id
  let a := a.modify id fun leaf => { leaf with next := some new }
  let a :=
    match next with
    | some right => a.modify right fun leaf => { leaf with prev := some new }
    | none => a
  a.push { entries, prev := some id, next }

end Arena

/-- A B+tree. -/
structure BTree (κ υ : Type) extends Rooted κ Nat where
  shape : Shape
  leaves : Arena κ υ
  /-- The first leaf of the chain. -/
  head : Nat
  /-- The number of entries. -/
  size : Nat

namespace BTree

/-- The tree without entries. -/
def empty (shape : Shape) : BTree κ υ where
  depth := 0
  root := (0 : Nat)
  shape
  leaves := #[{ entries := [], prev := none, next := none }]
  head := 0
  size := 0

instance : Inhabited (BTree κ υ) where
  default := empty .standard

/-- The tree of the same shape without entries. -/
def clear (t : BTree κ υ) : BTree κ υ :=
  empty t.shape

/-- Whether the tree has no entries. -/
def isEmpty (t : BTree κ υ) : Bool :=
  t.size == 0

/-- The number of levels, the leaves included. -/
def height (t : BTree κ υ) : Nat :=
  t.depth + 1

/-- The value of a key. -/
def get? [Ord κ] (t : BTree κ υ) (key : κ) : Option υ :=
  Leaf.get? key (t.leaves.entries (t.root.find key))

/-- Whether the tree has a key. -/
def contains [Ord κ] (t : BTree κ υ) (key : κ) : Bool :=
  (t.get? key).isSome

/-- Changes the value of a key, if the tree has it. -/
def modify [Ord κ] (t : BTree κ υ) (key : κ) (f : υ → υ) : BTree κ υ :=
  { t with leaves := t.leaves.modifyEntries (t.root.find key) (Leaf.modify key f) }

/-- The least key. -/
def firstKey? (t : BTree κ υ) : Option κ :=
  (t.leaves.entries t.head).head?.map (·.1)

/-- The greatest key. -/
def lastKey? (t : BTree κ υ) : Option κ :=
  (t.leaves.entries t.root.last).getLast?.map (·.1)

end BTree

end RelStore
