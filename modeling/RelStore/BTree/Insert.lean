import RelStore.BTree.Basic

/-!
# Insertion into B+trees

`BTree.put` gives a key a value and tells the value that it had.  The entry goes to its leaf.  A
leaf that has become full splits in the middle: its right half becomes a new leaf, which is linked
into the chain behind the old one, and the first key of the new leaf becomes a separator one level
up.  A branch that has become full splits in the middle and its middle separator moves up.  When the
root splits, a new root with one separator takes its place.
-/

namespace RelStore

variable {κ υ γ : Type}

/-- A node after an insertion: whole, or split in two by a separator. -/
inductive Grown (κ γ : Type) where
  | whole (node : γ)
  | split (left : γ) (separator : κ) (right : γ)

/-- The branch whose first child is a grown node. -/
def Grown.attach (rest : List (κ × γ)) : Grown κ γ → Branch κ γ
  | whole node => ⟨node, rest⟩
  | split left separator right => ⟨left, (separator, right) :: rest⟩

namespace Leaf

/-- Gives a key a value, in the order of the keys, and tells the value that it had. -/
def put [Ord κ] (key : κ) (value : υ) : Leaf κ υ → Option υ × Leaf κ υ
  | [] => (none, [(key, value)])
  | (k, v) :: rest =>
    match compare key k with
    | .lt => (none, (key, value) :: (k, v) :: rest)
    | .eq => (some v, (k, value) :: rest)
    | .gt =>
      let (old, rest) := put key value rest
      (old, (k, v) :: rest)

/-- Splits a leaf that is full. -/
def settle (shape : Shape) (leaf : Leaf κ υ) : Grown κ (Leaf κ υ) :=
  if leaf.length < shape.capacity then .whole leaf
  else
    match leaf.drop (leaf.length / 2) with
    | [] => .whole leaf
    | e :: right => .split (leaf.take (leaf.length / 2)) e.1 (e :: right)

end Leaf

namespace Branch

/-- Lets the child on the way to a key grow. -/
def grow [Ord κ] (key : κ) (f : γ → Grown κ γ) (b : Branch κ γ) : Branch κ γ :=
  go b.first b.rest
where
  /-- Steps right while the next separator is not above the key. -/
  go (child : γ) : List (κ × γ) → Branch κ γ
    | [] => (f child).attach []
    | (separator, next) :: rest =>
      if keyLE separator key then
        let grown := go next rest
        ⟨child, (separator, grown.first) :: grown.rest⟩
      else (f child).attach ((separator, next) :: rest)

/-- Splits a branch that is full. -/
def settle (shape : Shape) (b : Branch κ γ) : Grown κ (Branch κ γ) :=
  if b.rest.length < shape.order then .whole b
  else
    match b.rest.drop (b.rest.length / 2) with
    | [] => .whole b
    | (separator, child) :: right =>
      .split ⟨b.first, b.rest.take (b.rest.length / 2)⟩ separator ⟨child, right⟩

end Branch

/-- Lets the leaf on the way to a key grow, and splits the branches above it that are full. -/
def Subtree.grow [Ord κ] (shape : Shape) (key : κ) (f : γ → Grown κ γ) :
    {h : Nat} → Subtree κ γ h → Grown κ (Subtree κ γ h)
  | 0, leaf => f leaf
  | h + 1, branch => Branch.settle shape (Branch.grow key (grow shape key f (h := h)) branch)

/-- Lets the leaf on the way to a key grow; a root that splits is put under a new one. -/
def Rooted.grow [Ord κ] (shape : Shape) (key : κ) (f : γ → Grown κ γ) (t : Rooted κ γ) :
    Rooted κ γ :=
  match t.root.grow shape key f with
  | .whole root => { t with root }
  | .split left separator right =>
    { depth := t.depth + 1, root := ⟨left, [(separator, right)]⟩ }

namespace BTree

variable [Ord κ]

/-- Replaces the entries of the leaf on the way to a key. -/
def setLeaf (t : BTree κ υ) (key : κ) (entries : Leaf κ υ) : BTree κ υ :=
  { t with leaves := t.leaves.modifyEntries (t.root.find key) fun _ => entries }

/-- Splits the leaf on the way to a key into two halves, the right one a new leaf behind it. -/
def splitLeaf (t : BTree κ υ) (key : κ) (left : Leaf κ υ) (separator : κ) (right : Leaf κ υ) :
    BTree κ υ :=
  let id := t.root.find key
  let new := t.leaves.size
  { t with
    toRooted := t.toRooted.grow t.shape key fun id => .split id separator new
    leaves := (t.leaves.modifyEntries id fun _ => left).linkAfter id right }

/-- Splits the leaf on the way to a key if it is full. -/
def splitFull (t : BTree κ υ) (key : κ) : BTree κ υ :=
  match Leaf.settle t.shape (t.leaves.entries (t.root.find key)) with
  | .whole _ => t
  | .split left separator right => t.splitLeaf key left separator right

/-- Gives a key a value, and tells the value that it had. -/
def put (t : BTree κ υ) (key : κ) (value : υ) : Option υ × BTree κ υ :=
  match Leaf.put key value (t.leaves.entries (t.root.find key)) with
  | (some old, entries) => (some old, t.setLeaf key entries)
  | (none, entries) => (none, { t.setLeaf key entries with size := t.size + 1 }.splitFull key)

/-- Gives a key a value. -/
def insert (t : BTree κ υ) (key : κ) (value : υ) : BTree κ υ :=
  (t.put key value).2

end BTree

end RelStore
