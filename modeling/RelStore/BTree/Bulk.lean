import RelStore.BTree.Insert

/-!
# Bulk loading of B+trees

`BTree.ofAscending` builds a tree from ascending entries bottom up: the entries are cut into
leaves, which are chained from left to right, the leaves into branches, and so on until one root is
left.  Each level is cut by `groupSizes` into as few groups as its bound allows, of sizes that
differ by at most one.  `BTree.ofEntries` takes entries in any order and inserts them one by one if
they do not ascend.
-/

namespace RelStore

variable {κ υ γ α : Type}

/-- Sizes that add up to `total`, as few and as equal as the bound `limit` allows, larger ones
first. -/
def groupSizes (total limit : Nat) : List Nat :=
  let groups := (total + limit - 1) / limit
  (List.range groups).map fun i =>
    if i < total % groups then total / groups + 1 else total / groups

/-- Cuts a list into consecutive groups of the given sizes. -/
def cutInto : List Nat → List α → List (List α)
  | [], _ => []
  | n :: sizes, l => l.take n :: cutInto sizes (l.drop n)

@[simp] theorem length_groupSizes (total limit : Nat) :
    (groupSizes total limit).length = (total + limit - 1) / limit := by
  simp [groupSizes]

@[simp] theorem length_cutInto (sizes : List Nat) (l : List α) :
    (cutInto sizes l).length = sizes.length := by
  induction sizes generalizing l with
  | nil => rfl
  | cons n sizes ih => simp [cutInto, ih]

/-- Groups of at least two members are fewer than the members. -/
theorem length_groupSizes_lt {total limit : Nat} (ht : 2 ≤ total) (hl : 2 ≤ limit) :
    (groupSizes total limit).length < total := by
  rw [length_groupSizes, Nat.div_lt_iff_lt_mul (by omega)]
  have h : total * 2 ≤ total * limit := Nat.mul_le_mul_left total hl
  have h' : limit * 2 ≤ limit * total := Nat.mul_le_mul_left limit ht
  rw [Nat.mul_comm limit total] at h'
  omega

/-- The groups of entries that become leaves. -/
def Leaf.groups (shape : Shape) (entries : List (κ × υ)) : List (Leaf κ υ) :=
  cutInto (groupSizes entries.length (shape.capacity - 1)) entries

/-- The leaves of groups of entries, numbered and chained from left to right. -/
def Arena.ofGroups : List (Leaf κ υ) → Arena κ υ
  | [] => #[]
  | group :: groups =>
    groups.foldl (fun a group => a.linkAfter (a.size - 1) group)
      #[{ entries := group, prev := none, next := none }]

/-- The leaves of groups of entries, each with the key of its first entry. -/
def firstLevel (groups : List (Leaf κ υ)) : List (κ × Nat) :=
  groups.zipIdx.filterMap fun (group, id) => group.head?.map fun e => (e.1, id)

/-- Joins siblings, each with its first key, under a branch; the first key of each sibling but the
first becomes the separator before it. -/
def Branch.ofSiblings? (siblings : List (κ × γ)) : Option (κ × Branch κ γ) :=
  match siblings with
  | [] => none
  | (key, first) :: rest => some (key, ⟨first, rest⟩)

/-- One level up: groups of siblings under branches. -/
def nextLevel (shape : Shape) (siblings : List (κ × γ)) : List (κ × Branch κ γ) :=
  (cutInto (groupSizes siblings.length shape.order) siblings).filterMap Branch.ofSiblings?

theorem length_nextLevel_lt {shape : Shape} {siblings : List (κ × γ)}
    (h : 2 ≤ siblings.length) : (nextLevel shape siblings).length < siblings.length := by
  have ho := shape.three_le_order
  calc (nextLevel shape siblings).length
      ≤ (cutInto (groupSizes siblings.length shape.order) siblings).length :=
        List.length_filterMap_le _ _
    _ = (groupSizes siblings.length shape.order).length := length_cutInto _ _
    _ < siblings.length := length_groupSizes_lt h (by omega)

/-- Builds levels of branches over siblings until one root is left. -/
def Rooted.ofLevel? (shape : Shape) {h : Nat} (siblings : List (κ × Subtree κ γ h)) :
    Option (Rooted κ γ) :=
  match siblings with
  | [] => none
  | [(_, root)] => some { depth := h, root }
  | s :: s' :: rest => ofLevel? shape (h := h + 1) (nextLevel shape (s :: s' :: rest))
termination_by siblings.length
decreasing_by exact length_nextLevel_lt (by simp)

namespace BTree

/-- The tree with the given entries, which ascend. -/
def ofAscending (shape : Shape) (entries : List (κ × υ)) : BTree κ υ :=
  let groups := Leaf.groups shape entries
  match Rooted.ofLevel? shape (h := 0) (firstLevel groups) with
  | none => empty shape
  | some nodes =>
    { toRooted := nodes, shape, leaves := .ofGroups groups, head := 0, size := entries.length }

/-- Whether each key comes before the next. -/
def ascends [Ord κ] (keys : List κ) : Bool :=
  (keys.zip keys.tail).all fun (a, b) => keyLT a b

/-- The tree in which each key has the last value that `entries` gives it. -/
def ofEntries [Ord κ] (shape : Shape) (entries : List (κ × υ)) : BTree κ υ :=
  if ascends (entries.map (·.1)) then ofAscending shape entries
  else entries.foldl (fun t e => t.insert e.1 e.2) (empty shape)

end BTree

end RelStore
