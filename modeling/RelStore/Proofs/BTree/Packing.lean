import Mathlib.Algebra.Order.Floor.Div
import RelStore.Proofs.BTree.Linked

/-!
# Packing of bulk loaded B+trees

Bulk loading cuts a list into groups at every level.  `WellSized` says of the sizes of such groups
that they can be computed, that they make up the list, and that they are as few and as equal as the
limit allows; `groupSizes` has all of it (`wellSized_groupSizes`).

`Packed` carries this to the nodes that are made of the groups: every member of the list goes to
exactly one node, and no node is empty.  `Climbs` follows the loop over the levels.  A level of two
nodes or more is packed into branches of two children or more, so that the next level is shorter;
the loop ends at one node, which is the root (`Rooted.climbs_ofLevel?`).  It starts at the ids of
the leaves, which are packed with the entries that are found under them.
-/

namespace RelStore

variable {κ υ γ α β : Type}

/-! ### Sizes of groups -/

/-- The quotient and the remainder, which a divisor of zero does not have. -/
def divMod? (a b : Nat) : Option (Nat × Nat) :=
  if b = 0 then none else some (a / b, a % b)

/-- The sizes of `groupSizes`, by divisions that are checked. -/
def groupSizes? (total limit : Nat) : Option (List Nat) := do
  let (groups, _) ← divMod? (total + limit - 1) limit
  let (base, extra) ← divMod? total groups
  return (List.range groups).map fun i => if i < extra then base + 1 else base

/-- No division is by zero, unless there is nothing to divide or no room for it. -/
theorem groupSizes?_eq_some_iff {total limit : Nat} {sizes : List Nat} :
    groupSizes? total limit = some sizes ↔
      1 ≤ total ∧ 1 ≤ limit ∧ sizes = groupSizes total limit := by
  rcases Nat.eq_zero_or_pos limit with rfl | hl
  · simp [groupSizes?, divMod?]
  · have hgroups : (total + limit - 1) / limit = 0 ↔ total = 0 := by
      rw [Nat.div_eq_zero_iff]
      omega
    unfold groupSizes?
    rw [divMod?, if_neg hl.ne']
    rcases Nat.eq_zero_or_pos total with rfl | ht
    · have hnone : divMod? 0 ((0 + limit - 1) / limit) = none := if_pos (hgroups.2 rfl)
      simp only [Option.bind_eq_bind, Option.bind_some, hnone]
      simp
    · have hne : (total + limit - 1) / limit ≠ 0 := fun h => ht.ne' (hgroups.1 h)
      simp [divMod?, groupSizes, hne, Nat.succ_le_of_lt hl, Nat.succ_le_of_lt ht, eq_comm]

/-- Sizes that divide `total` members among groups of at most `limit`. -/
structure WellSized (total limit : Nat) (sizes : List Nat) : Prop where
  /-- The sizes are found without a division by zero. -/
  computed : groupSizes? total limit = some sizes
  sum_eq : sizes.sum = total
  pos : ∀ size ∈ sizes, 1 ≤ size
  le_limit : ∀ size ∈ sizes, size ≤ limit
  near : ∀ size ∈ sizes, ∀ size' ∈ sizes, size ≤ size' + 1
  length_eq : sizes.length = total ⌈/⌉ limit
  /-- If one group is not enough, each takes half of what the limit allows. -/
  half_le : limit < total → ∀ size ∈ sizes, (limit + 1) / 2 ≤ size

theorem wellSized_groupSizes {total limit : Nat} (ht : 1 ≤ total) (hl : 1 ≤ limit) :
    WellSized total limit (groupSizes total limit) where
  computed := groupSizes?_eq_some_iff.2 ⟨ht, hl, rfl⟩
  sum_eq := sum_groupSizes total hl
  pos _ h := pos_of_mem_groupSizes hl h
  le_limit _ h := le_limit_of_mem_groupSizes hl h
  near size h size' h' := by
    have hsize := eq_of_mem_groupSizes h
    have hsize' := eq_of_mem_groupSizes h'
    omega
  length_eq := length_groupSizes total limit
  half_le hmany size h := by
    refine half_le_of_mem_groupSizes hl ?_ h
    have henough := (total_le_mul_length_groupSizes total hl).1
    by_contra hone
    have hless := Nat.mul_le_mul_left limit (Nat.le_of_not_lt hone)
    omega

/-- Where three members fit into a group, no group of two members or more is left with one. -/
theorem WellSized.two_le {total limit size : Nat} {sizes : List Nat}
    (h : WellSized total limit sizes) (ht : 2 ≤ total) (hl : 3 ≤ limit) (hsize : size ∈ sizes) :
    2 ≤ size := by
  rcases Nat.lt_or_ge limit total with hmany | hone
  · have hhalf := h.half_le hmany size hsize
    omega
  · -- One group is enough, and it has all members.
    have hlength : sizes.length = 1 := by
      rw [h.length_eq, Nat.ceilDiv_eq_add_pred_div, Nat.div_eq_iff (by omega)]
      omega
    obtain ⟨a, rfl⟩ := List.length_eq_one_iff.1 hlength
    have hsum := h.sum_eq
    rw [List.sum_singleton] at hsum
    rw [List.mem_singleton] at hsize
    omega

/-! ### Nodes of groups -/

/-- Nodes that members were packed into: each member went to one node, in the order they had. -/
structure Packed (limit : Nat) (members : List α) (nodes : List γ) (parts : γ → List α) : Prop where
  flatMap_eq : nodes.flatMap parts = members
  wellSized : WellSized members.length limit (nodes.map fun node => (parts node).length)

/-- Nodes are packed with what is read of them if what they stand for is packed. -/
theorem Packed.of_map {limit : Nat} {members : List α} {nodes : List β} {f : β → γ}
    {parts : γ → List α} (h : Packed limit members (nodes.map f) parts) :
    Packed limit members nodes fun node => parts (f node) where
  flatMap_eq := by rw [← h.flatMap_eq, List.flatMap_map]
  wellSized := by
    have hsizes := h.wellSized
    rwa [List.map_map] at hsizes

/-- If every group has a node, the nodes are packed with what the groups hold. -/
theorem packed_filterMap {make : List α → Option γ} (hmake : ∀ a l, (make (a :: l)).isSome)
    {parts : γ → List α} (hparts : ∀ group node, make group = some node → parts node = group)
    {l : List α} {limit : Nat} (hlength : 1 ≤ l.length) (hl : 1 ≤ limit) :
    Packed limit l ((cutInto (groupSizes l.length limit) l).filterMap make) parts := by
  have hsizes := wellSized_groupSizes hlength hl
  have hgroups : ((cutInto (groupSizes l.length limit) l).filterMap make).map parts =
      cutInto (groupSizes l.length limit) l := by
    rw [List.map_filterMap]
    refine (List.filterMap_congr fun group hgroup => ?_).trans List.filterMap_some
    have hpos := hsizes.pos _ (length_mem_groupSizes hl hgroup)
    obtain ⟨a, rest, rfl⟩ := List.exists_cons_of_length_pos hpos
    obtain ⟨node, hnode⟩ := Option.isSome_iff_exists.1 (hmake a rest)
    rw [hnode, Option.map_some, hparts _ _ hnode]
  constructor
  · rw [List.flatMap_def, hgroups, flatten_cutInto_groupSizes l limit hl]
  · have hmap := map_length_cutInto (Nat.le_of_eq (sum_groupSizes l.length hl))
    have hnodes : (((cutInto (groupSizes l.length limit) l).filterMap make).map
        fun node => (parts node).length) = groupSizes l.length limit := by
      rwa [← hgroups, List.map_map] at hmap
    rwa [hnodes]

/-- The leaves hold every entry once, and none is empty. -/
theorem packed_firstLevel {entries : List (κ × υ)} (shape : Shape) (hne : entries ≠ []) :
    Packed (shape.capacity - 1) entries (firstLevel (Leaf.groups shape entries))
      fun c => (Arena.ofGroups (Leaf.groups shape entries)).entries c.2 := by
  have hc := shape.three_le_capacity
  have hmap := map_firstLevel (Arena.holds_ofGroups (Leaf.groups shape entries)).entries_eq
  have hpacked : Packed (shape.capacity - 1) entries
      ((Leaf.groups shape entries).filterMap Leaf.keyed?) (·.2) := by
    refine packed_filterMap (fun _ _ => rfl) ?_ (List.length_pos_iff.2 hne) (by omega)
    intro group leaf hleaf
    obtain ⟨e, -, rfl⟩ := Option.map_eq_some_iff.1 hleaf
    rfl
  rw [← hmap] at hpacked
  exact hpacked.of_map

/-- The branches of the next level hold every sibling once. -/
theorem packed_nextLevel {siblings : List (κ × γ)} (shape : Shape) (hne : siblings ≠ []) :
    Packed shape.order (siblings.map (·.2)) (nextLevel shape siblings) (·.2.children) := by
  have ho := shape.three_le_order
  -- A branch does not keep the first key of its group, so the groups are packed with it first.
  have hpacked : Packed shape.order siblings (nextLevel shape siblings) fun node =>
      (node.1, node.2.first) :: node.2.rest := by
    refine packed_filterMap (fun _ _ => rfl) ?_ (List.length_pos_iff.2 hne) (by omega)
    intro group node hnode
    cases group with
    | nil => contradiction
    | cons c rest =>
      cases hnode
      rfl
  obtain ⟨hflat, hsizes⟩ := hpacked
  constructor
  · conv_rhs => rw [← hflat]
    rw [List.map_flatMap]
    rfl
  · rw [List.length_map]
    refine cast (congrArg _ (List.map_congr_left fun node _ => ?_)) hsizes
    rw [Branch.length_children, List.length_cons]

/-! ### The loop over the levels -/

namespace Rooted

/-- From siblings of height `h`, level after level of branches leads up to the root of `n`. -/
inductive Climbs (shape : Shape) (n : Rooted κ γ) : {h : Nat} → List (κ × Subtree κ γ h) → Prop
  | root (key : κ) : Climbs shape n (h := n.depth) [(key, n.root)]
  | level {h : Nat} {siblings : List (κ × Subtree κ γ h)} (two_le : 2 ≤ siblings.length)
      (packed : Packed shape.order (siblings.map (·.2)) (nextLevel shape siblings) (·.2.children))
      (children : ∀ node ∈ nextLevel shape siblings,
        2 ≤ node.2.children.length ∧ node.2.children.length ≤ shape.order)
      (fewer : (nextLevel shape siblings).length < siblings.length)
      (next : Climbs shape n (h := h + 1) (nextLevel shape siblings)) : Climbs shape n siblings

/-- The loop over the levels ends with a single root. -/
theorem climbs_ofLevel? {shape : Shape} {h : Nat} {siblings : List (κ × Subtree κ γ h)}
    {n : Rooted κ γ} (hn : ofLevel? shape siblings = some n) : Climbs shape n siblings := by
  have ho := shape.three_le_order
  fun_induction ofLevel? shape siblings with
  | case1 => contradiction
  | case2 h key root =>
    obtain rfl := Option.some.inj hn
    exact .root key
  | case3 h s s' rest ih =>
    have htwo : 2 ≤ (s :: s' :: rest).length := by simp
    have hpacked := packed_nextLevel shape (List.cons_ne_nil s (s' :: rest))
    have hsizes := hpacked.wellSized
    rw [List.length_map] at hsizes
    refine .level htwo hpacked (fun node hnode => ?_) (length_nextLevel_lt htwo) (ih hn)
    have hmem := List.mem_map_of_mem (f := fun n => (Branch.children n.2).length) hnode
    exact ⟨hsizes.two_le htwo ho hmem, hsizes.le_limit _ hmem⟩

end Rooted

namespace BTree

/-- Bulk loading is well packed: whatever is to be divided, the groups are well sized; and for
entries whose keys ascend, every entry is in one leaf and none of the leaves is empty, and level
after level of fewer branches, each of two children up to `order`, leads to one root. -/
theorem ofEntries_packed :
    (∀ {total limit : Nat}, 1 ≤ total → 1 ≤ limit →
        WellSized total limit (groupSizes total limit)) ∧
      ∀ {κ υ : Type} [Ord κ] [Std.TransOrd κ] (order capacity : Nat) (entries : List (κ × υ)),
        (entries.map (·.1)).Pairwise (fun a b => keyLT a b) →
          (entries = [] → ofEntries (.ofSizes order capacity) entries =
            empty (.ofSizes order capacity)) ∧
          (entries ≠ [] → ∃ leaves : List (κ × Nat),
            leaves.map (·.2) =
              List.range (ofEntries (.ofSizes order capacity) entries).leaves.size ∧
            Packed ((Shape.ofSizes order capacity).capacity - 1) entries leaves
              (fun c => (ofEntries (.ofSizes order capacity) entries).leaves.entries c.2) ∧
            (ofEntries (.ofSizes order capacity) entries).Climbs (.ofSizes order capacity)
              (h := 0) leaves) := by
  refine ⟨wellSized_groupSizes, fun order capacity entries hasc => ?_⟩
  have hload : ofEntries (.ofSizes order capacity) entries =
      ofAscending (.ofSizes order capacity) entries := if_pos (ascends_iff.2 hasc)
  rw [hload]
  refine ⟨?_, fun hne => ?_⟩
  · rintro rfl
    exact ofAscending_nil _
  · obtain ⟨nodes, hnodes, -, heq⟩ := exists_ofAscending (.ofSizes order capacity) hne
    have hids := ids_firstLevel (ne_nil_of_mem_groups (.ofSizes order capacity) entries)
    have hsize := (Arena.holds_ofGroups (Leaf.groups (.ofSizes order capacity) entries)).size_eq
    rw [heq]
    exact ⟨_, hids.trans (congrArg List.range hsize.symm),
      packed_firstLevel (.ofSizes order capacity) hne, Rooted.climbs_ofLevel? hnodes⟩

/-- Seven entries at the least sizes: four leaves, two branches, one root. -/
theorem ofEntries_packed_seven :
    let entries : List (Nat × Nat) := (List.range 7).map fun n => (n, n * n)
    ∃ t, ofEntries (.ofSizes 3 3) entries = t ∧
      WellSized 7 2 [2, 2, 2, 1] ∧ WellSized 4 3 [2, 2] ∧ t.height = 3 ∧
      ∃ leaves : List (Nat × Nat), leaves.map (·.2) = [0, 1, 2, 3] ∧
        Packed 2 entries leaves (fun c => t.leaves.entries c.2) ∧
        t.Climbs (.ofSizes 3 3) (h := 0) leaves := by
  intro entries
  obtain ⟨hsized, hloaded⟩ := ofEntries_packed
  have hleaves : groupSizes 7 2 = [2, 2, 2, 1] := by decide
  have hbranches : groupSizes 4 3 = [2, 2] := by decide
  have hsize : (ofEntries (.ofSizes 3 3) entries).leaves.size = 4 := by decide +kernel
  obtain ⟨leaves, hids, hpacked, hclimbs⟩ := (hloaded 3 3 entries (by decide)).2 (by decide)
  rw [hsize] at hids
  exact ⟨_, rfl, hleaves ▸ hsized (by decide) (by decide),
    hbranches ▸ hsized (by decide) (by decide), by decide +kernel, leaves, hids, hpacked, hclimbs⟩

end BTree

end RelStore
