import Mathlib.Algebra.Order.BigOperators.Group.List
import Mathlib.Tactic.Linarith
import Mathlib.Tactic.Ring
import RelStore.Proofs.BTree.Bulk

/-!
# Sizes of the nodes of B+trees

`Subtree.Filled shape isRoot t` bounds the size of every node of `t`: a leaf holds at least half its
capacity and less than all of it, a branch has at least half of `order` children and no more than
`order`.  The root is excused from the lower bounds, but a branch that is the root has two children.

Splitting keeps the bounds because a full node is cut in the middle (`Leaf.parts_settle`,
`Branch.parts_settle`), and bulk loading because the groups of a level are as equal as they can be
(`half_le_of_mem_groupSizes`).  The bounds on single nodes add up to bounds on the number of
entries under a given height (`Subtree.Filled.length_toList_le`, `Subtree.Filled.le_length_toList`).
-/

namespace RelStore

variable {κ υ γ α : Type}

/-! ### Sizes of groups -/

section GroupSizes

variable {total limit size : Nat}

/-- The groups are enough for all members, and one group less would not be. -/
theorem total_le_mul_length_groupSizes (total : Nat) (hl : 1 ≤ limit) :
    total ≤ limit * (groupSizes total limit).length ∧
      limit * (groupSizes total limit).length < total + limit := by
  rw [length_groupSizes]
  have hdiv := Nat.div_add_mod (total + limit - 1) limit
  have hmod := Nat.mod_lt (total + limit - 1) hl
  omega

theorem eq_of_mem_groupSizes (h : size ∈ groupSizes total limit) :
    size = total / (groupSizes total limit).length ∨
      size = total / (groupSizes total limit).length + 1 ∧
        0 < total % (groupSizes total limit).length := by
  rw [length_groupSizes]
  simp only [groupSizes, List.mem_map, List.mem_range] at h
  obtain ⟨i, -, hsize⟩ := h
  split at hsize <;> omega

/-- No group is larger than the limit. -/
theorem le_limit_of_mem_groupSizes (hl : 1 ≤ limit) (h : size ∈ groupSizes total limit) :
    size ≤ limit := by
  have henough := (total_le_mul_length_groupSizes total hl).1
  have hbase : total / (groupSizes total limit).length ≤ limit :=
    Nat.div_le_of_le_mul (by rwa [Nat.mul_comm])
  rcases eq_of_mem_groupSizes h with hsize | ⟨hsize, hrest⟩
  · omega
  · -- A group of one more than `total / g` members is only there if `total / g * g < total`.
    have hsplit := Nat.div_add_mod total (groupSizes total limit).length
    have hne : total / (groupSizes total limit).length ≠ limit := by
      intro heq
      rw [heq, Nat.mul_comm] at hsplit
      omega
    omega

theorem eq_total_of_mem_groupSizes (hone : (groupSizes total limit).length = 1)
    (h : size ∈ groupSizes total limit) : size = total := by
  have hsize := eq_of_mem_groupSizes h
  rw [hone] at hsize
  omega

/-- If there are several groups, each is at least half as large as the limit allows. -/
theorem half_le_of_mem_groupSizes (hl : 1 ≤ limit) (hmany : 1 < (groupSizes total limit).length)
    (h : size ∈ groupSizes total limit) : (limit + 1) / 2 ≤ size := by
  have hless := (total_le_mul_length_groupSizes total hl).2
  have hbase : total / (groupSizes total limit).length ≤ size := by
    rcases eq_of_mem_groupSizes h with hsize | ⟨hsize, -⟩ <;> omega
  refine le_trans ((Nat.le_div_iff_mul_le (by omega)).2 ?_) hbase
  generalize (groupSizes total limit).length = g at hmany hless
  obtain ⟨k, rfl⟩ : ∃ k, g = k + 2 := ⟨g - 2, by omega⟩
  obtain ⟨j, hj⟩ : ∃ j, (limit + 1) / 2 = j + 1 := ⟨(limit + 1) / 2 - 1, by omega⟩
  have hlimit : 2 * j + 1 ≤ limit := by omega
  have hmul : (2 * j + 1) * (k + 1) ≤ limit * (k + 1) := Nat.mul_le_mul_right _ hlimit
  rw [hj]
  calc (j + 1) * (k + 2)
      ≤ (2 * j + 1) * (k + 1) + 1 := by nlinarith [Nat.zero_le (j * k)]
    _ ≤ limit * (k + 1) + 1 := Nat.succ_le_succ hmul
    _ ≤ total := by
      have hexpand : limit * (k + 2) = limit * (k + 1) + limit := by ring
      omega

theorem pos_of_mem_groupSizes (hl : 1 ≤ limit) (h : size ∈ groupSizes total limit) : 1 ≤ size := by
  have htotal : total ≠ 0 := by
    rintro rfl
    rw [groupSizes_zero] at h
    exact List.not_mem_nil h
  have hpos : 0 < (groupSizes total limit).length := List.length_pos_of_mem h
  rcases Nat.lt_or_ge 1 (groupSizes total limit).length with hmany | hone
  · have hhalf := half_le_of_mem_groupSizes hl hmany h
    omega
  · have heq := eq_total_of_mem_groupSizes (by omega) h
    omega

end GroupSizes

theorem map_length_cutInto {sizes : List Nat} {l : List α} (h : sizes.sum ≤ l.length) :
    (cutInto sizes l).map List.length = sizes := by
  induction sizes generalizing l with
  | nil => rfl
  | cons n sizes ih =>
    rw [List.sum_cons] at h
    rw [cutInto, List.map_cons, List.length_take, Nat.min_eq_left (by omega), ih]
    rw [List.length_drop]
    omega

/-- The members of a group of a list. -/
structure IsGroup (limit : Nat) (l : List α) (alone : Bool) (group : List α) : Prop where
  length_le : group.length ≤ limit
  length_eq : alone = true → group.length = l.length
  /-- Of several groups each takes half of what the limit allows. -/
  half_le : alone = false → (limit + 1) / 2 ≤ group.length
  mem : ∀ a ∈ group, a ∈ l

theorem length_mem_groupSizes {l group : List α} {limit : Nat} (hl : 1 ≤ limit)
    (h : group ∈ cutInto (groupSizes l.length limit) l) :
    group.length ∈ groupSizes l.length limit := by
  have hsum := Nat.le_of_eq (sum_groupSizes l.length hl)
  have hmem : group.length ∈ (cutInto (groupSizes l.length limit) l).map List.length :=
    List.mem_map_of_mem h
  rwa [map_length_cutInto hsum] at hmem

/-- Each node of a level is made of a group of those below, the only one if it is the only node. -/
theorem exists_isGroup {make : List α → Option γ} (hmake : ∀ a l, (make (a :: l)).isSome)
    {l : List α} {limit : Nat} (hl : 1 ≤ limit) {nodes : List γ}
    (hnodes : nodes = (cutInto (groupSizes l.length limit) l).filterMap make) :
    ∀ node ∈ nodes, ∃ group, make group = some node ∧
      IsGroup limit l (decide (nodes.length ≤ 1)) group := by
  have hflat := flatten_cutInto_groupSizes l limit hl
  -- No group is empty, so that none is left out.
  have hlength : nodes.length = (groupSizes l.length limit).length := by
    rw [hnodes, ← length_cutInto (groupSizes l.length limit) l, List.filterMap_length_eq_length]
    intro group hgroup
    have hpos := pos_of_mem_groupSizes hl (length_mem_groupSizes hl hgroup)
    obtain ⟨a, rest, rfl⟩ := List.exists_cons_of_length_pos hpos
    exact hmake a rest
  intro node hnode
  rw [hnodes] at hnode
  obtain ⟨group, hgroup, heq⟩ := List.mem_filterMap.1 hnode
  have hsize := length_mem_groupSizes hl hgroup
  have hpos : 0 < (groupSizes l.length limit).length := List.length_pos_of_mem hsize
  rw [hlength]
  refine ⟨group, heq, le_limit_of_mem_groupSizes hl hsize, fun halone => ?_, fun hmany => ?_,
    fun a ha => ?_⟩
  · have hle := of_decide_eq_true halone
    exact eq_total_of_mem_groupSizes (by omega) hsize
  · have hlt := of_decide_eq_false hmany
    exact half_le_of_mem_groupSizes hl (by omega) hsize
  · rw [← hflat]
    exact List.mem_flatten.2 ⟨group, hgroup, ha⟩

/-! ### Nodes within their bounds -/

namespace Shape

/-- The least number of entries of a leaf. -/
def leastEntries (shape : Shape) (isRoot : Bool) : Nat :=
  if isRoot then 0 else shape.capacity / 2

/-- The least number of children of a branch. -/
def leastChildren (shape : Shape) (isRoot : Bool) : Nat :=
  if isRoot then 2 else (shape.order + 1) / 2

end Shape

/-- A leaf has room for its entries, and has enough of them. -/
structure Leaf.Filled (shape : Shape) (isRoot : Bool) (leaf : Leaf κ υ) : Prop where
  least_le : shape.leastEntries isRoot ≤ leaf.length
  lt_capacity : leaf.length < shape.capacity

/-- A branch has room for its children and has enough of them, which all satisfy `p`. -/
structure Branch.Filled (shape : Shape) (isRoot : Bool) (p : γ → Prop) (b : Branch κ γ) : Prop where
  least_le : shape.leastChildren isRoot ≤ b.children.length
  le_order : b.children.length ≤ shape.order
  children : ∀ c ∈ b.children, p c

/-- All nodes have room for what they hold, and all but the root are half full. -/
def Subtree.Filled (shape : Shape) (isRoot : Bool) : {h : Nat} → Subtree κ (Leaf κ υ) h → Prop
  | 0, leaf => Leaf.Filled shape isRoot leaf
  | h + 1, b => Branch.Filled shape isRoot (Filled shape false (h := h)) b

/-- Whether a node that stayed whole satisfies `p`, and the halves of one that split satisfy `q`. -/
def Grown.Parts (p q : γ → Prop) : Grown κ γ → Prop
  | whole node => p node
  | split left _ right => q left ∧ q right

/-- A node becomes one or two. -/
theorem Grown.Parts.nodes {p : γ → Prop} {g : Grown κ γ} (h : g.Parts p p) :
    1 ≤ g.nodes.length ∧ g.nodes.length ≤ 2 ∧ ∀ c ∈ g.nodes, p c := by
  cases g with
  | whole node => exact ⟨Nat.le_refl 1, Nat.le_succ 1, List.forall_mem_singleton.2 h⟩
  | split left separator right =>
    exact ⟨Nat.le_succ 1, Nat.le_refl 2,
      List.forall_mem_cons.2 ⟨h.1, List.forall_mem_singleton.2 h.2⟩⟩

namespace Leaf

/-- A leaf that is full is cut into two halves that are not. -/
theorem parts_settle {shape : Shape} {isRoot : Bool} {leaf : Leaf κ υ}
    (hleast : shape.leastEntries isRoot ≤ leaf.length) (hle : leaf.length ≤ shape.capacity) :
    (settle shape leaf).Parts (Filled shape isRoot) (Filled shape false) := by
  have hc := shape.three_le_capacity
  unfold settle
  split
  · next hroom => exact ⟨hleast, hroom⟩
  · have hdrop : (leaf.drop (leaf.length / 2)).length = leaf.length - leaf.length / 2 :=
      List.length_drop
    have htake : (leaf.take (leaf.length / 2)).length = leaf.length / 2 := by
      rw [List.length_take]
      omega
    split
    · next hnil =>
      rw [hnil, List.length_nil] at hdrop
      omega
    · next e right hcons =>
      rw [hcons] at hdrop
      have hhalf : shape.leastEntries false = shape.capacity / 2 := rfl
      constructor <;> constructor <;> omega

end Leaf

namespace Branch

theorem length_children (b : Branch κ γ) : b.children.length = b.rest.length + 1 := by
  simp [children]

/-- A branch that is full is cut into two halves that are not. -/
theorem parts_settle {shape : Shape} {isRoot : Bool} {p : γ → Prop} {b : Branch κ γ}
    (hleast : shape.leastChildren isRoot ≤ b.children.length)
    (hle : b.children.length ≤ shape.order + 1) (hp : ∀ c ∈ b.children, p c) :
    (b.settle shape).Parts (Filled shape isRoot p) (Filled shape false p) := by
  have ho := shape.three_le_order
  rw [length_children] at hle
  unfold settle
  split
  · next hroom => exact ⟨hleast, by rw [length_children]; omega, hp⟩
  · have happend := List.take_append_drop (b.rest.length / 2) b.rest
    have hdrop : (b.rest.drop (b.rest.length / 2)).length = b.rest.length - b.rest.length / 2 :=
      List.length_drop
    have htake : (b.rest.take (b.rest.length / 2)).length = b.rest.length / 2 := by
      rw [List.length_take]
      omega
    split
    · next hnil =>
      rw [hnil, List.length_nil] at hdrop
      omega
    · next s child right hcons =>
      rw [hcons, List.length_cons] at hdrop
      rw [hcons] at happend
      have hhalf : shape.leastChildren false = (shape.order + 1) / 2 := rfl
      have hchildren : b.children =
          (⟨b.first, b.rest.take (b.rest.length / 2)⟩ : Branch κ γ).children ++
            (⟨child, right⟩ : Branch κ γ).children := by
        conv_lhs => rw [children, ← happend]
        simp [children]
      rw [hchildren, List.forall_mem_append] at hp
      constructor
      · refine ⟨?_, ?_, hp.1⟩ <;> rw [length_children] <;> simp only [htake] <;> omega
      · refine ⟨?_, ?_, hp.2⟩ <;> rw [length_children] <;> simp only <;> omega

end Branch

/-! ### Insertion and changes of values -/

namespace Leaf

variable [Ord κ] {shape : Shape} {isRoot : Bool} {leaf : Leaf κ υ}

/-- An insertion adds an entry unless the key has one. -/
theorem length_insert (key : κ) (value : υ) (l : Leaf κ υ) :
    (insert key value l).length = l.length + if (put key value l).1.isSome then 0 else 1 := by
  induction l with
  | nil => rfl
  | cons e l ih =>
    rw [insert, put]
    cases compare key e.1 with
    | lt => rfl
    | eq => rfl
    | gt =>
      simp only [List.length_cons, ih]
      omega

theorem Filled.insert (h : Filled shape isRoot leaf) (key : κ) (value : υ) :
    (settle shape (insert key value leaf)).Parts (Filled shape isRoot) (Filled shape false) := by
  have hleast := h.least_le
  have hlt := h.lt_capacity
  have hlength := length_insert key value leaf
  split at hlength <;> exact parts_settle (by omega) (by omega)

/-- A leaf with room does not split when a value is replaced. -/
theorem Filled.settle_insert (h : Filled shape isRoot leaf) {key : κ} {value : υ}
    (hold : (put key value leaf).1.isSome) :
    settle shape (Leaf.insert key value leaf) = .whole (Leaf.insert key value leaf) := by
  have hlt := h.lt_capacity
  have hlength := length_insert key value leaf
  rw [if_pos hold] at hlength
  exact if_pos (by omega)

theorem Filled.modify (h : Filled shape isRoot leaf) (key : κ) (f : υ → υ) :
    Filled shape isRoot (modify key f leaf) := by
  have hlength : (Leaf.modify key f leaf).length = leaf.length := List.length_map _
  exact ⟨hlength ▸ h.least_le, hlength ▸ h.lt_capacity⟩

end Leaf

namespace Branch

variable [Ord κ] {shape : Shape} {isRoot : Bool} {p : γ → Prop} {b : Branch κ γ} {key : κ}

theorem Filled.grow (h : b.Filled shape isRoot p) {f : γ → Grown κ γ}
    (hf : ∀ c, p c → (f c).Parts p p) :
    ((b.grow key f).settle shape).Parts (Filled shape isRoot p) (Filled shape false p) := by
  obtain ⟨hleast, hle, hchildren⟩ := h
  have hgrown := b.children_grow key f
  rw [b.children_eq key] at hleast hle hchildren
  obtain ⟨hpassed, hdescend⟩ := List.forall_mem_append.1 hchildren
  obtain ⟨hfirst, hright⟩ := List.forall_mem_cons.1 hdescend
  obtain ⟨hone, htwo, hnodes⟩ := (hf _ hfirst).nodes
  rw [List.length_append, length_children] at hleast hle
  refine parts_settle ?_ ?_ ?_ <;> rw [hgrown]
  · simp only [List.length_append, List.length_map]
    omega
  · simp only [List.length_append, List.length_map]
    omega
  · exact List.forall_mem_append.2 ⟨hpassed, List.forall_mem_append.2 ⟨hnodes, hright⟩⟩

theorem Filled.modify (h : b.Filled shape isRoot p) {f : γ → γ} (hf : ∀ c, p c → p (f c)) :
    (b.modify key f).Filled shape isRoot p := by
  obtain ⟨hleast, hle, hchildren⟩ := h
  have hmodified := b.children_modify key f
  rw [b.children_eq key] at hleast hle hchildren
  obtain ⟨hpassed, hdescend⟩ := List.forall_mem_append.1 hchildren
  obtain ⟨hfirst, hright⟩ := List.forall_mem_cons.1 hdescend
  rw [List.length_append, length_children] at hleast hle
  refine ⟨?_, ?_, ?_⟩ <;> rw [hmodified]
  · simpa using hleast
  · simpa using hle
  · exact List.forall_mem_append.2 ⟨hpassed, List.forall_mem_cons.2 ⟨hf _ hfirst, hright⟩⟩

/-- If the child on the way to a key stays whole, a branch with room does not split. -/
theorem Filled.settle_grow (h : b.Filled shape isRoot p) {f : γ → Grown κ γ} {m : γ → γ}
    (hf : f (b.descend key).first = .whole (m (b.descend key).first)) :
    (b.grow key f).settle shape = .whole (b.modify key m) := by
  have hle := h.le_order
  have hlength := b.length_rest_modify key m
  rw [length_children] at hle
  rw [grow_eq_modify key hf]
  exact if_pos (by omega)

end Branch

namespace Subtree

variable [Ord κ] {shape : Shape} {isRoot : Bool} {h : Nat} {t : Subtree κ (Leaf κ υ) h}

/-- An insertion keeps a node within its bounds, or makes two halves that are within theirs. -/
theorem Filled.insert (ht : t.Filled shape isRoot) (key : κ) (value : υ) :
    (t.grow shape key fun leaf => (leaf.insert key value).settle shape).Parts
      (Filled shape isRoot) (Filled shape false) := by
  induction t using induction generalizing isRoot with
  | leaf leaf => exact Leaf.Filled.insert ht key value
  | branch h b ih => exact Branch.Filled.grow ht fun c hc => ih c hc

theorem Filled.modify (ht : t.Filled shape isRoot) (key : κ) (f : υ → υ) :
    (t.modify key (Leaf.modify key f)).Filled shape isRoot := by
  induction t using induction generalizing isRoot with
  | leaf leaf => exact Leaf.Filled.modify ht key f
  | branch h b ih => exact Branch.Filled.modify ht fun c hc => ih c hc

/-- If the leaf on the way to a key stays whole, no node above it splits. -/
theorem Filled.grow_eq_whole (ht : t.Filled shape isRoot) {key : κ}
    {f : Leaf κ υ → Grown κ (Leaf κ υ)} {m : Leaf κ υ → Leaf κ υ}
    (hf : f (t.find key) = .whole (m (t.find key))) :
    t.grow shape key f = .whole (t.modify key m) := by
  induction t using induction generalizing isRoot with
  | leaf leaf => exact hf
  | branch h b ih =>
    have hchild := ht.children _ (b.first_descend_mem key)
    exact Branch.Filled.settle_grow ht (ih _ hchild hf)

/-- The leaf on the way to a key is within its bounds. -/
theorem Filled.find (ht : t.Filled shape isRoot) (key : κ) :
    ∃ isRoot, (t.find key).Filled shape isRoot := by
  induction t using induction generalizing isRoot with
  | leaf leaf => exact ⟨isRoot, ht⟩
  | branch h b ih =>
    exact ih _ (ht.children _ (b.first_descend_mem key))

end Subtree

/-! ### Bulk loading -/

theorem Branch.children_of_ofSiblings? {siblings : List (κ × γ)} {node : κ × Branch κ γ}
    (h : Branch.ofSiblings? siblings = some node) :
    node.2.children = siblings.map (·.2) := by
  cases siblings with
  | nil => contradiction
  | cons c rest =>
    cases h
    rfl

/-- One level up there is a node for each group of siblings, within its bounds. -/
theorem filled_nextLevel {shape : Shape} {p : γ → Prop} {siblings : List (κ × γ)}
    (htwo : 2 ≤ siblings.length) (hp : ∀ c ∈ siblings, p c.2) :
    ∀ node ∈ nextLevel shape siblings,
      node.2.Filled shape (decide ((nextLevel shape siblings).length ≤ 1)) p := by
  have ho := shape.three_le_order
  have hmake : ∀ (c : κ × γ) rest, (Branch.ofSiblings? (c :: rest)).isSome := fun _ _ => rfl
  intro node hnode
  obtain ⟨group, hgroup, hle, hall, hhalf, hmem⟩ :=
    exists_isGroup hmake (by omega) (Eq.refl (nextLevel shape siblings)) node hnode
  have hchildren := Branch.children_of_ofSiblings? hgroup
  have hlength : node.2.children.length = group.length := by rw [hchildren, List.length_map]
  refine ⟨?_, hlength ▸ hle, fun c hc => ?_⟩
  · rw [hlength]
    cases halone : decide ((nextLevel shape siblings).length ≤ 1) with
    | true => exact htwo.trans_eq (hall halone).symm
    | false => exact hhalf halone
  · rw [hchildren] at hc
    obtain ⟨c', hc', rfl⟩ := List.mem_map.1 hc
    exact hp c' (hmem c' hc')

theorem filled_leaves (shape : Shape) (entries : List (κ × υ)) {leaves : List (κ × Leaf κ υ)}
    (hleaves : leaves =
      (cutInto (groupSizes entries.length (shape.capacity - 1)) entries).filterMap Leaf.keyed?) :
    ∀ leaf ∈ leaves, leaf.2.Filled shape (decide (leaves.length ≤ 1)) := by
  have hc := shape.three_le_capacity
  have hmake : ∀ (e : κ × υ) rest, (Leaf.keyed? (e :: rest)).isSome := fun _ _ => rfl
  intro leaf hleaf
  obtain ⟨group, hgroup, hle, -, hhalf, -⟩ := exists_isGroup hmake (by omega) hleaves leaf hleaf
  obtain ⟨e, -, rfl⟩ := Option.map_eq_some_iff.1 hgroup
  have hlt : group.length < shape.capacity := by omega
  refine ⟨?_, hlt⟩
  cases hmany : decide (leaves.length ≤ 1) with
  | true => exact Nat.zero_le _
  | false =>
    have hleast : (shape.capacity - 1 + 1) / 2 ≤ group.length := hhalf hmany
    rwa [Nat.sub_add_cancel (by omega)] at hleast

namespace Rooted

theorem filled_ofLevel? {shape : Shape} {h : Nat} {siblings : List (κ × Subtree κ (Leaf κ υ) h)}
    {n : Rooted κ (Leaf κ υ)}
    (hp : ∀ c ∈ siblings, c.2.Filled shape (decide (siblings.length ≤ 1)))
    (hn : ofLevel? shape siblings = some n) : n.root.Filled shape true := by
  fun_induction ofLevel? shape siblings with
  | case1 => contradiction
  | case2 h key root =>
    obtain rfl := Option.some.inj hn
    exact hp (key, root) List.mem_cons_self
  | case3 h s s' rest ih => exact ih (filled_nextLevel (by simp) (by simpa using hp)) hn

/-- If the leaf on the way to a key stays whole, no node splits. -/
theorem grow_eq_modify [Ord κ] {shape : Shape} {key : κ} {n : Rooted κ (Leaf κ υ)}
    (hn : n.root.Filled shape true) {f : Leaf κ υ → Grown κ (Leaf κ υ)} {m : Leaf κ υ → Leaf κ υ}
    (hf : f (n.root.find key) = .whole (m (n.root.find key))) :
    n.grow shape key f = n.modify key m := by
  rw [grow, hn.grow_eq_whole hf]
  rfl

/-- If the root splits, the new root has two children. -/
theorem filled_insert [Ord κ] {shape : Shape} {n : Rooted κ (Leaf κ υ)}
    (hn : n.root.Filled shape true) (key : κ) (value : υ) :
    (n.insert shape key value).root.Filled shape true := by
  have ho := shape.three_le_order
  have hparts := hn.insert key value
  unfold insert grow
  split
  · next root hroot =>
    rw [hroot] at hparts
    exact hparts
  · next left separator right hroot =>
    rw [hroot] at hparts
    refine ⟨Nat.le_refl 2, Nat.le_of_lt ho, ?_⟩
    exact List.forall_mem_cons.2 ⟨hparts.1, List.forall_mem_singleton.2 hparts.2⟩

end Rooted

/-! ### Numbers of entries -/

namespace Subtree

variable {shape : Shape} {isRoot : Bool} {h : Nat}

theorem length_toList_branch (t : Subtree κ (Leaf κ υ) (h + 1)) :
    t.toList.length = ((Branch.children t).map fun c => c.toList.length).sum :=
  (congrArg List.length (toList_branch t)).trans List.length_flatMap

/-- A subtree holds no more entries than the most children on every level allow. -/
theorem Filled.length_toList_le {t : Subtree κ (Leaf κ υ) h} (ht : t.Filled shape isRoot) :
    t.toList.length ≤ (shape.capacity - 1) * shape.order ^ h := by
  induction h generalizing isRoot with
  | zero =>
    have hlt := ht.lt_capacity
    have htoList : t.toList = (t : Leaf κ υ) := toList_leaf t
    rw [htoList, Nat.pow_zero]
    omega
  | succ h ih =>
    obtain ⟨-, hle, hchildren⟩ := ht
    have hsum := List.sum_le_card_nsmul ((Branch.children t).map fun c => c.toList.length)
      ((shape.capacity - 1) * shape.order ^ h) (by simpa using fun c hc => ih (hchildren c hc))
    calc t.toList.length
        ≤ (Branch.children t).length * ((shape.capacity - 1) * shape.order ^ h) := by
          rw [length_toList_branch]
          simpa using hsum
      _ ≤ shape.order * ((shape.capacity - 1) * shape.order ^ h) := Nat.mul_le_mul_right _ hle
      _ = (shape.capacity - 1) * shape.order ^ (h + 1) := by ring

/-- The entries below some children are at least as many as the fewest of each. -/
theorem mul_le_length_toList {t : Subtree κ (Leaf κ υ) (h + 1)} {children entries : Nat}
    (hleast : children ≤ (Branch.children t).length)
    (hentries : ∀ c ∈ Branch.children t, entries ≤ c.toList.length) :
    children * entries ≤ t.toList.length := by
  have hsum := List.card_nsmul_le_sum ((Branch.children t).map fun c => c.toList.length)
    entries (by simpa using hentries)
  calc children * entries
      ≤ (Branch.children t).length * entries := Nat.mul_le_mul_right _ hleast
    _ ≤ t.toList.length := by
      rw [length_toList_branch]
      simpa using hsum

/-- A subtree that is not the root holds at least the entries that the fewest children on every
level give it. -/
theorem Filled.le_length_toList {t : Subtree κ (Leaf κ υ) h} (ht : t.Filled shape false) :
    ((shape.order + 1) / 2) ^ h * (shape.capacity / 2) ≤ t.toList.length := by
  induction h with
  | zero =>
    have hle : shape.capacity / 2 ≤ List.length (α := κ × υ) t := ht.least_le
    have htoList : t.toList = (t : Leaf κ υ) := toList_leaf t
    rwa [htoList, Nat.pow_zero, Nat.one_mul]
  | succ h ih =>
    obtain ⟨hleast, -, hchildren⟩ := ht
    rw [Nat.pow_succ', Nat.mul_assoc]
    exact mul_le_length_toList hleast fun c hc => ih (hchildren c hc)

/-- A branch that is the root has two children. -/
theorem Filled.le_length_toList_root {t : Subtree κ (Leaf κ υ) (h + 1)} (ht : t.Filled shape true) :
    2 * (((shape.order + 1) / 2) ^ h * (shape.capacity / 2)) ≤ t.toList.length :=
  mul_le_length_toList ht.least_le fun c hc => (ht.children c hc).le_length_toList

end Subtree

end RelStore
