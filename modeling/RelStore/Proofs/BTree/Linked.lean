import RelStore.Proofs.BTree.Chain
import RelStore.Proofs.BTree.Occupancy

/-!
# B+trees and their chains of leaves

A tree has ids of leaves below its branches and the leaves themselves in an arena.  `BTree.view`
reads the entries of each leaf into the place of its id; `BTree.Linked` says that the links of the
leaves join them in the order in which the branches have their ids.  `BTree.Sound` is what holds of
every tree that is built from the empty one: the links are right, the view is ordered and its nodes
are within their bounds, and the number of entries is the one that the tree keeps.

Whatever is done to a tree is done to its view: a change of a value (`BTree.Linked.view_modify`), an
insertion (`BTree.Sound.view_put`), where a leaf that splits is two leaves both under the branches
and in the chain (`BTree.Linked.splitLeaf`), and loading, where the ids and the entries go through
the same levels (`BTree.sound_ofAscending`).
-/

namespace RelStore

variable {κ υ : Type}

namespace BTree

/-- The nodes of a tree over the entries of its leaves. -/
def view (t : BTree κ υ) : Rooted κ (Leaf κ υ) :=
  t.toRooted.map t.leaves.entries

/-- The entries in the order of the leaves under the branches. -/
def entries (t : BTree κ υ) : List (κ × υ) :=
  t.view.root.toList

/-- The chain from the head has all leaves, in the order in which they stand under the branches. -/
structure Linked (t : BTree κ υ) : Prop where
  nodup : t.root.leaves.Nodup
  length_eq : t.root.leaves.length = t.leaves.size
  head_eq : t.root.leaves.head? = some t.head
  chained : t.leaves.Chained none t.root.leaves

/-- What holds of every tree that is built from the empty one. -/
structure Sound [Ord κ] (t : BTree κ υ) : Prop where
  linked : t.Linked
  ordered : t.view.root.Ordered .all
  filled : t.view.root.Filled t.shape true
  size_eq : t.size = t.entries.length

variable {t : BTree κ υ}

@[simp] theorem leaves_view (t : BTree κ υ) :
    t.view.root.leaves = t.root.leaves.map t.leaves.entries :=
  Subtree.leaves_map _ _

theorem entries_eq (t : BTree κ υ) : t.entries = t.root.leaves.flatMap t.leaves.entries := by
  rw [entries, Subtree.toList, leaves_view]
  rfl

theorem linked_empty (shape : Shape) : (empty shape : BTree κ υ).Linked :=
  ⟨List.pairwise_singleton _ 0, rfl, rfl, rfl, trivial⟩

theorem entries_empty (shape : Shape) : (empty shape : BTree κ υ).entries = [] := rfl

variable [Ord κ]

theorem sound_empty (shape : Shape) : (empty shape : BTree κ υ).Sound where
  linked := linked_empty shape
  ordered := ⟨.nil, fun _ he => absurd he List.not_mem_nil⟩
  filled := ⟨Nat.zero_le _, Nat.zero_lt_of_lt shape.three_le_capacity⟩
  size_eq := rfl

/-! ### Readings of the leaves -/

theorem find_view (t : BTree κ υ) (key : κ) :
    t.view.root.find key = t.leaves.entries (t.root.find key) :=
  Subtree.find_map key _ _

theorem Linked.find_lt_size (h : t.Linked) (key : κ) : t.root.find key < t.leaves.size := by
  apply h.chained.lt_size
  rw [t.root.leaves_eq key]
  simp

/-- If the entries of only one leaf differ, that leaf of the view is changed. -/
theorem Linked.map_eq_modify (h : t.Linked) (key : κ) {a : Arena κ υ} {m : Leaf κ υ → Leaf κ υ}
    (hleaf : a.entries (t.root.find key) = m (t.leaves.entries (t.root.find key)))
    (hother : ∀ id < t.leaves.size, id ≠ t.root.find key → a.entries id = t.leaves.entries id) :
    t.toRooted.map a.entries = t.view.modify key m := by
  have hnodup := h.nodup
  have hlt := h.chained.lt_size
  rw [t.root.leaves_eq key] at hnodup hlt
  obtain ⟨-, hright, hleft⟩ := List.nodup_append.1 hnodup
  rw [List.forall_mem_append, List.forall_mem_cons] at hlt
  refine congrArg (Rooted.mk t.depth) (Subtree.map_eq_modify key hleaf ?_ ?_)
  · exact fun id hid => hother id (hlt.1 id hid) (hleft id hid _ List.mem_cons_self)
  · intro id hid
    have hne : id ≠ t.root.find key := fun heq => (List.nodup_cons.1 hright).1 (heq ▸ hid)
    exact hother id (hlt.2.2 id hid) hne

/-! ### Changes of entries -/

omit [Ord κ] in
theorem Linked.modifyEntries (h : t.Linked) (id : Nat) (f : Leaf κ υ → Leaf κ υ) :
    Linked { t with leaves := t.leaves.modifyEntries id f } :=
  ⟨h.nodup, h.length_eq.trans (Arena.size_modifyEntries t.leaves id f).symm, h.head_eq,
    h.chained.modifyEntries id f⟩

theorem Linked.view_modifyEntries (h : t.Linked) (key : κ) (m : Leaf κ υ → Leaf κ υ) :
    view { t with leaves := t.leaves.modifyEntries (t.root.find key) m } = t.view.modify key m :=
  h.map_eq_modify key (Arena.entries_modifyEntries_self _ _ m (h.find_lt_size key))
    fun _ _ hne => Arena.entries_modifyEntries_of_ne _ _ m hne

theorem Linked.setLeaf (h : t.Linked) (key : κ) (leaf : Leaf κ υ) : (t.setLeaf key leaf).Linked :=
  h.modifyEntries _ _

theorem Linked.view_setLeaf (h : t.Linked) (key : κ) (leaf : Leaf κ υ) :
    (t.setLeaf key leaf).view = t.view.modify key fun _ => leaf :=
  h.view_modifyEntries key _

theorem find_setLeaf (h : t.Linked) (key : κ) (leaf : Leaf κ υ) :
    (t.setLeaf key leaf).leaves.entries (t.root.find key) = leaf :=
  Arena.entries_modifyEntries_self _ _ _ (h.find_lt_size key)

theorem Linked.view_modify (h : t.Linked) (key : κ) (f : υ → υ) :
    (t.modify key f).view = t.view.modify key (Leaf.modify key f) :=
  h.view_modifyEntries key _

/-! ### Splits -/

section Split

variable (key : κ) (left : Leaf κ υ) (separator : κ) (right : Leaf κ υ)

theorem leaves_splitLeaf (t : BTree κ υ) :
    (t.splitLeaf key left separator right).root.leaves =
      t.root.leftOf key ++ t.root.find key :: t.leaves.size :: t.root.rightOf key :=
  Rooted.leaves_grow t.shape key _ t.toRooted

theorem perm_leaves_splitLeaf (t : BTree κ υ) :
    (t.splitLeaf key left separator right).root.leaves.Perm (t.leaves.size :: t.root.leaves) := by
  rw [leaves_splitLeaf, t.root.leaves_eq key]
  exact ((List.Perm.swap _ _ _).append_left _).trans List.perm_middle

/-- A leaf that splits is linked to its other half. -/
theorem Linked.splitLeaf (h : t.Linked) : (t.splitLeaf key left separator right).Linked := by
  have hleaves := leaves_splitLeaf key left separator right t
  have hperm := perm_leaves_splitLeaf key left separator right t
  have hold := t.root.leaves_eq key
  constructor
  · have hnew : t.leaves.size ∉ t.root.leaves :=
      fun hmem => Nat.lt_irrefl _ (h.chained.lt_size _ hmem)
    exact hperm.nodup_iff.2 (List.nodup_cons.2 ⟨hnew, h.nodup⟩)
  · rw [hperm.length_eq, List.length_cons, h.length_eq]
    simp [BTree.splitLeaf]
  · -- The new leaf stands behind another, so that the head stays.
    have hhead := h.head_eq
    rw [hold] at hhead
    rw [hleaves]
    cases hleft : t.root.leftOf key with
    | nil =>
      rw [hleft] at hhead
      exact hhead
    | cons id ids =>
      rw [hleft] at hhead
      exact hhead
  · have hchained := h.chained.modifyEntries (t.root.find key) fun _ => left
    have hnodup := h.nodup
    rw [hold] at hchained hnodup
    have hlinked := hchained.linkAfter hnodup right
    rw [Arena.size_modifyEntries] at hlinked
    rw [hleaves]
    exact hlinked

theorem Linked.view_splitLeaf (h : t.Linked) :
    (t.splitLeaf key left separator right).view =
      t.view.grow t.shape key fun _ => .split left separator right := by
  have hlt := h.find_lt_size key
  have hsize := Arena.size_modifyEntries t.leaves (t.root.find key) fun _ => left
  have hnew : (t.splitLeaf key left separator right).leaves.entries t.leaves.size = right := by
    rw [← hsize]
    exact Arena.entries_linkAfter_size _ _ right
  have hold : ∀ id < t.leaves.size, (t.splitLeaf key left separator right).leaves.entries id =
      (t.leaves.modifyEntries (t.root.find key) fun _ => left).entries id :=
    fun id hid => Arena.entries_linkAfter_of_ne _ _ right (hsize ▸ Nat.ne_of_lt hid)
  have hview : t.toRooted.map (t.splitLeaf key left separator right).leaves.entries =
      t.view.modify key fun _ => left := by
    refine h.map_eq_modify key ?_ fun id hid hne => ?_
    · exact (hold _ hlt).trans (Arena.entries_modifyEntries_self _ _ _ hlt)
    · exact (hold id hid).trans (Arena.entries_modifyEntries_of_ne _ _ _ hne)
  have hsplit : ∀ id, .split ((t.splitLeaf key left separator right).leaves.entries id) separator
      right = Grown.map (t.splitLeaf key left separator right).leaves.entries
        (.split id separator t.leaves.size) :=
    fun id => by rw [Grown.map, hnew]
  have hgrow := Rooted.grow_map t.shape key (fun id => .split id separator t.leaves.size)
    (fun leaf => .split leaf separator right) hsplit t.toRooted
  rw [hview, Rooted.grow_modify] at hgrow
  exact hgrow.symm

end Split

/-! ### Insertion -/

theorem Linked.splitFull (h : t.Linked) (key : κ) : (t.splitFull key).Linked := by
  unfold BTree.splitFull
  split
  · exact h
  · exact h.splitLeaf key _ _ _

omit [Ord κ] in
/-- The size does not matter to the links. -/
theorem Linked.withSize (h : t.Linked) (size : Nat) : Linked { t with size } :=
  ⟨h.nodup, h.length_eq, h.head_eq, h.chained⟩

theorem Linked.put (h : t.Linked) (key : κ) (value : υ) : (t.put key value).2.Linked := by
  unfold BTree.put
  split
  · exact h.setLeaf key _
  · exact ((h.setLeaf key _).withSize _).splitFull key

/-- An insertion is one into the view. -/
theorem Sound.view_put (h : t.Sound) (key : κ) (value : υ) :
    (t.put key value).2.view = t.view.insert t.shape key value := by
  have hlinked := h.linked
  obtain ⟨isRoot, hfind⟩ := h.filled.find key
  have hsnd := Leaf.snd_put key value (t.leaves.entries (t.root.find key))
  rw [find_view] at hfind
  unfold put
  split
  · next old entries hput =>
    -- The value is replaced, and the leaf keeps its size.
    have hold : (Leaf.put key value (t.leaves.entries (t.root.find key))).1.isSome := by simp [hput]
    rw [hput] at hsnd
    rw [hlinked.view_setLeaf, Rooted.insert, Rooted.grow_eq_modify h.filled (m := fun _ => entries)]
    rw [find_view, hfind.settle_insert hold, ← hsnd]
  · next entries hput =>
    rw [hput] at hsnd
    have hset := (hlinked.setLeaf key entries).withSize (t.size + 1)
    have hview := hlinked.view_setLeaf key entries
    have hsettle := congrArg (Leaf.settle t.shape) (find_setLeaf hlinked key entries)
    unfold splitFull
    split
    · next node hwhole =>
      have hnode := Leaf.eq_of_settle_eq_whole (hsettle.symm.trans hwhole)
      rw [Rooted.insert, Rooted.grow_eq_modify h.filled (m := fun _ => entries)]
      · exact hview
      · rw [find_view, ← hsnd, ← hsettle]
        exact hwhole.trans (congrArg Grown.whole hnode)
    · next left separator right hsplit =>
      refine (hset.view_splitLeaf key left separator right).trans ?_
      refine (congrArg (Rooted.grow t.shape key _) hview).trans ?_
      rw [Rooted.grow_modify, Rooted.insert]
      apply Rooted.grow_congr
      rw [find_view, ← hsnd]
      exact hsplit.symm.trans hsettle

theorem size_splitFull (t : BTree κ υ) (key : κ) : (t.splitFull key).size = t.size := by
  unfold splitFull
  split <;> rfl

theorem shape_splitFull (t : BTree κ υ) (key : κ) : (t.splitFull key).shape = t.shape := by
  unfold splitFull
  split <;> rfl

@[simp] theorem shape_put (t : BTree κ υ) (key : κ) (value : υ) :
    (t.put key value).2.shape = t.shape := by
  unfold put
  split
  · rfl
  · exact shape_splitFull _ key

theorem size_put (t : BTree κ υ) (key : κ) (value : υ) :
    (t.put key value).2.size = t.size + if (t.put key value).1.isSome then 0 else 1 := by
  unfold put
  split
  · rfl
  · exact size_splitFull _ key

variable [Std.TransOrd κ]

/-- The value that a key had is the one that a lookup finds. -/
theorem Sound.fst_put (h : t.Sound) (key : κ) (value : υ) : (t.put key value).1 = t.get? key := by
  have hasc : Leaf.Ascending (t.leaves.entries (t.root.find key)) := by
    rw [← find_view]
    exact h.ordered.ascending_find key
  rw [get?, ← hasc.fst_put key value, put]
  split <;> simp [*]

theorem Sound.get?_eq_entries (h : t.Sound) (key : κ) : t.get? key = Leaf.get? key t.entries := by
  rw [get?, ← find_view]
  exact h.ordered.get?_find key

theorem Sound.ascending_entries (h : t.Sound) : Leaf.Ascending t.entries :=
  h.ordered.ascending

theorem Sound.entries_put (h : t.Sound) (key : κ) (value : υ) :
    (t.put key value).2.entries = Leaf.insert key value t.entries := by
  rw [entries, h.view_put]
  exact Rooted.toList_insert t.shape key value h.ordered

theorem Sound.put (h : t.Sound) (key : κ) (value : υ) : (t.put key value).2.Sound where
  linked := h.linked.put key value
  ordered := by
    rw [h.view_put]
    exact Rooted.ordered_insert t.shape key value h.ordered
  filled := by
    rw [h.view_put, shape_put]
    exact Rooted.filled_insert h.filled key value
  size_eq := by
    rw [size_put, h.entries_put, Leaf.length_insert, h.size_eq, h.ascending_entries.fst_put,
      h.fst_put, h.get?_eq_entries]

theorem Sound.insert (h : t.Sound) (key : κ) (value : υ) : (t.insert key value).Sound :=
  h.put key value

/-! ### Changes of values -/

theorem Sound.entries_modify (h : t.Sound) (key : κ) (f : υ → υ) :
    (t.modify key f).entries = Leaf.modify key f t.entries := by
  rw [entries, h.linked.view_modify]
  exact h.ordered.toList_modify key f

theorem Sound.modify (h : t.Sound) (key : κ) (f : υ → υ) : (t.modify key f).Sound where
  linked := h.linked.modifyEntries _ _
  ordered := by
    rw [h.linked.view_modify]
    exact h.ordered.modify key f
  filled := by
    rw [h.linked.view_modify]
    exact h.filled.modify key f
  size_eq := by
    rw [h.entries_modify, Leaf.modify, List.length_map]
    exact h.size_eq

/-! ### Loading -/

section Load

variable (shape : Shape) (entries : List (κ × υ))

omit [Ord κ] [Std.TransOrd κ]

theorem flatten_groups : (Leaf.groups shape entries).flatten = entries := by
  have hc := shape.three_le_capacity
  exact flatten_cutInto_groupSizes entries (shape.capacity - 1) (by omega)

theorem ne_nil_of_mem_groups : ∀ group ∈ Leaf.groups shape entries, group ≠ [] := by
  intro group h
  have hc := shape.three_le_capacity
  have hlimit : 1 ≤ shape.capacity - 1 := by omega
  exact List.ne_nil_of_length_pos (pos_of_mem_groupSizes hlimit (length_mem_groupSizes hlimit h))

@[simp] theorem ofAscending_nil : (ofAscending shape [] : BTree κ υ) = empty shape := by
  have hnone :
      Rooted.ofLevel? shape (h := 0) (firstLevel (Leaf.groups shape ([] : Leaf κ υ))) = none := by
    rw [Leaf.groups, List.length_nil, groupSizes_zero]
    exact Rooted.ofLevel?.eq_1 shape
  rw [ofAscending, hnone]

variable {entries}

/-- The nodes are over the ids of the leaves, which are numbered from left to right. -/
theorem exists_ofAscending (hne : entries ≠ []) :
    ∃ nodes, Rooted.ofLevel? shape (h := 0) (firstLevel (Leaf.groups shape entries)) = some nodes ∧
      nodes.root.leaves = List.range (Leaf.groups shape entries).length ∧
      ofAscending shape entries =
        { toRooted := nodes, shape, leaves := .ofGroups (Leaf.groups shape entries), head := 0,
          size := entries.length } := by
  have hids := ids_firstLevel (ne_nil_of_mem_groups shape entries)
  have hlevel : firstLevel (Leaf.groups shape entries) ≠ [] := by
    intro hnil
    rw [hnil, eq_comm, List.map_nil, List.range_eq_nil, List.length_eq_zero_iff] at hids
    have hflat := flatten_groups shape entries
    rw [hids] at hflat
    exact hne hflat.symm
  obtain ⟨nodes, hnodes, hleaves⟩ := Rooted.exists_ofLevel?_zero shape hlevel
  exact ⟨nodes, hnodes, hleaves.trans hids, by rw [ofAscending, hnodes]⟩

theorem linked_ofAscending (hne : entries ≠ []) : (ofAscending shape entries).Linked := by
  obtain ⟨nodes, -, hleaves, heq⟩ := exists_ofAscending shape hne
  have hholds := Arena.holds_ofGroups (Leaf.groups shape entries)
  have hgroups : 0 < (Leaf.groups shape entries).length := by
    rw [List.length_pos_iff]
    intro hnil
    have hflat := flatten_groups shape entries
    rw [hnil] at hflat
    exact hne hflat.symm
  rw [heq]
  constructor
  · exact hleaves ▸ List.nodup_range
  · rw [hleaves, List.length_range, hholds.size_eq]
  · rw [hleaves, List.head?_range, if_neg (by omega)]
  · exact hleaves ▸ hholds.chained

/-- The loop over the levels builds the same nodes over the ids and over the groups of entries. -/
theorem view_ofAscending (hne : entries ≠ []) :
    some (ofAscending shape entries).view =
      Rooted.ofLevel? shape (h := 0) ((Leaf.groups shape entries).filterMap Leaf.keyed?) := by
  obtain ⟨nodes, hnodes, -, heq⟩ := exists_ofAscending shape hne
  have hholds := Arena.holds_ofGroups (Leaf.groups shape entries)
  calc some (ofAscending shape entries).view
      = (some nodes).map (Rooted.map (Arena.ofGroups (Leaf.groups shape entries)).entries) := by
        rw [heq]
        rfl
    _ = (Rooted.ofLevel? shape (h := 0) (firstLevel (Leaf.groups shape entries))).map _ := by
        rw [hnodes]
    _ = Rooted.ofLevel? shape (h := 0) ((firstLevel (Leaf.groups shape entries)).map fun c =>
          (c.1, (Arena.ofGroups (Leaf.groups shape entries)).entries c.2)) :=
        (Rooted.ofLevel?_zero_map shape _ _).symm
    _ = _ := congrArg (Rooted.ofLevel? shape (h := 0)) (map_firstLevel hholds.entries_eq)

variable [Ord κ] [Std.TransOrd κ]

theorem sound_ofAscending (hasc : Leaf.Ascending entries) :
    (ofAscending shape entries).Sound ∧ (ofAscending shape entries).entries = entries := by
  by_cases hne : entries = []
  · rw [hne, ofAscending_nil]
    exact ⟨sound_empty shape, entries_empty shape⟩
  have hview := view_ofAscending shape hne
  obtain ⟨nodes, -, -, heq⟩ := exists_ofAscending shape hne
  have hshape : (ofAscending shape entries).shape = shape := by rw [heq]
  have hsize : (ofAscending shape entries).size = entries.length := by rw [heq]
  have hflat := flatten_groups shape entries
  rw [← hflat] at hasc hne
  obtain ⟨view, hlevels, hordered, htoList⟩ := Rooted.exists_ofLevel?_leaves shape hne hasc
  have hfilled : view.root.Filled shape true :=
    Rooted.filled_ofLevel? (h := 0) (filled_leaves shape entries rfl) hlevels
  rw [hlevels, Option.some.injEq] at hview
  have hentries : (ofAscending shape entries).entries = entries := by
    rw [BTree.entries, hview, htoList, hflat]
  rw [hflat] at hne
  refine ⟨⟨linked_ofAscending shape hne, ?_, ?_, ?_⟩, hentries⟩
  · rwa [hview]
  · rwa [hview, hshape]
  · rw [hentries, hsize]

end Load

/-! ### Entry after entry -/

theorem Sound.foldl_insert (h : t.Sound) (l : List (κ × υ)) :
    (l.foldl (fun t e => t.insert e.1 e.2) t).Sound ∧
      (l.foldl (fun t e => t.insert e.1 e.2) t).entries =
        l.foldl (fun l e => Leaf.insert e.1 e.2 l) t.entries := by
  induction l generalizing t with
  | nil => exact ⟨h, rfl⟩
  | cons e l ih =>
    have hlater := ih (h.put e.1 e.2)
    rwa [h.entries_put] at hlater

/-- A tree that is loaded has the entries that insertions one after the other give it. -/
theorem sound_ofEntries (shape : Shape) (l : List (κ × υ)) :
    (ofEntries shape l).Sound ∧
      (ofEntries shape l).entries = l.foldl (fun l e => Leaf.insert e.1 e.2 l) [] := by
  unfold ofEntries
  split
  · next hasc =>
    have hasc : Leaf.Ascending l := Leaf.Ascending.iff_map_fst.2 (ascends_iff.1 hasc)
    have hfold := Leaf.Ascending.foldl_insert (l := []) hasc
    obtain ⟨hsound, hentries⟩ := sound_ofAscending shape hasc
    exact ⟨hsound, hentries.trans hfold.symm⟩
  · exact (sound_empty shape).foldl_insert l

section Shapes

omit [Std.TransOrd κ]

theorem shape_foldl_insert (t : BTree κ υ) (l : List (κ × υ)) :
    (l.foldl (fun t e => t.insert e.1 e.2) t).shape = t.shape := by
  induction l generalizing t with
  | nil => rfl
  | cons e l ih => exact (ih (t.insert e.1 e.2)).trans (shape_put t e.1 e.2)

theorem shape_ofEntries (shape : Shape) (l : List (κ × υ)) : (ofEntries shape l).shape = shape := by
  unfold ofEntries
  split
  · simp only [ofAscending]
    split <;> rfl
  · exact shape_foldl_insert (empty shape) l

end Shapes

end BTree

end RelStore
