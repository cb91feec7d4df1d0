import RelStore.Proofs.BTree.Alike

/-!
# Balance of B+trees

`BTree.replay_balanced` collects what holds of every tree that actions make of an empty one: all
leaves lie equally deep, the separators guide a search (`Branch.Guided`), nodes are neither too
small nor too large (`Subtree.Filled`), the number of entries is bounded from both sides by the
height, and putting one more entry adds at most one level.  What it says of keys and of numbers of
entries is said of the nodes over the entries of the leaves (`BTree.view`).

A key that is already there gets its value in its leaf and nothing is split, so that the tree keeps
its height (`BTree.Sound.height_put_of_contains`).
-/

namespace RelStore

variable {κ υ γ : Type}

/-! ### Depths of leaves -/

namespace Subtree

/-- The level of each leaf, from left to right; the root is on level one. -/
def leafDepths : {h : Nat} → Subtree κ γ h → List Nat
  | 0, _ => [1]
  | h + 1, b => (Branch.children b).flatMap fun c => (leafDepths (h := h) c).map (· + 1)

theorem leafDepths_eq {h : Nat} (t : Subtree κ γ h) :
    t.leafDepths = List.replicate t.leaves.length (h + 1) := by
  induction t using induction with
  | leaf leaf => rfl
  | branch h b ih =>
    have hchild : ∀ c : Subtree κ γ h,
        c.leafDepths.map (· + 1) = List.replicate c.leaves.length (h + 2) := by
      intro c
      rw [ih c, List.map_replicate]
    rw [List.eq_replicate_iff]
    simp only [leafDepths, leaves, hchild, List.length_flatMap, List.length_replicate,
      List.mem_flatMap, List.mem_replicate, true_and]
    rintro d ⟨c, -, -, rfl⟩
    rfl

end Subtree

variable [Ord κ]

/-! ### Separators that guide a search -/

namespace Branch

/-- The separators from left to right. -/
def separators (b : Branch κ γ) : List κ :=
  b.rest.map (·.1)

/-- There is one separator between each child and the next; they ascend, and each is above the keys
to its left and not above the keys to its right. -/
structure Guided {h : Nat} (b : Branch κ (Subtree κ (Leaf κ υ) h)) : Prop where
  length_children : b.children.length = b.separators.length + 1
  ascending : b.separators.Pairwise fun s s' => keyLT s s'
  left : ∀ i s, b.separators[i]? = some s →
    ∀ c ∈ b.children.take (i + 1), ∀ e ∈ c.toList, keyLT e.1 s
  right : ∀ i s, b.separators[i]? = some s →
    ∀ c ∈ b.children.drop (i + 1), ∀ e ∈ c.toList, keyLE s e.1

section Separated

variable {p : KeyRange κ → γ → Prop} {r : KeyRange κ} {child : γ} {rest : List (κ × γ)}

variable [Std.TransOrd κ]

theorem Separated.cuts (h : Separated p r child rest) : ∀ c ∈ rest, r.Cuts c.1 := by
  intro c hc
  obtain ⟨left, right, rfl⟩ := List.append_of_mem hc
  exact (separated_append_cons h).1

theorem Separated.ascending (h : Separated p r child rest) :
    (rest.map (·.1)).Pairwise fun s s' => keyLT s s' := by
  induction rest generalizing r child with
  | nil => exact .nil
  | cons c rest ih =>
    refine List.pairwise_cons.2 ⟨fun s hs => ?_, ih h.2.2⟩
    obtain ⟨c', hc', rfl⟩ := List.mem_map.1 hs
    exact (KeyRange.cuts_above_iff.1 (h.2.2.cuts c' hc')).1

end Separated

end Branch

namespace Subtree

open Branch (Separated Guided)

variable {h : Nat} {r : KeyRange κ}

/-- Keys ascend in the leaves, and the separators of the branches tell where to look for a key. -/
def Searchable : {h : Nat} → Subtree κ (Leaf κ υ) h → Prop
  | 0, leaf => Leaf.Ascending leaf
  | h + 1, b => Guided (h := h) b ∧ ∀ c ∈ Branch.children b, Searchable (h := h) c

omit [Ord κ] in
theorem mem_entriesFrom {child c : Subtree κ (Leaf κ υ) h}
    {rest : List (κ × Subtree κ (Leaf κ υ) h)} (hc : c ∈ child :: rest.map (·.2)) {e : κ × υ}
    (he : e ∈ c.toList) : e ∈ entriesFrom child rest := by
  rw [entriesFrom, List.mem_append, List.mem_flatMap]
  rcases List.mem_cons.1 hc with rfl | hc
  · exact .inl he
  · obtain ⟨node, hnode, rfl⟩ := List.mem_map.1 hc
    exact .inr ⟨node, hnode, he⟩

variable [Std.TransOrd κ]

theorem guided_of_separated {b : Branch κ (Subtree κ (Leaf κ υ) h)}
    (hs : Separated OrderedChild r b.first b.rest) : b.Guided := by
  have hholds : ∀ (r : KeyRange κ) (t : Subtree κ (Leaf κ υ) h), OrderedChild r t →
      ∀ e ∈ t.toList, r.Holds e.1 := fun _ _ ht => ht.1.holds
  -- The `i`-th separator comes after the first `i` of the other children, before their tail.
  have hcut : ∀ i s, b.separators[i]? = some s → ∃ next right,
      b.rest.drop i = (s, next) :: right ∧ r.Cuts s ∧
      Separated OrderedChild (r.below s) b.first (b.rest.take i) ∧
      Separated OrderedChild (r.above s) next right := by
    intro i s hsep
    obtain ⟨⟨s, next⟩, hc, rfl⟩ := Option.map_eq_some_iff.1 ((List.getElem?_map ..).symm.trans hsep)
    obtain ⟨hi, heq⟩ := List.getElem?_eq_some_iff.1 hc
    have hdrop : b.rest.drop i = (s, next) :: b.rest.drop (i + 1) := by
      rw [List.drop_eq_getElem_cons hi, heq]
    refine ⟨next, _, hdrop, Branch.separated_append_cons ?_⟩
    rwa [← hdrop, List.take_append_drop]
  refine ⟨?_, hs.ascending, fun i s hsep c hc e he => ?_, fun i s hsep c hc e he => ?_⟩
  · rw [Branch.length_children, Branch.separators, List.length_map]
  · obtain ⟨next, right, -, -, hleft, -⟩ := hcut i s hsep
    rw [Branch.children, List.take_succ_cons, ← List.map_take] at hc
    exact (KeyRange.holds_below_iff.1
      (holds_of_separated hholds hleft e (mem_entriesFrom hc he))).2
  · obtain ⟨next, right, hdrop, -, -, hright⟩ := hcut i s hsep
    rw [Branch.children, List.drop_succ_cons, ← List.map_drop, hdrop] at hc
    exact (KeyRange.holds_above_iff.1
      (holds_of_separated hholds hright e (mem_entriesFrom hc he))).1

theorem Ordered.searchable {t : Subtree κ (Leaf κ υ) h} (ht : t.Ordered r) : t.Searchable := by
  induction t using induction generalizing r with
  | leaf leaf => exact ht.1
  | branch h b ih =>
    refine ⟨guided_of_separated ht, fun c hc => ?_⟩
    obtain ⟨r', hord, -⟩ := Separated.exists_of_mem ht c hc
    exact ih c hord

end Subtree

/-! ### Heights -/

theorem Rooted.depth_grow (shape : Shape) (key : κ) (f : γ → Grown κ γ) (n : Rooted κ γ) :
    n.depth ≤ (n.grow shape key f).depth ∧ (n.grow shape key f).depth ≤ n.depth + 1 := by
  unfold grow
  split <;> simp

namespace BTree

variable {t : BTree κ υ}

theorem height_splitFull (t : BTree κ υ) (key : κ) :
    t.height ≤ (t.splitFull key).height ∧ (t.splitFull key).height ≤ t.height + 1 := by
  unfold splitFull
  split
  · exact ⟨Nat.le_refl _, Nat.le_succ _⟩
  · next left separator right _ =>
    have hdepth := Rooted.depth_grow t.shape key (fun id => .split id separator t.leaves.size)
      t.toRooted
    exact ⟨Nat.succ_le_succ hdepth.1, Nat.succ_le_succ hdepth.2⟩

theorem height_put (t : BTree κ υ) (key : κ) (value : υ) :
    t.height ≤ (t.put key value).2.height ∧ (t.put key value).2.height ≤ t.height + 1 := by
  unfold put
  split
  · exact ⟨Nat.le_refl _, Nat.le_succ _⟩
  · exact height_splitFull { t.setLeaf key _ with size := t.size + 1 } key

variable [Std.TransOrd κ]

/-- Putting a key that is there adds no level. -/
theorem Sound.height_put_of_contains (h : t.Sound) {key : κ} (hkey : t.contains key) (value : υ) :
    (t.put key value).2.height = t.height := by
  rw [contains, ← h.fst_put key value] at hkey
  unfold BTree.put at hkey ⊢
  split at hkey
  · rfl
  · exact absurd hkey (by simp)

/-! ### Sizes -/

omit [Std.TransOrd κ] in
theorem Sound.size_le (h : t.Sound) :
    t.size ≤ (t.shape.capacity - 1) * t.shape.order ^ (t.height - 1) := by
  rw [h.size_eq]
  exact h.filled.length_toList_le

omit [Std.TransOrd κ] in
theorem Sound.le_size (h : t.Sound) (hheight : 2 ≤ t.height) :
    2 * ((t.shape.order + 1) / 2) ^ (t.height - 2) * (t.shape.capacity / 2) ≤ t.size := by
  have hfilled := h.filled
  rw [h.size_eq, entries]
  obtain ⟨⟨depth, root⟩, shape, leaves, head, size⟩ := t
  cases depth with
  | zero => exact absurd hheight (by simp [height])
  | succ depth =>
    rw [Nat.mul_assoc]
    exact hfilled.le_length_toList_root

/-! ### Runs -/

/-- Whatever is put into an empty tree, changed, loaded or cleared: the leaves lie equally deep, the
separators guide a search, all nodes are within their bounds, the size is bounded by the height, and
one more entry adds at most one level, and none if its key is there. -/
theorem replay_balanced (order capacity : Nat) (actions : List (TreeAction κ υ)) :
    let t := (replay act (empty (.ofSizes order capacity)) actions).2
    let m := max order 3
    let c := max capacity 3
    t.root.leafDepths = List.replicate t.root.leaves.length t.height ∧
      t.view.root.Searchable ∧
      t.view.root.Filled (.ofSizes order capacity) true ∧
      t.size ≤ (c - 1) * m ^ (t.height - 1) ∧
      (2 ≤ t.height → 2 * ((m + 1) / 2) ^ (t.height - 2) * (c / 2) ≤ t.size) ∧
      ∀ key value,
        t.height ≤ (t.put key value).2.height ∧ (t.put key value).2.height ≤ t.height + 1 ∧
          (t.contains key → (t.put key value).2.height = t.height) := by
  intro t m c
  have hshape : t.shape = .ofSizes order capacity := shape_replay _ actions
  have hsound : t.Sound := sound_replay _ actions
  have hle := hsound.size_le
  have hge := hsound.le_size
  have hfilled := hsound.filled
  rw [hshape] at hle hge hfilled
  refine ⟨t.root.leafDepths_eq, hsound.ordered.searchable, hfilled, hle, hge,
    fun key value => ?_⟩
  obtain ⟨hsame, hsucc⟩ := height_put t key value
  exact ⟨hsame, hsucc, fun hkey => hsound.height_put_of_contains hkey value⟩

/-- Eleven entries on three levels, which one more entry makes four. -/
theorem replay_balanced_three_levels :
    let actions : List (TreeAction Nat Nat) :=
      [.load ((List.range 8).map fun n => (n, n * n)), .put 9 0, .put 8 0, .put 10 0]
    ∃ t, (replay act (empty (.ofSizes 3 3)) actions).2 = t ∧
      t.root.leafDepths = [3, 3, 3, 3, 3, 3, 3] ∧ t.view.root.Searchable ∧
      t.view.root.Filled (.ofSizes 3 3) true ∧ 4 ≤ t.size ∧ t.size ≤ 18 ∧
      (t.put 10 1).2.height = 3 ∧ (t.put 11 1).2.height = 4 := by
  intro actions
  have h := replay_balanced 3 3 actions
  have hlinked := (sound_replay (.ofSizes 3 3) actions).linked
  have hheight : (replay act (empty (.ofSizes 3 3)) actions).2.height = 3 := by decide +kernel
  have hleaves : (replay act (empty (.ofSizes 3 3)) actions).2.leaves.size = 7 := by
    decide +kernel
  have hten : (replay act (empty (.ofSizes 3 3)) actions).2.contains 10 := by decide +kernel
  have heleven : ((replay act (empty (.ofSizes 3 3)) actions).2.put 11 1).2.height = 4 := by
    decide +kernel
  generalize (replay act (empty (.ofSizes 3 3)) actions).2 = t at *
  have hlength : t.root.leaves.length = 7 := hlinked.length_eq.trans hleaves
  simp only [hheight, hlength] at h
  obtain ⟨hdepths, hsearchable, hfilled, hle, hge, hput⟩ := h
  exact ⟨t, rfl, hdepths, hsearchable, hfilled, hge (by decide), hle, (hput 10 1).2.2 hten, heleven⟩

end BTree

end RelStore
