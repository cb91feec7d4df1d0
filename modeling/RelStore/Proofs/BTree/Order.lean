import RelStore.Proofs.BTree.Descent

/-!
# Order in B+trees

`KeyRange` is the half-open range of keys that a subtree answers for, and `Subtree.Ordered r t` says
that the keys of `t`, whose leaves are lists of entries, ascend within `r`: in a leaf one by one,
and in a branch because its separators cut the range into one part for each child.  The range is
what a split needs: it says where the new separator may go in the parent, which the entries alone do
not.

On the way to a key an ordered subtree leaves only keys below it to the left and only keys above it
to the right (`Subtree.Ordered.sides`).  So a lookup in the leaf that is reached is one in the list
of all entries (`Subtree.Ordered.get?_find`), and a change of the leaf one of the list
(`Subtree.Ordered.toList_modify`).
-/

namespace RelStore

variable {κ υ γ : Type} [Ord κ]

/-! ### Comparing keys -/

section Keys

variable [Std.TransOrd κ] {a b c : κ}

omit [Std.TransOrd κ] in
theorem keyLT_iff : keyLT a b ↔ compare a b = .lt := by
  simp [keyLT, Ordering.isLT_iff_eq_lt]

theorem keyLE_iff_not_keyLT : keyLE a b ↔ ¬ keyLT b a := by
  rw [keyLT_iff, keyLE, ← Std.OrientedCmp.gt_iff_lt]
  cases compare a b <;> simp

theorem keyLT_of_not_keyLE (h : ¬ keyLE a b) : keyLT b a :=
  Decidable.not_not.1 fun h' => h (keyLE_iff_not_keyLT.2 h')

theorem keyLT_trans (hab : keyLT a b) (hbc : keyLT b c) : keyLT a c := by
  rw [keyLT_iff] at *
  exact Std.TransCmp.lt_trans hab hbc

theorem keyLT_of_keyLT_of_keyLE (hab : keyLT a b) (hbc : keyLE b c) : keyLT a c := by
  rw [keyLT_iff] at *
  exact Std.TransCmp.lt_of_lt_of_isLE hab hbc

theorem keyLT_of_keyLE_of_keyLT (hab : keyLE a b) (hbc : keyLT b c) : keyLT a c := by
  rw [keyLT_iff] at *
  exact Std.TransCmp.lt_of_isLE_of_lt hab hbc

omit [Std.TransOrd κ] in
theorem keyLE_of_keyLT (h : keyLT a b) : keyLE a b := by
  rw [keyLT_iff] at h
  simp [keyLE, h]

theorem keyLT_irrefl : ¬ keyLT a a := by
  simp [keyLT]

omit [Std.TransOrd κ] in
theorem compare_eq_lt_of_keyLT (h : keyLT a b) : compare a b = .lt := keyLT_iff.1 h

theorem compare_eq_gt_of_keyLT (h : keyLT a b) : compare b a = .gt :=
  Std.OrientedCmp.gt_iff_lt.2 (keyLT_iff.1 h)

end Keys

/-! ### Ranges of keys -/

/-- A half-open range of keys, without a bound where there is none. -/
structure KeyRange (κ : Type) where
  low : Option κ
  high : Option κ

namespace KeyRange

/-- The range of all keys. -/
def all : KeyRange κ := ⟨none, none⟩

/-- Whether a key lies in the range. -/
def Holds (r : KeyRange κ) (key : κ) : Prop :=
  (∀ low ∈ r.low, keyLE low key) ∧ ∀ high ∈ r.high, keyLT key high

/-- Whether a separator cuts the range into two: it lies strictly inside. -/
def Cuts (r : KeyRange κ) (separator : κ) : Prop :=
  (∀ low ∈ r.low, keyLT low separator) ∧ ∀ high ∈ r.high, keyLT separator high

/-- The part of the range below a separator. -/
def below (r : KeyRange κ) (separator : κ) : KeyRange κ := ⟨r.low, some separator⟩

/-- The part of the range from a separator on. -/
def above (r : KeyRange κ) (separator : κ) : KeyRange κ := ⟨some separator, r.high⟩

@[simp] theorem holds_all (key : κ) : (all : KeyRange κ).Holds key := by
  simp [Holds, all]

variable {r : KeyRange κ} {s s' key : κ}

theorem holds_below_iff : (r.below s).Holds key ↔ (∀ low ∈ r.low, keyLE low key) ∧ keyLT key s := by
  simp [Holds, below]

theorem holds_above_iff : (r.above s).Holds key ↔ keyLE s key ∧ ∀ high ∈ r.high, keyLT key high := by
  simp [Holds, above]

theorem cuts_below_iff : (r.below s).Cuts s' ↔ (∀ low ∈ r.low, keyLT low s') ∧ keyLT s' s := by
  simp [Cuts, below]

theorem cuts_above_iff : (r.above s).Cuts s' ↔ keyLT s s' ∧ ∀ high ∈ r.high, keyLT s' high := by
  simp [Cuts, above]

theorem Holds.below (h : r.Holds key) (hs : keyLT key s) : (r.below s).Holds key :=
  holds_below_iff.2 ⟨h.1, hs⟩

theorem Holds.above (h : r.Holds key) (hs : keyLE s key) : (r.above s).Holds key :=
  holds_above_iff.2 ⟨hs, h.2⟩

variable [Std.TransOrd κ]

theorem Cuts.holds_of_below (hs : r.Cuts s) (h : (r.below s).Holds key) : r.Holds key := by
  obtain ⟨hlow, hkey⟩ := holds_below_iff.1 h
  exact ⟨hlow, fun high hh => keyLT_trans hkey (hs.2 high hh)⟩

theorem Cuts.holds_of_above (hs : r.Cuts s) (h : (r.above s).Holds key) : r.Holds key := by
  obtain ⟨hkey, hhigh⟩ := holds_above_iff.1 h
  exact ⟨fun low hl => keyLE_of_keyLT (keyLT_of_keyLT_of_keyLE (hs.1 low hl) hkey), hhigh⟩

/-- A separator of the lower part cuts the whole range. -/
theorem Cuts.of_below (hs : r.Cuts s) (h : (r.below s).Cuts s') : r.Cuts s' := by
  obtain ⟨hlow, hlt⟩ := cuts_below_iff.1 h
  exact ⟨hlow, fun high hh => keyLT_trans hlt (hs.2 high hh)⟩

/-- A separator of the upper part cuts the whole range. -/
theorem Cuts.of_above (hs : r.Cuts s) (h : (r.above s).Cuts s') : r.Cuts s' := by
  obtain ⟨hlt, hhigh⟩ := cuts_above_iff.1 h
  exact ⟨fun low hl => keyLT_trans (hs.1 low hl) hlt, hhigh⟩

end KeyRange

/-! ### Ascending entries -/

namespace Leaf

/-- The keys ascend. -/
def Ascending (leaf : Leaf κ υ) : Prop :=
  leaf.Pairwise fun a b => keyLT a.1 b.1

/-- The keys ascend within a range. -/
def Ordered (r : KeyRange κ) (leaf : Leaf κ υ) : Prop :=
  Ascending leaf ∧ ∀ e ∈ leaf, r.Holds e.1

theorem ascending_append_iff {l₁ l₂ : Leaf κ υ} :
    Ascending (l₁ ++ l₂) ↔
      Ascending l₁ ∧ Ascending l₂ ∧ ∀ a ∈ l₁, ∀ b ∈ l₂, keyLT a.1 b.1 :=
  List.pairwise_append

theorem modify_append (key : κ) (f : υ → υ) (l₁ l₂ : Leaf κ υ) :
    modify key f (l₁ ++ l₂) = modify key f l₁ ++ modify key f l₂ :=
  List.map_append

@[simp] theorem modify_nil (key : κ) (f : υ → υ) : modify key f ([] : Leaf κ υ) = [] := rfl

/-- Without the key nothing is changed. -/
theorem modify_of_ne {key : κ} {f : υ → υ} {l : Leaf κ υ}
    (h : ∀ e ∈ l, compare e.1 key ≠ .eq) : modify key f l = l := by
  calc modify key f l
      = l.map id := List.map_congr_left fun e he => by simp [h e he]
    _ = l := List.map_id l

/-- A change of values leaves the keys. -/
theorem map_fst_modify (key : κ) (f : υ → υ) (l : Leaf κ υ) :
    (modify key f l).map (·.1) = l.map (·.1) := by
  unfold modify
  rw [List.map_map]
  apply List.map_congr_left
  intro e _
  simp only [Function.comp_apply]
  split <;> rfl

theorem Ascending.iff_map_fst {l : Leaf κ υ} :
    Ascending l ↔ (l.map (·.1)).Pairwise fun a b => keyLT a b := by
  rw [Ascending, List.pairwise_map]

theorem Ascending.modify {l : Leaf κ υ} (h : Ascending l) (key : κ) (f : υ → υ) :
    Ascending (modify key f l) := by
  rwa [iff_map_fst, map_fst_modify, ← iff_map_fst]

theorem Ordered.modify {r : KeyRange κ} {l : Leaf κ υ} (h : Ordered r l) (key : κ) (f : υ → υ) :
    Ordered r (modify key f l) := by
  refine ⟨h.1.modify key f, fun e he => ?_⟩
  have hmem : e.1 ∈ (Leaf.modify key f l).map (·.1) := List.mem_map_of_mem he
  rw [map_fst_modify] at hmem
  obtain ⟨e', he', heq⟩ := List.mem_map.1 hmem
  exact heq ▸ h.2 e' he'

variable [Std.TransOrd κ] {key : κ} {l₁ l₂ : Leaf κ υ}

omit [Std.TransOrd κ] in
/-- Keys below the one looked up do not matter. -/
theorem get?_append_of_lt (h : ∀ e ∈ l₁, keyLT e.1 key) : get? key (l₁ ++ l₂) = get? key l₂ := by
  have hnone : l₁.find? (fun e => compare e.1 key == .eq) = none := by
    rw [List.find?_eq_none]
    intro e he
    simp [compare_eq_lt_of_keyLT (h e he)]
  unfold get?
  rw [List.find?_append, hnone, Option.none_or]

/-- Keys above the one looked up do not matter. -/
theorem get?_append_of_gt (h : ∀ e ∈ l₂, keyLT key e.1) : get? key (l₁ ++ l₂) = get? key l₁ := by
  have hnone : l₂.find? (fun e => compare e.1 key == .eq) = none := by
    rw [List.find?_eq_none]
    intro e he
    simp [compare_eq_gt_of_keyLT (h e he)]
  unfold get?
  rw [List.find?_append, hnone, Option.or_none]

omit [Std.TransOrd κ] in
theorem modify_append_of_lt (f : υ → υ) (h : ∀ e ∈ l₁, keyLT e.1 key) :
    modify key f (l₁ ++ l₂) = l₁ ++ modify key f l₂ := by
  rw [modify_append, modify_of_ne fun e he => by simp [compare_eq_lt_of_keyLT (h e he)]]

theorem modify_append_of_gt (f : υ → υ) (h : ∀ e ∈ l₂, keyLT key e.1) :
    modify key f (l₁ ++ l₂) = modify key f l₁ ++ l₂ := by
  rw [modify_append, modify_of_ne (l := l₂) fun e he => by simp [compare_eq_gt_of_keyLT (h e he)]]

end Leaf

/-! ### Ordered subtrees -/

namespace Branch

/-- The separators ascend strictly within a range, and each child satisfies `p` on the part of the
range that the separators leave it. -/
def Separated (p : KeyRange κ → γ → Prop) : KeyRange κ → γ → List (κ × γ) → Prop
  | r, child, [] => p r child
  | r, child, (s, next) :: rest =>
    r.Cuts s ∧ p (r.below s) child ∧ Separated p (r.above s) next rest

variable {p : KeyRange κ → γ → Prop} {r : KeyRange κ} {child : γ} {rest : List (κ × γ)}

/-- Each child satisfies `p` on some part of the range. -/
theorem Separated.exists_of_mem (h : Separated p r child rest) :
    ∀ c ∈ child :: rest.map (·.2), ∃ r, p r c := by
  induction rest generalizing r child with
  | nil => exact List.forall_mem_singleton.2 ⟨r, h⟩
  | cons c rest ih => exact List.forall_mem_cons.2 ⟨⟨_, h.2.1⟩, ih h.2.2⟩

/-- A change of the child on the way to a key leaves the separators in their places. -/
theorem separated_modify (key : κ) {f : γ → γ} (hf : ∀ {r c}, p r c → p r (f c)) {b : Branch κ γ}
    (hs : Separated p r b.first b.rest) :
    Separated p r (b.modify key f).first (b.modify key f).rest := by
  obtain ⟨child, rest⟩ := b
  show Separated p r (modify.go key f child rest).first (modify.go key f child rest).rest
  induction rest generalizing r child with
  | nil => exact hf hs
  | cons c rest ih =>
    obtain ⟨hcut, hchild, hrest⟩ := hs
    rw [modify.go]
    split
    · exact ⟨hcut, hchild, ih _ hrest⟩
    · exact ⟨hcut, hf hchild, hrest⟩

end Branch

namespace Subtree

/-- The entries from left to right. -/
def toList {h : Nat} (t : Subtree κ (Leaf κ υ) h) : List (κ × υ) :=
  t.leaves.flatten

/-- The keys ascend within a range and the separators agree with them; only a leaf on its own may be
empty. -/
def Ordered : {h : Nat} → KeyRange κ → Subtree κ (Leaf κ υ) h → Prop
  | 0, r, leaf => Leaf.Ordered r leaf
  | h + 1, r, b =>
    Branch.Separated (fun r t => Ordered (h := h) r t ∧ t.toList ≠ []) r (Branch.first b)
      (Branch.rest b)

/-- What the children of an ordered branch satisfy. -/
abbrev OrderedChild {h : Nat} (r : KeyRange κ) (t : Subtree κ (Leaf κ υ) h) : Prop :=
  t.Ordered r ∧ t.toList ≠ []

section Entries

variable {h : Nat} {r : KeyRange κ} {child next : Subtree κ (Leaf κ υ) h} {s : κ}
  {rest : List (κ × Subtree κ (Leaf κ υ) h)}

omit [Ord κ] in
@[simp] theorem toList_leaf (leaf : Leaf κ υ) : toList (κ := κ) (h := 0) leaf = leaf :=
  List.append_nil leaf

omit [Ord κ] in
theorem flatten_flatMap_leaves (l : List (Subtree κ (Leaf κ υ) h)) :
    (l.flatMap leaves).flatten = l.flatMap toList := by
  rw [List.flatMap_def, List.flatten_flatten, List.map_map, List.flatMap_def]
  rfl

omit [Ord κ] in
theorem toList_branch (b : Branch κ (Subtree κ (Leaf κ υ) h)) :
    toList (h := h + 1) b = b.children.flatMap toList :=
  flatten_flatMap_leaves b.children

/-- The entries around the way to a key. -/
theorem toList_eq (key : κ) (t : Subtree κ (Leaf κ υ) h) :
    t.toList = (t.leftOf key).flatten ++ (t.find key ++ (t.rightOf key).flatten) := by
  rw [toList, leaves_eq key, List.flatten_append, List.flatten_cons]

/-- The entries of a child and of those to its right. -/
def entriesFrom (child : Subtree κ (Leaf κ υ) h) (rest : List (κ × Subtree κ (Leaf κ υ) h)) :
    List (κ × υ) :=
  child.toList ++ rest.flatMap (·.2.toList)

omit [Ord κ] in
@[simp] theorem entriesFrom_nil : entriesFrom child [] = child.toList := by
  simp [entriesFrom]

omit [Ord κ] in
@[simp] theorem entriesFrom_cons :
    entriesFrom child ((s, next) :: rest) = child.toList ++ entriesFrom next rest := by
  simp [entriesFrom]

omit [Ord κ] in
theorem toList_branch_eq (b : Branch κ (Subtree κ (Leaf κ υ) h)) :
    toList (h := h + 1) b = entriesFrom b.first b.rest := by
  rw [toList_branch, Branch.children, List.flatMap_cons, List.flatMap_map, entriesFrom]

variable [Std.TransOrd κ] {p : KeyRange κ → Subtree κ (Leaf κ υ) h → Prop}

theorem holds_of_separated (hp : ∀ r t, p r t → ∀ e ∈ t.toList, r.Holds e.1)
    (hs : Branch.Separated p r child rest) : ∀ e ∈ entriesFrom child rest, r.Holds e.1 := by
  induction rest generalizing r child with
  | nil => simpa using hp r child hs
  | cons c rest ih =>
    obtain ⟨hcut, hchild, hrest⟩ := hs
    intro e he
    rw [entriesFrom_cons, List.mem_append] at he
    rcases he with he | he
    · exact hcut.holds_of_below (hp _ _ hchild e he)
    · exact hcut.holds_of_above (ih hrest e he)

/-- The separator lies between the entries to its left and those to its right. -/
theorem between_of_separated (hp : ∀ r t, p r t → ∀ e ∈ t.toList, r.Holds e.1)
    (hs : Branch.Separated p r child ((s, next) :: rest)) :
    (∀ e ∈ child.toList, keyLT e.1 s) ∧ ∀ e ∈ entriesFrom next rest, keyLE s e.1 :=
  ⟨fun e he => (KeyRange.holds_below_iff.1 (hp _ _ hs.2.1 e he)).2,
    fun e he => (KeyRange.holds_above_iff.1 (holds_of_separated hp hs.2.2 e he)).1⟩

theorem ascending_of_separated (hp : ∀ r t, p r t → ∀ e ∈ t.toList, r.Holds e.1)
    (ha : ∀ r t, p r t → Leaf.Ascending t.toList) (hs : Branch.Separated p r child rest) :
    Leaf.Ascending (entriesFrom child rest) := by
  induction rest generalizing r child with
  | nil => simpa using ha r child hs
  | cons c rest ih =>
    obtain ⟨hleft, hright⟩ := between_of_separated hp hs
    rw [entriesFrom_cons, Leaf.ascending_append_iff]
    exact ⟨ha _ _ hs.2.1, ih hs.2.2,
      fun a ha b hb => keyLT_of_keyLT_of_keyLE (hleft a ha) (hright b hb)⟩

/-- The children on both sides of the way to a key. -/
theorem sides_of_separated (key : κ) (hp : ∀ r t, p r t → ∀ e ∈ t.toList, r.Holds e.1)
    {b : Branch κ (Subtree κ (Leaf κ υ) h)} (hs : Branch.Separated p r b.first b.rest) :
    (∀ e ∈ (b.passed key).flatMap toList, keyLT e.1 key) ∧
      ∀ e ∈ ((b.descend key).rest.map (·.2)).flatMap toList, keyLT key e.1 := by
  obtain ⟨child, rest⟩ := b
  show (∀ e ∈ (Branch.passed.go key child rest).flatMap toList, keyLT e.1 key) ∧
    ∀ e ∈ ((Branch.descend.go key child rest).rest.map (·.2)).flatMap toList, keyLT key e.1
  induction rest generalizing r child with
  | nil => simp [Branch.passed.go, Branch.descend.go]
  | cons c rest ih =>
    obtain ⟨hleft, hright⟩ := between_of_separated hp hs
    rw [Branch.passed.go, Branch.descend.go]
    split
    · next hle =>
      obtain ⟨hbelow, habove⟩ := ih c.2 hs.2.2
      rw [List.flatMap_cons, List.forall_mem_append]
      exact ⟨⟨fun e he => keyLT_of_keyLT_of_keyLE (hleft e he) hle, hbelow⟩, habove⟩
    · next hle =>
      have hlt := keyLT_of_not_keyLE hle
      refine ⟨by simp, fun e he => keyLT_of_keyLT_of_keyLE hlt (hright e ?_)⟩
      rwa [List.map_cons, List.flatMap_cons, List.flatMap_map] at he

end Entries

variable {h : Nat} {r : KeyRange κ}

theorem ordered_branch_iff {b : Branch κ (Subtree κ (Leaf κ υ) h)} :
    Ordered r (h := h + 1) b ↔ Branch.Separated OrderedChild r b.first b.rest :=
  Iff.rfl

variable {t : Subtree κ (Leaf κ υ) h}

/-! ### Edges -/

/-- The leaves of a subtree that is not empty are not empty. -/
theorem OrderedChild.leaf_ne_nil (ht : OrderedChild r t) : ∀ leaf ∈ t.leaves, leaf ≠ [] := by
  induction t using induction generalizing r with
  | leaf leaf =>
    exact List.forall_mem_singleton.2 fun hnil => ht.2 ((toList_leaf leaf).trans hnil)
  | branch h b ih =>
    intro leaf hleaf
    obtain ⟨c, hc, hleaf⟩ := List.mem_flatMap.1 hleaf
    obtain ⟨r', hchild⟩ := (ordered_branch_iff.1 ht.1).exists_of_mem c hc
    exact ih c hchild leaf hleaf

/-- The first leaf has the first entry. -/
theorem Ordered.head?_toList (ht : t.Ordered r) {leaf : Leaf κ υ}
    (hleaf : t.leaves.head? = some leaf) : leaf.head? = t.toList.head? := by
  obtain ⟨later, hleaves⟩ := List.head?_eq_some_iff.1 hleaf
  by_cases hnil : t.toList = []
  · have hall := List.flatten_eq_nil_iff.1 hnil leaf (hleaves ▸ List.mem_cons_self)
    rw [hall, hnil]
  · have hne := OrderedChild.leaf_ne_nil ⟨ht, hnil⟩ leaf (hleaves ▸ List.mem_cons_self)
    obtain ⟨e, rest, rfl⟩ := List.exists_cons_of_ne_nil hne
    rw [toList, hleaves]
    rfl

/-- The last leaf has the last entry. -/
theorem Ordered.getLast?_toList (ht : t.Ordered r) : t.last.getLast? = t.toList.getLast? := by
  obtain ⟨before, hleaves⟩ := List.getLast?_eq_some_iff.1 t.getLast?_leaves
  have hmem : t.last ∈ t.leaves := hleaves ▸ by simp
  by_cases hnil : t.toList = []
  · rw [List.flatten_eq_nil_iff.1 hnil _ hmem, hnil]
  · have hne := OrderedChild.leaf_ne_nil ⟨ht, hnil⟩ _ hmem
    rw [toList, hleaves, List.flatten_append, List.flatten_singleton, List.getLast?_append,
      List.getLast?_eq_some_getLast hne, Option.some_or]

/-! ### Ascending entries -/

variable [Std.TransOrd κ]

/-- The keys of an ordered subtree lie in its range. -/
theorem Ordered.holds (ht : t.Ordered r) : ∀ e ∈ t.toList, r.Holds e.1 := by
  induction t using induction generalizing r with
  | leaf leaf =>
    rw [toList_leaf]
    exact ht.2
  | branch h b ih =>
    rw [toList_branch_eq]
    exact holds_of_separated (fun r t ht => ih t ht.1) ht

/-- The keys of an ordered subtree ascend. -/
theorem Ordered.ascending (ht : t.Ordered r) : Leaf.Ascending t.toList := by
  induction t using induction generalizing r with
  | leaf leaf =>
    rw [toList_leaf]
    exact ht.1
  | branch h b ih =>
    rw [toList_branch_eq]
    exact ascending_of_separated (fun r t ht => ht.1.holds) (fun r t ht => ih t ht.1) ht

/-! ### Lookups and changes of values -/

theorem Ordered.ascending_find (ht : t.Ordered r) (key : κ) : Leaf.Ascending (t.find key) := by
  have hasc := ht.ascending
  rw [toList_eq key] at hasc
  exact (Leaf.ascending_append_iff.1 (Leaf.ascending_append_iff.1 hasc).2.1).1

/-- The leaves to the left of the way to a key hold keys below it, those to the right keys above. -/
theorem Ordered.sides (key : κ) (ht : t.Ordered r) :
    (∀ e ∈ (t.leftOf key).flatten, keyLT e.1 key) ∧
      ∀ e ∈ (t.rightOf key).flatten, keyLT key e.1 := by
  induction t using induction generalizing r with
  | leaf leaf => simp [leftOf, rightOf]
  | branch h b ih =>
    have hs := ordered_branch_iff.1 ht
    obtain ⟨r', hchild, -⟩ := hs.exists_of_mem _ (b.first_descend_mem key)
    obtain ⟨hbelow, habove⟩ := ih _ hchild
    obtain ⟨hpassed, hrest⟩ := sides_of_separated key (fun r t ht => ht.1.holds) hs
    rw [leftOf_branch, rightOf_branch, List.flatten_append, List.flatten_append,
      flatten_flatMap_leaves, flatten_flatMap_leaves, List.forall_mem_append,
      List.forall_mem_append]
    exact ⟨⟨hpassed, hbelow⟩, habove, hrest⟩

/-- A lookup in the leaf on the way to a key is one in all entries. -/
theorem Ordered.get?_find (ht : t.Ordered r) (key : κ) :
    Leaf.get? key (t.find key) = Leaf.get? key t.toList := by
  obtain ⟨hleft, hright⟩ := ht.sides key
  rw [toList_eq key, Leaf.get?_append_of_lt hleft, Leaf.get?_append_of_gt hright]

/-- A change of the value of a key is one in all entries. -/
theorem Ordered.toList_modify (ht : t.Ordered r) (key : κ) (f : υ → υ) :
    (t.modify key (Leaf.modify key f)).toList = Leaf.modify key f t.toList := by
  obtain ⟨hleft, hright⟩ := ht.sides key
  rw [toList_eq key t, Leaf.modify_append_of_lt f hleft, Leaf.modify_append_of_gt f hright, toList,
    leaves_modify, List.flatten_append, List.flatten_cons]

theorem Ordered.modify (ht : t.Ordered r) (key : κ) (f : υ → υ) :
    (t.modify key (Leaf.modify key f)).Ordered r := by
  induction t using induction generalizing r with
  | leaf leaf => exact Leaf.Ordered.modify ht key f
  | branch h b ih =>
    refine Branch.separated_modify key (fun {r c} hc => ⟨ih c hc.1, ?_⟩) (ordered_branch_iff.1 ht)
    rw [hc.1.toList_modify]
    exact fun hnil => hc.2 (List.map_eq_nil_iff.1 hnil)

end Subtree

end RelStore
