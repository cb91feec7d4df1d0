import RelStore.Proofs.BTree.Order

/-!
# Insertion into ordered B+trees

`Rooted.insert` is insertion into a tree whose leaves are lists of entries.  In an ordered tree it
is insertion into the list of all entries (`Rooted.toList_insert`), and it leaves the tree ordered
(`Rooted.ordered_insert`).  A node that grows may split: `Grown.Ordered` says that the new separator
cuts the node's range and that each half keeps to its side, so that both halves may take the node's
place in its parent.  When the root splits, the halves become the children of a new root.
-/

namespace RelStore

variable {κ υ γ : Type} [Ord κ]

/-! ### Insertion into the list of entries -/

namespace Leaf

/-- Gives a key a value, in the order of the keys. -/
def insert (key : κ) (value : υ) : Leaf κ υ → Leaf κ υ
  | [] => [(key, value)]
  | (k, v) :: rest =>
    match compare key k with
    | .lt => (key, value) :: (k, v) :: rest
    | .eq => (k, value) :: rest
    | .gt => (k, v) :: insert key value rest

theorem snd_put (key : κ) (value : υ) (l : Leaf κ υ) : (put key value l).2 = insert key value l := by
  induction l with
  | nil => rfl
  | cons e l ih =>
    rw [put, insert, ← ih]
    cases compare key e.1 <;> rfl

/-- A property of keys that holds of the old keys and the new one holds after the insertion. -/
theorem forall_insert (p : κ → Prop) {key : κ} {value : υ} {l : Leaf κ υ} (hkey : p key)
    (hl : ∀ e ∈ l, p e.1) : ∀ e ∈ insert key value l, p e.1 := by
  induction l with
  | nil => simpa [insert] using hkey
  | cons e l ih =>
    rw [List.forall_mem_cons] at hl
    unfold insert
    split
    · exact List.forall_mem_cons.2 ⟨hkey, List.forall_mem_cons.2 hl⟩
    · exact List.forall_mem_cons.2 hl
    · exact List.forall_mem_cons.2 ⟨hl.1, ih hl.2⟩

theorem insert_ne_nil (key : κ) (value : υ) (l : Leaf κ υ) : insert key value l ≠ [] := by
  cases l with
  | nil => simp [insert]
  | cons e l =>
    unfold insert
    split <;> simp

/-- Entries above the new key stay behind it. -/
theorem insert_append_of_gt {key : κ} {value : υ} {l₁ l₂ : Leaf κ υ}
    (h : ∀ e ∈ l₂, keyLT key e.1) : insert key value (l₁ ++ l₂) = insert key value l₁ ++ l₂ := by
  induction l₁ with
  | nil =>
    cases l₂ with
    | nil => rfl
    | cons e l₂ =>
      have hlt := compare_eq_lt_of_keyLT (h e List.mem_cons_self)
      simp [insert, hlt]
  | cons e l₁ ih =>
    simp only [List.cons_append, insert, ih]
    split <;> rfl

variable [Std.TransOrd κ]

/-- Entries below the new key stay before it. -/
theorem insert_append_of_lt {key : κ} {value : υ} {l₁ l₂ : Leaf κ υ}
    (h : ∀ e ∈ l₁, keyLT e.1 key) : insert key value (l₁ ++ l₂) = l₁ ++ insert key value l₂ := by
  induction l₁ with
  | nil => rfl
  | cons e l₁ ih =>
    rw [List.forall_mem_cons] at h
    simp only [List.cons_append, insert, compare_eq_gt_of_keyLT h.1, ih h.2]

/-- What a key had is what a lookup finds. -/
theorem Ascending.fst_put {l : Leaf κ υ} (h : Ascending l) (key : κ) (value : υ) :
    (put key value l).1 = get? key l := by
  induction l with
  | nil => rfl
  | cons e l ih =>
    obtain ⟨hhead, htail⟩ := List.pairwise_cons.1 h
    rw [put]
    split
    · next hlt =>
      have hgt : ∀ b ∈ e :: l, keyLT key b.1 := List.forall_mem_cons.2
        ⟨keyLT_iff.2 hlt, fun b hb => keyLT_trans (keyLT_iff.2 hlt) (hhead b hb)⟩
      have hnone : get? key ([] ++ e :: l) = get? key [] := get?_append_of_gt hgt
      exact hnone.symm
    · next heq =>
      have heq' : compare e.1 key = .eq := Std.OrientedCmp.eq_symm heq
      simp [get?, heq']
    · next hgt =>
      have hlt : keyLT e.1 key := keyLT_iff.2 (Std.OrientedCmp.lt_of_gt hgt)
      exact (ih htail).trans (get?_append_of_lt (List.forall_mem_singleton.2 hlt)).symm

theorem Ascending.insert {l : Leaf κ υ} (h : Ascending l) (key : κ) (value : υ) :
    Ascending (insert key value l) := by
  induction l with
  | nil => simp [Leaf.insert, Ascending]
  | cons e l ih =>
    obtain ⟨hhead, htail⟩ := List.pairwise_cons.1 h
    unfold Leaf.insert
    split
    · next hlt =>
      have hlt' : keyLT key e.1 := keyLT_iff.2 hlt
      refine List.pairwise_cons.2 ⟨?_, h⟩
      exact List.forall_mem_cons.2 ⟨hlt', fun e' he' => keyLT_trans hlt' (hhead e' he')⟩
    · exact List.pairwise_cons.2 ⟨hhead, htail⟩
    · next hgt =>
      have hlt : keyLT e.1 key := keyLT_iff.2 (Std.OrientedCmp.lt_of_gt hgt)
      exact List.pairwise_cons.2 ⟨forall_insert (keyLT e.1 ·) hlt hhead, ih htail⟩

theorem Ordered.insert {r : KeyRange κ} {key : κ} {l : Leaf κ υ} (h : Ordered r l)
    (hkey : r.Holds key) (value : υ) : Ordered r (insert key value l) :=
  ⟨h.1.insert key value, forall_insert r.Holds hkey h.2⟩

end Leaf

/-! ### Nodes that grow -/

namespace Grown

/-- Where a node splits, the separator cuts its range, and either way each part satisfies `p` on its
part of the range. -/
def Ordered (p : KeyRange κ → γ → Prop) (r : KeyRange κ) : Grown κ γ → Prop
  | whole node => p r node
  | split left s right => r.Cuts s ∧ p (r.below s) left ∧ p (r.above s) right

theorem Ordered.imp {p q : KeyRange κ → γ → Prop} {r : KeyRange κ} {g : Grown κ γ}
    (hpq : ∀ r node, p r node → q r node) (h : g.Ordered p r) : g.Ordered q r := by
  cases g with
  | whole node => exact hpq _ _ h
  | split left s right => exact ⟨h.1, hpq _ _ h.2.1, hpq _ _ h.2.2⟩

end Grown

namespace Leaf

omit [Ord κ] in
/-- A leaf that splits hands its entries to its halves. -/
theorem flatten_settle (shape : Shape) (leaf : Leaf κ υ) :
    (settle shape leaf).nodes.flatten = leaf := by
  unfold settle
  split
  · exact List.flatten_singleton
  · split
    · exact List.flatten_singleton
    · next hdrop =>
      have happ := List.take_append_drop (leaf.length / 2) leaf
      rw [hdrop] at happ
      simpa [Grown.nodes] using happ

omit [Ord κ] in
/-- A leaf that does not split stays as it is. -/
theorem eq_of_settle_eq_whole {shape : Shape} {leaf node : Leaf κ υ}
    (h : settle shape leaf = .whole node) : node = leaf := by
  have hflat := flatten_settle shape leaf
  rw [h] at hflat
  exact (List.flatten_singleton (l := node)).symm.trans hflat

/-- A leaf between whose entries a key lies may be cut there. -/
theorem Ordered.cut [Std.TransOrd κ] {r : KeyRange κ} {left right : Leaf κ υ} {e : κ × υ}
    (h : Ordered r (left ++ e :: right)) (hne : left ≠ []) :
    r.Cuts e.1 ∧ Ordered (r.below e.1) left ∧ Ordered (r.above e.1) (e :: right) := by
  obtain ⟨hasc, hholds⟩ := h
  obtain ⟨hleft, hright, hcross⟩ := ascending_append_iff.1 hasc
  rw [List.forall_mem_append] at hholds
  have hlt : ∀ a ∈ left, keyLT a.1 e.1 := fun a ha => hcross a ha e List.mem_cons_self
  have hge : ∀ b ∈ e :: right, keyLE e.1 b.1 := List.forall_mem_cons.2
    ⟨Std.ReflOrd.isLE_rfl, fun b hb => keyLE_of_keyLT ((List.pairwise_cons.1 hright).1 b hb)⟩
  refine ⟨⟨fun low hl => ?_, (hholds.2 e List.mem_cons_self).2⟩, ?_, ?_⟩
  · obtain ⟨a, ha⟩ := List.exists_mem_of_ne_nil left hne
    exact keyLT_of_keyLE_of_keyLT ((hholds.1 a ha).1 low hl) (hlt a ha)
  · exact ⟨hleft, fun a ha => (hholds.1 a ha).below (hlt a ha)⟩
  · exact ⟨hright, fun b hb => (hholds.2 b hb).above (hge b hb)⟩

/-- A full leaf splits between two of its entries. -/
theorem Ordered.settle [Std.TransOrd κ] (shape : Shape) {r : KeyRange κ} {leaf : Leaf κ υ}
    (h : Ordered r leaf) (hne : leaf ≠ []) :
    (settle shape leaf).Ordered (fun r leaf => Ordered r leaf ∧ leaf ≠ []) r := by
  unfold Leaf.settle
  split
  · exact ⟨h, hne⟩
  · next hfull =>
    have hcap := shape.three_le_capacity
    split
    · exact ⟨h, hne⟩
    · next e right hdrop =>
      have happ : leaf = leaf.take (leaf.length / 2) ++ e :: right := by
        rw [← hdrop, List.take_append_drop]
      have htake : leaf.take (leaf.length / 2) ≠ [] := by
        rw [← List.length_pos_iff, List.length_take]
        omega
      generalize leaf.take (leaf.length / 2) = left at happ htake
      subst happ
      obtain ⟨hcut, hleft, hright⟩ := h.cut htake
      exact ⟨hcut, ⟨hleft, htake⟩, hright, List.cons_ne_nil _ _⟩

end Leaf

/-! ### Branches that grow -/

namespace Branch

variable [Std.TransOrd κ] {p : KeyRange κ → γ → Prop} {r : KeyRange κ} {child next : γ} {s : κ}
  {rest : List (κ × γ)}

/-- A separated chain may be cut at any separator. -/
theorem separated_append_cons {left right : List (κ × γ)}
    (hs : Separated p r child (left ++ (s, next) :: right)) :
    r.Cuts s ∧ Separated p (r.below s) child left ∧ Separated p (r.above s) next right := by
  induction left generalizing r child with
  | nil => exact hs
  | cons c left ih =>
    obtain ⟨hcut, hchild, hrest⟩ := hs
    obtain ⟨hs, hleft, hright⟩ := ih hrest
    have hlt := (KeyRange.cuts_above_iff.1 hs).1
    exact ⟨hcut.of_above hs, ⟨KeyRange.cuts_below_iff.2 ⟨hcut.1, hlt⟩, hchild, hleft⟩, hright⟩

/-- A grown child may take the place of the child. -/
theorem separated_attach {g : Grown κ γ} (hcut : r.Cuts s) (hg : g.Ordered p (r.below s))
    (hrest : Separated p (r.above s) next rest) :
    Separated p r (g.attach ((s, next) :: rest)).first (g.attach ((s, next) :: rest)).rest := by
  cases g with
  | whole node => exact ⟨hcut, hg, hrest⟩
  | split a m b =>
    obtain ⟨hm, ha, hb⟩ := hg
    have hlt := (KeyRange.cuts_below_iff.1 hm).2
    exact ⟨hcut.of_below hm, ha, KeyRange.cuts_above_iff.2 ⟨hlt, hcut.2⟩, hb, hrest⟩

theorem separated_grow {key : κ} {f : γ → Grown κ γ}
    (hf : ∀ {r t}, p r t → r.Holds key → (f t).Ordered p r) (hkey : r.Holds key) {b : Branch κ γ}
    (hs : Separated p r b.first b.rest) :
    Separated p r (b.grow key f).first (b.grow key f).rest := by
  obtain ⟨child, rest⟩ := b
  show Separated p r (grow.go key f child rest).first (grow.go key f child rest).rest
  induction rest generalizing r child with
  | nil =>
    have hg := hf hs hkey
    rw [grow.go]
    cases hfc : f child with
    | whole node => rwa [hfc] at hg
    | split a m b => rwa [hfc] at hg
  | cons c rest ih =>
    obtain ⟨hcut, hchild, hrest⟩ := hs
    rw [grow.go]
    split
    · next hle => exact ⟨hcut, hchild, ih (hkey.above hle) _ hrest⟩
    · next hle =>
      exact separated_attach hcut (hf hchild (hkey.below (keyLT_of_not_keyLE hle))) hrest

/-- A full branch splits at one of its separators. -/
theorem ordered_settle (shape : Shape) {b : Branch κ γ} (hb : Separated p r b.first b.rest) :
    (b.settle shape).Ordered (fun r b => Separated p r b.first b.rest) r := by
  unfold settle
  split
  · exact hb
  · split
    · exact hb
    · next s child right hdrop =>
      have happ := List.take_append_drop (b.rest.length / 2) b.rest
      rw [hdrop] at happ
      rw [← happ] at hb
      exact separated_append_cons hb

end Branch

namespace Subtree

variable {h : Nat} {r : KeyRange κ}

theorem entriesFrom_ne_nil {child : Subtree κ (Leaf κ υ) h}
    {rest : List (κ × Subtree κ (Leaf κ υ) h)} (hs : Branch.Separated OrderedChild r child rest) :
    entriesFrom child rest ≠ [] := by
  cases rest with
  | nil => simpa using hs.2
  | cons c rest =>
    rw [entriesFrom_cons]
    exact List.append_ne_nil_of_left_ne_nil hs.2.1.2 _

/-- A branch over ordered children has entries. -/
theorem orderedChild_branch {b : Branch κ (Subtree κ (Leaf κ υ) h)}
    (hs : Branch.Separated OrderedChild r b.first b.rest) : OrderedChild (h := h + 1) r b :=
  ⟨hs, fun hnil => entriesFrom_ne_nil hs ((toList_branch_eq b).symm.trans hnil)⟩

variable [Std.TransOrd κ]

/-- An insertion of a key in range leaves a subtree ordered. -/
theorem Ordered.insert (shape : Shape) {key : κ} (hkey : r.Holds key) (value : υ)
    {t : Subtree κ (Leaf κ υ) h} (ht : t.Ordered r) :
    (t.grow shape key fun leaf => (leaf.insert key value).settle shape).Ordered OrderedChild r := by
  induction t using induction generalizing r with
  | leaf leaf =>
    refine Grown.Ordered.imp (γ := Leaf κ υ) (fun r leaf hleaf => ⟨hleaf.1, fun hnil => ?_⟩)
      (Leaf.Ordered.settle shape (Leaf.Ordered.insert ht hkey value) (Leaf.insert_ne_nil _ _ _))
    exact hleaf.2 ((toList_leaf leaf).symm.trans hnil)
  | branch h b ih =>
    rw [grow_branch]
    exact Grown.Ordered.imp (fun r b hb => orderedChild_branch hb)
      (Branch.ordered_settle shape (Branch.separated_grow (fun hc hk => ih _ hk hc.1) hkey ht))

end Subtree

namespace Rooted

variable {n : Rooted κ (Leaf κ υ)}

/-- Gives a key a value. -/
def insert (shape : Shape) (key : κ) (value : υ) (n : Rooted κ (Leaf κ υ)) : Rooted κ (Leaf κ υ) :=
  n.grow shape key fun leaf => (leaf.insert key value).settle shape

variable [Std.TransOrd κ] (shape : Shape) (key : κ) (value : υ)

/-- An insertion is one into the list of entries. -/
theorem toList_insert {r : KeyRange κ} (hn : n.root.Ordered r) :
    (n.insert shape key value).root.toList = Leaf.insert key value n.root.toList := by
  obtain ⟨hleft, hright⟩ := hn.sides key
  rw [Subtree.toList_eq key n.root, Leaf.insert_append_of_lt hleft, Leaf.insert_append_of_gt hright,
    Subtree.toList, insert, leaves_grow, List.flatten_append, List.flatten_append,
    Leaf.flatten_settle]

theorem ordered_insert (hn : n.root.Ordered .all) :
    (n.insert shape key value).root.Ordered .all := by
  have hgrown := hn.insert shape (KeyRange.holds_all key) value
  unfold insert grow
  split
  · next root hroot =>
    rw [hroot] at hgrown
    exact hgrown.1
  · next left s right hroot =>
    rw [hroot] at hgrown
    exact hgrown

end Rooted

end RelStore
