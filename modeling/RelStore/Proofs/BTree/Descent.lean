import RelStore.BTree.Insert

/-!
# Descents in B+trees

A descent to a key passes the leaves to its left and leaves those to its right alone
(`Subtree.leaves_eq`).  `Subtree.modify` changes the leaf that the descent reaches, `Subtree.grow`
puts one or two in its place, and neither touches another leaf (`Subtree.leaves_modify`,
`Subtree.leaves_grow`).

What leaves are does not matter for any of this: `Subtree.map` puts other leaves in the places of
the leaves, such as entries in the places of ids, and descending and growing commute with it
(`Subtree.find_map`, `Subtree.grow_map`).  `Subtree.map_eq_modify` is the frame rule: if two ways to
read the leaves differ at the leaf on the way to a key only, one reading is a change of the other.
-/

namespace RelStore

variable {κ γ δ : Type}

/-- The nodes that have taken the place of one. -/
def Grown.nodes : Grown κ γ → List γ
  | whole node => [node]
  | split left _ right => [left, right]

/-- The same separator between other nodes. -/
def Grown.map (g : γ → δ) : Grown κ γ → Grown κ δ
  | whole node => .whole (g node)
  | split left separator right => .split (g left) separator (g right)

/-! ### Branches -/

namespace Branch

/-- The same separators between other children. -/
def map (g : γ → δ) (b : Branch κ γ) : Branch κ δ :=
  ⟨g b.first, b.rest.map fun c => (c.1, g c.2)⟩

@[simp] theorem children_map (g : γ → δ) (b : Branch κ γ) :
    (b.map g).children = b.children.map g := by
  simp [children, map]

theorem map_congr {g g' : γ → δ} {b : Branch κ γ} (hg : ∀ c ∈ b.children, g c = g' c) :
    b.map g = b.map g' := by
  obtain ⟨hfirst, hrest⟩ := List.forall_mem_cons.1 hg
  have hrest' : b.rest.map (fun c => (c.1, g c.2)) = b.rest.map fun c => (c.1, g' c.2) :=
    List.map_congr_left fun c hc => by rw [hrest c.2 (List.mem_map_of_mem hc)]
  rw [map, map, hfirst, hrest']

theorem getLast?_children (b : Branch κ γ) : b.children.getLast? = some b.last := by
  rw [children, last, List.getLast?_cons, List.getLast?_map]

theorem map_attach (g : γ → δ) (rest : List (κ × γ)) (grown : Grown κ γ) :
    (grown.attach rest).map g = (grown.map g).attach (rest.map fun c => (c.1, g c.2)) := by
  cases grown <;> rfl

theorem children_attach_eq (rest : List (κ × γ)) (grown : Grown κ γ) :
    (grown.attach rest).children = grown.nodes ++ rest.map (·.2) := by
  cases grown <;> rfl

/-- A branch that splits hands its children to its halves. -/
theorem children_settle (shape : Shape) (b : Branch κ γ) :
    (b.settle shape).nodes.flatMap children = b.children := by
  unfold settle
  split
  · simp [Grown.nodes]
  · have happ := List.take_append_drop (b.rest.length / 2) b.rest
    split
    · simp [Grown.nodes]
    · next hdrop =>
      rw [hdrop] at happ
      conv => rhs; rw [children, ← happ]
      simp [Grown.nodes, children]

theorem settle_map (shape : Shape) (g : γ → δ) (b : Branch κ γ) :
    (b.map g).settle shape = (b.settle shape).map (map g) := by
  have hlength : (b.map g).rest.length = b.rest.length := List.length_map _
  unfold settle
  rw [hlength]
  split
  · rfl
  · have hdrop : (b.map g).rest.drop (b.rest.length / 2) =
        (b.rest.drop (b.rest.length / 2)).map fun c => (c.1, g c.2) := List.map_drop.symm
    rw [hdrop]
    cases b.rest.drop (b.rest.length / 2) with
    | nil => rfl
    | cons c right => simp [Grown.map, map]

variable [Ord κ]

/-- Changes the child on the way to a key. -/
def modify (key : κ) (f : γ → γ) (b : Branch κ γ) : Branch κ γ :=
  go b.first b.rest
where
  /-- Steps right while the next separator is not above the key. -/
  go (child : γ) : List (κ × γ) → Branch κ γ
    | [] => ⟨f child, []⟩
    | (separator, next) :: rest =>
      if keyLE separator key then
        let changed := go next rest
        ⟨child, (separator, changed.first) :: changed.rest⟩
      else ⟨f child, (separator, next) :: rest⟩

/-- The children to the left of the way to a key. -/
def passed (key : κ) (b : Branch κ γ) : List γ :=
  go b.first b.rest
where
  /-- Steps right while the next separator is not above the key. -/
  go (child : γ) : List (κ × γ) → List γ
    | [] => []
    | (separator, next) :: rest => if keyLE separator key then child :: go next rest else []

variable (key : κ)

theorem children_eq (b : Branch κ γ) :
    b.children = b.passed key ++ (b.descend key).children := by
  obtain ⟨child, rest⟩ := b
  show child :: rest.map (·.2) = passed.go key child rest ++ (descend.go key child rest).children
  induction rest generalizing child with
  | nil => rfl
  | cons c rest ih =>
    rw [passed.go, descend.go]
    split
    · exact congrArg (child :: ·) (ih c.2)
    · rfl

theorem first_descend_mem (b : Branch κ γ) : (b.descend key).first ∈ b.children := by
  rw [b.children_eq key]
  exact List.mem_append_right _ List.mem_cons_self

theorem children_modify (f : γ → γ) (b : Branch κ γ) :
    (b.modify key f).children =
      b.passed key ++ f (b.descend key).first :: (b.descend key).rest.map (·.2) := by
  obtain ⟨child, rest⟩ := b
  show (modify.go key f child rest).children = passed.go key child rest ++
    f (descend.go key child rest).first :: (descend.go key child rest).rest.map (·.2)
  induction rest generalizing child with
  | nil => rfl
  | cons c rest ih =>
    rw [modify.go, passed.go, descend.go]
    split
    · exact congrArg (child :: ·) (ih c.2)
    · rfl

theorem children_grow (f : γ → Grown κ γ) (b : Branch κ γ) :
    (b.grow key f).children =
      b.passed key ++ ((f (b.descend key).first).nodes ++ (b.descend key).rest.map (·.2)) := by
  obtain ⟨child, rest⟩ := b
  show (grow.go key f child rest).children = passed.go key child rest ++
    ((f (descend.go key child rest).first).nodes ++ (descend.go key child rest).rest.map (·.2))
  induction rest generalizing child with
  | nil => exact children_attach_eq [] (f child)
  | cons c rest ih =>
    rw [grow.go, passed.go, descend.go]
    split
    · exact congrArg (child :: ·) (ih c.2)
    · exact children_attach_eq (c :: rest) (f child)

theorem descend_map (g : γ → δ) (b : Branch κ γ) :
    (b.map g).descend key = (b.descend key).map g := by
  obtain ⟨child, rest⟩ := b
  show descend.go key (g child) (rest.map fun c => (c.1, g c.2)) = (descend.go key child rest).map g
  induction rest generalizing child with
  | nil => rfl
  | cons c rest ih =>
    rw [List.map_cons, descend.go, descend.go]
    split
    · exact ih c.2
    · rfl

theorem passed_map (g : γ → δ) (b : Branch κ γ) :
    (b.map g).passed key = (b.passed key).map g := by
  obtain ⟨child, rest⟩ := b
  show passed.go key (g child) (rest.map fun c => (c.1, g c.2)) = (passed.go key child rest).map g
  induction rest generalizing child with
  | nil => rfl
  | cons c rest ih =>
    rw [List.map_cons, passed.go, passed.go]
    split
    · exact congrArg (g child :: ·) (ih c.2)
    · rfl

theorem grow_map {g : γ → δ} {f : γ → Grown κ γ} {f' : δ → Grown κ δ}
    (hf : ∀ c, f' (g c) = (f c).map g) (b : Branch κ γ) :
    (b.map g).grow key f' = (b.grow key f).map g := by
  obtain ⟨child, rest⟩ := b
  show grow.go key f' (g child) (rest.map fun c => (c.1, g c.2)) = (grow.go key f child rest).map g
  induction rest generalizing child with
  | nil =>
    rw [List.map_nil, grow.go, grow.go, hf, map_attach]
    rfl
  | cons c rest ih =>
    rw [List.map_cons, grow.go, grow.go]
    split
    · simp only [ih c.2]
      rfl
    · rw [hf, map_attach]
      rfl

/-- Only the child on the way to the key grows. -/
theorem grow_congr {f f' : γ → Grown κ γ} {b : Branch κ γ}
    (h : f (b.descend key).first = f' (b.descend key).first) : b.grow key f = b.grow key f' := by
  obtain ⟨child, rest⟩ := b
  change f (descend.go key child rest).first = f' (descend.go key child rest).first at h
  show grow.go key f child rest = grow.go key f' child rest
  induction rest generalizing child with
  | nil => exact congrArg (Grown.attach []) h
  | cons c rest ih =>
    rw [descend.go] at h
    rw [grow.go, grow.go]
    split
    · next hle =>
      rw [if_pos hle] at h
      rw [ih c.2 h]
    · next hle =>
      rw [if_neg hle] at h
      exact congrArg (Grown.attach (c :: rest)) h

/-- To change a child and then let it grow is to let it grow out of the change. -/
theorem grow_modify (f : γ → Grown κ γ) (m : γ → γ) (b : Branch κ γ) :
    (b.modify key m).grow key f = b.grow key fun c => f (m c) := by
  obtain ⟨child, rest⟩ := b
  show grow.go key f (modify.go key m child rest).first (modify.go key m child rest).rest =
    grow.go key (fun c => f (m c)) child rest
  induction rest generalizing child with
  | nil => rfl
  | cons c rest ih =>
    rw [modify.go, grow.go]
    split
    · next hle =>
      simp only [grow.go, if_pos hle]
      rw [ih c.2]
    · next hle =>
      simp only [grow.go, if_neg hle]

/-- A child that stays whole is changed. -/
theorem grow_eq_modify {f : γ → Grown κ γ} {m : γ → γ} {b : Branch κ γ}
    (h : f (b.descend key).first = .whole (m (b.descend key).first)) :
    b.grow key f = b.modify key m := by
  obtain ⟨child, rest⟩ := b
  change f (descend.go key child rest).first = .whole (m (descend.go key child rest).first) at h
  show grow.go key f child rest = modify.go key m child rest
  induction rest generalizing child with
  | nil => exact congrArg (Grown.attach []) h
  | cons c rest ih =>
    rw [descend.go] at h
    rw [grow.go, modify.go]
    split
    · next hle =>
      rw [if_pos hle] at h
      rw [ih c.2 h]
    · next hle =>
      rw [if_neg hle] at h
      exact congrArg (Grown.attach (c :: rest)) h

theorem length_rest_modify (m : γ → γ) (b : Branch κ γ) :
    (b.modify key m).rest.length = b.rest.length := by
  obtain ⟨child, rest⟩ := b
  show (modify.go key m child rest).rest.length = rest.length
  induction rest generalizing child with
  | nil => rfl
  | cons c rest ih =>
    rw [modify.go]
    split
    · exact congrArg Nat.succ (ih c.2)
    · rfl

/-- Readings of the children that differ at the child on the way to a key only. -/
theorem map_eq_modify {g g' : γ → δ} {m : δ → δ} {b : Branch κ γ}
    (hchild : g' (b.descend key).first = m (g (b.descend key).first))
    (hleft : ∀ c ∈ b.passed key, g' c = g c)
    (hright : ∀ c ∈ (b.descend key).rest.map (·.2), g' c = g c) :
    b.map g' = (b.map g).modify key m := by
  obtain ⟨child, rest⟩ := b
  change g' (descend.go key child rest).first = m (g (descend.go key child rest).first) at hchild
  change ∀ c ∈ passed.go key child rest, g' c = g c at hleft
  change ∀ c ∈ (descend.go key child rest).rest.map (·.2), g' c = g c at hright
  show map g' ⟨child, rest⟩ = modify.go key m (g child) (rest.map fun c => (c.1, g c.2))
  induction rest generalizing child with
  | nil => exact congrArg (Branch.mk · []) hchild
  | cons c rest ih =>
    rw [descend.go] at hchild hright
    rw [passed.go] at hleft
    rw [List.map_cons, modify.go]
    split
    · next hle =>
      rw [if_pos hle] at hchild hleft hright
      obtain ⟨hfirst, hleft⟩ := List.forall_mem_cons.1 hleft
      rw [← ih c.2 hchild hleft hright]
      simp [map, hfirst]
    · next hle =>
      rw [if_neg hle] at hchild hright
      have hrest : (c :: rest).map (fun c => (c.1, g' c.2)) =
          (c :: rest).map fun c => (c.1, g c.2) :=
        List.map_congr_left fun c hc => by rw [hright c.2 (List.mem_map_of_mem hc)]
      rw [map, hchild, hrest]
      rfl

end Branch

/-! ### Subtrees -/

namespace Subtree

/-- Induction on the height: a leaf, and a branch over subtrees that are one level lower. -/
@[elab_as_elim]
theorem induction {motive : (h : Nat) → Subtree κ γ h → Prop} (leaf : ∀ leaf : γ, motive 0 leaf)
    (branch : ∀ (h : Nat) (b : Branch κ (Subtree κ γ h)), (∀ t, motive h t) → motive (h + 1) b)
    {h : Nat} (t : Subtree κ γ h) : motive h t := by
  induction h with
  | zero => exact leaf t
  | succ h ih => exact branch h t ih

/-- The leaves from left to right. -/
def leaves : {h : Nat} → Subtree κ γ h → List γ
  | 0, leaf => [leaf]
  | h + 1, branch => (Branch.children branch).flatMap (leaves (h := h))

/-- The same nodes over other leaves. -/
def map (g : γ → δ) : {h : Nat} → Subtree κ γ h → Subtree κ δ h
  | 0, leaf => g leaf
  | h + 1, branch => Branch.map (map g (h := h)) branch

variable {h : Nat}

theorem leaves_branch (b : Branch κ (Subtree κ γ h)) :
    leaves (h := h + 1) b = b.children.flatMap leaves := rfl

theorem map_branch (g : γ → δ) (b : Branch κ (Subtree κ γ h)) :
    map g (h := h + 1) b = b.map (map g) := rfl

theorem last_branch (b : Branch κ (Subtree κ γ h)) : last (h := h + 1) b = b.last.last := rfl

@[simp] theorem leaves_map (g : γ → δ) (t : Subtree κ γ h) : (t.map g).leaves = t.leaves.map g := by
  induction t using induction with
  | leaf leaf => rfl
  | branch h b ih =>
    rw [map_branch, leaves_branch, leaves_branch, Branch.children_map, List.flatMap_map,
      List.map_flatMap]
    simp only [ih]

theorem map_congr {g g' : γ → δ} {t : Subtree κ γ h} (hg : ∀ leaf ∈ t.leaves, g leaf = g' leaf) :
    t.map g = t.map g' := by
  induction t using induction with
  | leaf leaf => exact hg leaf List.mem_cons_self
  | branch h b ih =>
    have hchild : ∀ c ∈ b.children, map g c = map g' c :=
      fun c hc => ih c fun leaf hleaf => hg leaf (List.mem_flatMap.2 ⟨c, hc, hleaf⟩)
    exact Branch.map_congr hchild

/-- The rightmost leaf is the last one. -/
theorem getLast?_leaves (t : Subtree κ γ h) : t.leaves.getLast? = some t.last := by
  induction t using induction with
  | leaf leaf => rfl
  | branch h b ih =>
    obtain ⟨left, hleft⟩ := List.getLast?_eq_some_iff.1 b.getLast?_children
    rw [leaves_branch, hleft, List.flatMap_append, List.flatMap_singleton, List.getLast?_append,
      ih, last_branch]
    rfl

variable [Ord κ]

/-- Changes the leaf on the way to a key. -/
def modify (key : κ) (m : γ → γ) : {h : Nat} → Subtree κ γ h → Subtree κ γ h
  | 0, leaf => m leaf
  | h + 1, branch => Branch.modify key (modify key m (h := h)) branch

/-- The leaves to the left of the way to a key. -/
def leftOf (key : κ) : {h : Nat} → Subtree κ γ h → List γ
  | 0, _ => []
  | h + 1, branch =>
    (Branch.passed key branch).flatMap (leaves (h := h)) ++
      leftOf key (h := h) (Branch.descend key branch).first

/-- The leaves to the right of the way to a key. -/
def rightOf (key : κ) : {h : Nat} → Subtree κ γ h → List γ
  | 0, _ => []
  | h + 1, branch =>
    rightOf key (h := h) (Branch.descend key branch).first ++
      ((Branch.descend key branch).rest.map (·.2)).flatMap (leaves (h := h))

section Branches

variable (key : κ) (b : Branch κ (Subtree κ γ h))

theorem find_branch : find key (h := h + 1) b = find key (b.descend key).first := rfl

theorem modify_branch (m : γ → γ) :
    modify key m (h := h + 1) b = b.modify key (modify key m) := rfl

theorem grow_branch (shape : Shape) (f : γ → Grown κ γ) :
    grow shape key f (h := h + 1) b = (b.grow key (grow shape key f)).settle shape := rfl

theorem leftOf_branch :
    leftOf key (h := h + 1) b =
      (b.passed key).flatMap leaves ++ leftOf key (b.descend key).first := rfl

theorem rightOf_branch :
    rightOf key (h := h + 1) b =
      rightOf key (b.descend key).first ++ ((b.descend key).rest.map (·.2)).flatMap leaves := rfl

end Branches

variable (key : κ)

/-! ### Leaves on the way -/

theorem leaves_eq (t : Subtree κ γ h) :
    t.leaves = t.leftOf key ++ t.find key :: t.rightOf key := by
  induction t using induction with
  | leaf leaf => rfl
  | branch h b ih =>
    rw [leaves_branch, b.children_eq key, List.flatMap_append, Branch.children, List.flatMap_cons,
      ih, leftOf_branch, rightOf_branch, find_branch]
    simp

theorem leaves_modify (m : γ → γ) (t : Subtree κ γ h) :
    (t.modify key m).leaves = t.leftOf key ++ m (t.find key) :: t.rightOf key := by
  induction t using induction with
  | leaf leaf => rfl
  | branch h b ih =>
    rw [modify_branch, leaves_branch, Branch.children_modify, List.flatMap_append,
      List.flatMap_cons, ih, leftOf_branch, rightOf_branch, find_branch]
    simp

/-- Growing puts the nodes that a leaf becomes in its place. -/
theorem leaves_grow (shape : Shape) (f : γ → Grown κ γ) (t : Subtree κ γ h) :
    (t.grow shape key f).nodes.flatMap leaves =
      t.leftOf key ++ ((f (t.find key)).nodes ++ t.rightOf key) := by
  induction t using induction with
  | leaf leaf =>
    show (f leaf).nodes.flatMap (fun leaf => [leaf]) = (f leaf).nodes ++ []
    simp
  | branch h b ih =>
    have hgrown : ((b.grow key (grow shape key f)).settle shape).nodes.flatMap
        (leaves (h := h + 1)) = (b.grow key (grow shape key f)).children.flatMap leaves := by
      rw [← Branch.children_settle shape, List.flatMap_assoc]
      rfl
    refine hgrown.trans ?_
    rw [Branch.children_grow, List.flatMap_append, List.flatMap_append, ih, leftOf_branch,
      rightOf_branch, find_branch]
    simp

/-! ### Other leaves -/

theorem find_map (g : γ → δ) (t : Subtree κ γ h) : (t.map g).find key = g (t.find key) := by
  induction t using induction with
  | leaf leaf => rfl
  | branch h b ih =>
    rw [map_branch, find_branch, find_branch, Branch.descend_map]
    exact ih _

theorem leftOf_map (g : γ → δ) (t : Subtree κ γ h) :
    (t.map g).leftOf key = (t.leftOf key).map g := by
  induction t using induction with
  | leaf leaf => rfl
  | branch h b ih =>
    rw [map_branch, leftOf_branch, leftOf_branch, Branch.descend_map, Branch.passed_map,
      List.map_append, ← ih, List.flatMap_map, List.map_flatMap]
    simp only [leaves_map]
    rfl

theorem rightOf_map (g : γ → δ) (t : Subtree κ γ h) :
    (t.map g).rightOf key = (t.rightOf key).map g := by
  induction t using induction with
  | leaf leaf => rfl
  | branch h b ih =>
    rw [map_branch, rightOf_branch, rightOf_branch, Branch.descend_map, List.map_append, ← ih,
      List.map_flatMap]
    simp only [Branch.map, List.map_map, List.flatMap_map, Function.comp_apply, leaves_map]

theorem grow_map (shape : Shape) {g : γ → δ} {f : γ → Grown κ γ} {f' : δ → Grown κ δ}
    (hf : ∀ leaf, f' (g leaf) = (f leaf).map g) (t : Subtree κ γ h) :
    (t.map g).grow shape key f' = (t.grow shape key f).map (map g) := by
  induction t using induction with
  | leaf leaf => exact hf leaf
  | branch h b ih =>
    rw [map_branch, grow_branch, grow_branch, Branch.grow_map key ih, Branch.settle_map]
    rfl

/-- Only the leaf on the way to the key grows. -/
theorem grow_congr (shape : Shape) {f f' : γ → Grown κ γ} {t : Subtree κ γ h}
    (hf : f (t.find key) = f' (t.find key)) : t.grow shape key f = t.grow shape key f' := by
  induction t using induction with
  | leaf leaf => exact hf
  | branch h b ih =>
    rw [grow_branch, grow_branch, Branch.grow_congr key (ih (b.descend key).first hf)]

/-- To change a leaf and then let it grow is to let it grow out of the change. -/
theorem grow_modify (shape : Shape) (f : γ → Grown κ γ) (m : γ → γ) (t : Subtree κ γ h) :
    (t.modify key m).grow shape key f = t.grow shape key fun leaf => f (m leaf) := by
  induction t using induction with
  | leaf leaf => rfl
  | branch h b ih =>
    rw [modify_branch, grow_branch, grow_branch, Branch.grow_modify]
    simp only [ih]
    rfl

/-- Readings of the leaves that differ at the leaf on the way to a key only. -/
theorem map_eq_modify {g g' : γ → δ} {m : δ → δ} {t : Subtree κ γ h}
    (hleaf : g' (t.find key) = m (g (t.find key)))
    (hleft : ∀ leaf ∈ t.leftOf key, g' leaf = g leaf)
    (hright : ∀ leaf ∈ t.rightOf key, g' leaf = g leaf) : t.map g' = (t.map g).modify key m := by
  induction t using induction with
  | leaf leaf => exact hleaf
  | branch h b ih =>
    rw [leftOf_branch, List.forall_mem_append] at hleft
    rw [rightOf_branch, List.forall_mem_append] at hright
    refine Branch.map_eq_modify key (ih _ hleaf hleft.2 hright.1) (fun c hc => ?_) fun c hc => ?_
    · exact map_congr fun leaf hmem => hleft.1 leaf (List.mem_flatMap.2 ⟨c, hc, hmem⟩)
    · exact map_congr fun leaf hmem => hright.2 leaf (List.mem_flatMap.2 ⟨c, hc, hmem⟩)

end Subtree

/-! ### Rooted nodes -/

namespace Rooted

/-- The same nodes over other leaves. -/
def map (g : γ → δ) (n : Rooted κ γ) : Rooted κ δ where
  depth := n.depth
  root := n.root.map g

/-- Changes the leaf on the way to a key. -/
def modify [Ord κ] (key : κ) (m : γ → γ) (n : Rooted κ γ) : Rooted κ γ where
  depth := n.depth
  root := n.root.modify key m

variable [Ord κ]

theorem grow_map (shape : Shape) (key : κ) {g : γ → δ} (f : γ → Grown κ γ) (f' : δ → Grown κ δ)
    (hf : ∀ c, f' (g c) = (f c).map g) (n : Rooted κ γ) :
    (n.map g).grow shape key f' = (n.grow shape key f).map g := by
  have hroot := Subtree.grow_map key shape hf n.root
  unfold grow map
  simp only [hroot]
  cases n.root.grow shape key f <;> rfl

theorem grow_congr (shape : Shape) {key : κ} {f f' : γ → Grown κ γ} {n : Rooted κ γ}
    (hf : f (n.root.find key) = f' (n.root.find key)) :
    n.grow shape key f = n.grow shape key f' := by
  rw [grow, grow, Subtree.grow_congr key shape hf]

theorem grow_modify (shape : Shape) (key : κ) (f : γ → Grown κ γ) (m : γ → γ) (n : Rooted κ γ) :
    (n.modify key m).grow shape key f = n.grow shape key fun leaf => f (m leaf) := by
  unfold grow modify
  simp only [Subtree.grow_modify key shape]
  split <;> rfl

theorem leaves_grow (shape : Shape) (key : κ) (f : γ → Grown κ γ) (n : Rooted κ γ) :
    (n.grow shape key f).root.leaves =
      n.root.leftOf key ++ ((f (n.root.find key)).nodes ++ n.root.rightOf key) := by
  have hleaves := Subtree.leaves_grow key shape f n.root
  unfold grow
  cases hroot : n.root.grow shape key f with
  | whole root => simpa [hroot, Grown.nodes] using hleaves
  | split left separator right =>
    rw [hroot] at hleaves
    exact hleaves

end Rooted

end RelStore
