import Mathlib.Algebra.Order.Ring.Nat
import Mathlib.Data.List.Basic
import RelStore.BTree.Bulk
import RelStore.Proofs.BTree.Insert

/-!
# Bulk loading of ordered B+trees

The loop over the levels keeps the leaves it starts from (`Rooted.exists_ofLevel?`), whatever leaves
are (`Rooted.ofLevel?_map`), and over leaves that are cut from ascending entries it builds an
ordered tree (`Rooted.exists_ofLevel?_leaves`).  Each level cuts a list, of entries or of siblings,
into groups and makes a node of each group; `separated_filterMap` says for both why the nodes are
separated by the first keys of their groups.
-/

namespace RelStore

variable {κ υ γ δ α β ν : Type}

/-! ### Cutting into groups -/

theorem sum_map_range_ite (n base extra : Nat) :
    ((List.range n).map fun i => if i < extra then base + 1 else base).sum =
      n * base + min n extra := by
  induction n with
  | zero => simp
  | succ n ih =>
    rw [List.range_succ, List.map_append, List.sum_append, ih, Nat.succ_mul]
    simp only [List.map_cons, List.map_nil, List.sum_cons, List.sum_nil]
    split <;> omega

theorem sum_groupSizes (total : Nat) {limit : Nat} (hl : 1 ≤ limit) :
    (groupSizes total limit).sum = total := by
  unfold groupSizes
  rw [sum_map_range_ite]
  rcases Nat.eq_zero_or_pos total with rfl | ht
  · simp
  · have hg : 0 < (total + limit - 1) / limit := Nat.div_pos (by omega) (by omega)
    have hmod := Nat.mod_lt total hg
    rw [Nat.min_eq_right (Nat.le_of_lt hmod)]
    exact Nat.div_add_mod total _

@[simp] theorem groupSizes_zero (limit : Nat) : groupSizes 0 limit = [] := by
  rw [← List.length_eq_zero_iff, length_groupSizes, Nat.div_eq_zero_iff]
  omega

theorem flatten_cutInto {sizes : List Nat} {l : List α} (h : l.length ≤ sizes.sum) :
    (cutInto sizes l).flatten = l := by
  induction sizes generalizing l with
  | nil =>
    rw [List.sum_nil, Nat.le_zero, List.length_eq_zero_iff] at h
    simp [cutInto, h]
  | cons n sizes ih =>
    rw [cutInto, List.flatten_cons, ih, List.take_append_drop]
    rw [List.length_drop]
    rw [List.sum_cons] at h
    omega

theorem flatten_cutInto_groupSizes (l : List α) (limit : Nat) (hl : 1 ≤ limit) :
    (cutInto (groupSizes l.length limit) l).flatten = l :=
  flatten_cutInto (Nat.le_of_eq (sum_groupSizes l.length hl).symm)

theorem cutInto_map (f : α → β) (sizes : List Nat) (l : List α) :
    cutInto sizes (l.map f) = (cutInto sizes l).map (List.map f) := by
  induction sizes generalizing l with
  | nil => rfl
  | cons n sizes ih =>
    rw [cutInto, cutInto, List.map_cons, ← ih, List.map_take, List.map_drop]

variable [Ord κ]

/-- Groups of a list that may be cut anywhere, each made into a node under the key of its first
member, are separated by these keys. -/
theorem separated_filterMap (make : List α → Option (κ × ν)) (key : α → κ)
    (cuttable : KeyRange κ → List α → Prop) {p : KeyRange κ → ν → Prop} (hnil : make [] = none)
    (hmake : ∀ {r a l}, cuttable r (a :: l) → ∃ node, make (a :: l) = some (key a, node) ∧ p r node)
    (hcut : ∀ {r l a l'}, l ≠ [] → cuttable r (l ++ a :: l') →
      r.Cuts (key a) ∧ cuttable (r.below (key a)) l ∧ cuttable (r.above (key a)) (a :: l'))
    {groups : List (List α)} {r : KeyRange κ} {a : α} {l : List α}
    (hflat : groups.flatten = a :: l) (hc : cuttable r (a :: l)) :
    ∃ node rest, groups.filterMap make = (key a, node) :: rest ∧
      Branch.Separated p r node rest := by
  induction groups generalizing r a l with
  | nil => exact absurd hflat (by simp)
  | cons group groups ih =>
    cases group with
    | nil =>
      obtain ⟨node, rest, hrest, hs⟩ := ih (by simpa using hflat) hc
      exact ⟨node, rest, by rw [List.filterMap_cons, hnil, hrest], hs⟩
    | cons b group =>
      rw [List.flatten_cons, List.cons_append, List.cons.injEq] at hflat
      obtain ⟨rfl, rfl⟩ := hflat
      cases hgroups : groups.flatten with
      | nil =>
        have hnone : groups.filterMap make = [] := by
          rw [List.filterMap_eq_nil_iff]
          intro g hg
          rw [List.flatten_eq_nil_iff.1 hgroups g hg, hnil]
        rw [hgroups, List.append_nil] at hc
        obtain ⟨node, hnode, hp⟩ := hmake hc
        exact ⟨node, [], by rw [List.filterMap_cons, hnode, hnone], hp⟩
      | cons b' l' =>
        rw [hgroups, ← List.cons_append] at hc
        obtain ⟨hs, hleft, hright⟩ := hcut (List.cons_ne_nil b group) hc
        obtain ⟨node, hnode, hp⟩ := hmake hleft
        obtain ⟨node', rest, hrest, hsep⟩ := ih hgroups hright
        exact ⟨node, (key b', node') :: rest, by rw [List.filterMap_cons, hnode, hrest],
          hs, hp, hsep⟩

/-! ### Leaves -/

namespace Leaf

/-- A leaf and the key of its first entry. -/
def keyed? (leaf : Leaf κ υ) : Option (κ × Leaf κ υ) :=
  leaf.head?.map fun e => (e.1, leaf)

omit [Ord κ] in
theorem flatMap_keyed? (groups : List (Leaf κ υ)) :
    (groups.filterMap keyed?).flatMap (·.2) = groups.flatten := by
  induction groups with
  | nil => rfl
  | cons group groups ih =>
    cases group with
    | nil =>
      rw [List.filterMap_cons]
      exact ih
    | cons e group =>
      rw [List.filterMap_cons]
      exact congrArg (e :: group ++ ·) ih

end Leaf

omit [Ord κ] in
/-- If ids are read as the groups that they number, the first level is that of the groups. -/
theorem map_firstLevel {f : Nat → Leaf κ υ} {groups : List (Leaf κ υ)}
    (hf : ∀ i, f i = groups[i]?.getD []) :
    (firstLevel groups).map (fun c => (c.1, f c.2)) = groups.filterMap Leaf.keyed? := by
  conv_rhs => rw [← List.zipIdx_map_fst 0 groups, List.filterMap_map]
  rw [firstLevel, List.map_filterMap]
  refine List.filterMap_congr fun ⟨group, id⟩ hc => ?_
  have hget : f id = group := by rw [hf, List.mem_zipIdx_iff_getElem?.1 hc, Option.getD_some]
  cases group with
  | nil => rfl
  | cons e group => exact congrArg (fun leaf => some (e.1, leaf)) hget

omit [Ord κ] in
theorem ids_firstLevel {groups : List (Leaf κ υ)} (hne : ∀ group ∈ groups, group ≠ []) :
    (firstLevel groups).map (·.2) = List.range groups.length := by
  rw [firstLevel, List.map_filterMap, List.range_eq_range', ← List.zipIdx_map_snd 0 groups,
    ← List.filterMap_eq_map]
  refine List.filterMap_congr fun ⟨group, id⟩ hc => ?_
  obtain ⟨e, rest, rfl⟩ := List.exists_cons_of_ne_nil (hne _ (List.fst_mem_of_mem_zipIdx hc))
  rfl

/-! ### Siblings -/

namespace Branch

theorem Separated.imp {p q : KeyRange κ → γ → Prop} (hpq : ∀ r c, p r c → q r c) {r : KeyRange κ}
    {child : γ} {rest : List (κ × γ)} (h : Separated p r child rest) :
    Separated q r child rest := by
  induction rest generalizing r child with
  | nil => exact hpq _ _ h
  | cons c rest ih => exact ⟨h.1, hpq _ _ h.2.1, ih h.2.2⟩

omit [Ord κ] in
theorem flatMap_ofSiblings? (groups : List (List (κ × γ))) :
    (groups.filterMap ofSiblings?).flatMap (·.2.children) = groups.flatten.map (·.2) := by
  induction groups with
  | nil => rfl
  | cons group groups ih =>
    cases group with
    | nil => simpa [List.filterMap_cons, ofSiblings?] using ih
    | cons c group =>
      rw [List.filterMap_cons, List.flatten_cons, List.map_append, ← ih]
      rfl

omit [Ord κ] in
/-- The siblings are the children of the nodes one level up. -/
theorem children_nextLevel (shape : Shape) (siblings : List (κ × γ)) :
    (nextLevel shape siblings).flatMap (·.2.children) = siblings.map (·.2) := by
  have ho := shape.three_le_order
  rw [nextLevel, flatMap_ofSiblings?, flatten_cutInto_groupSizes siblings shape.order (by omega)]

omit [Ord κ] in
theorem nextLevel_map (shape : Shape) (g : γ → δ) (siblings : List (κ × γ)) :
    nextLevel shape (siblings.map fun c => (c.1, g c.2)) =
      (nextLevel shape siblings).map fun c => (c.1, c.2.map g) := by
  rw [nextLevel, nextLevel, List.length_map, cutInto_map, List.filterMap_map, List.map_filterMap]
  refine congrArg (List.filterMap · _) (funext fun group => ?_)
  cases group <;> rfl

/-- The nodes one level up are separated as their children are. -/
theorem separated_nextLevel [Std.TransOrd κ] (shape : Shape) {p : KeyRange κ → γ → Prop}
    {r : KeyRange κ} {c : κ × γ} {l : List (κ × γ)} (hs : Separated p r c.2 l) :
    ∃ b rest, nextLevel shape (c :: l) = (c.1, b) :: rest ∧
      Separated (fun r b => Separated p r b.first b.rest) r b rest := by
  have ho := shape.three_le_order
  have hflat := flatten_cutInto_groupSizes (c :: l) shape.order (by omega)
  refine separated_filterMap ofSiblings? (·.1) (fun r siblings =>
    ∃ c l, siblings = c :: l ∧ Separated p r c.2 l) rfl ?_ ?_ hflat ⟨c, l, rfl, hs⟩
  · rintro r a l ⟨c, l', heq, hs⟩
    obtain ⟨rfl, rfl⟩ := List.cons.inj heq
    exact ⟨⟨a.2, l⟩, rfl, hs⟩
  · rintro r l a l' hne ⟨c, l'', heq, hs⟩
    obtain ⟨b, left, rfl⟩ := List.exists_cons_of_ne_nil hne
    obtain ⟨rfl, rfl⟩ := List.cons.inj heq
    obtain ⟨hcut, hleft, hright⟩ := separated_append_cons hs
    exact ⟨hcut, ⟨b, left, rfl, hleft⟩, ⟨a, l', rfl, hright⟩⟩

end Branch

/-! ### The loop over the levels -/

namespace Rooted

omit [Ord κ] in
/-- The loop ends with one root, over the leaves of the siblings that it started with. -/
theorem exists_ofLevel? (shape : Shape) {h : Nat} {siblings : List (κ × Subtree κ γ h)}
    (hne : siblings ≠ []) :
    ∃ n, ofLevel? shape siblings = some n ∧
      n.root.leaves = (siblings.map (·.2)).flatMap Subtree.leaves := by
  fun_induction ofLevel? shape siblings with
  | case1 => contradiction
  | case2 h key root => exact ⟨_, rfl, by simp⟩
  | case3 h s s' rest ih =>
    have hchildren := Branch.children_nextLevel shape (s :: s' :: rest)
    have hnext : nextLevel shape (s :: s' :: rest) ≠ [] := by
      intro hnil
      rw [hnil] at hchildren
      exact absurd hchildren.symm (List.cons_ne_nil _ _)
    obtain ⟨n, hn, hleaves⟩ := ih hnext
    refine ⟨n, hn, hleaves.trans ?_⟩
    rw [← hchildren, List.flatMap_assoc]
    exact List.flatMap_map ..

omit [Ord κ] in
/-- The loop does not look at leaves. -/
theorem ofLevel?_map (shape : Shape) (g : γ → δ) {h : Nat} (siblings : List (κ × Subtree κ γ h)) :
    ofLevel? shape (siblings.map fun c => (c.1, c.2.map g)) =
      (ofLevel? shape siblings).map (Rooted.map g) := by
  fun_induction ofLevel? shape siblings with
  | case1 =>
    rw [List.map_nil, ofLevel?]
    rfl
  | case2 h key root =>
    rw [List.map_cons, List.map_nil, ofLevel?]
    rfl
  | case3 h s s' rest ih =>
    rw [← ih, List.map_cons, List.map_cons, ofLevel?]
    exact congrArg (ofLevel? shape) (Branch.nextLevel_map shape (Subtree.map g) (s :: s' :: rest))

omit [Ord κ] in
/-- The loop over leaves keeps them in their order. -/
theorem exists_ofLevel?_zero (shape : Shape) {leaves : List (κ × γ)} (hne : leaves ≠ []) :
    ∃ n, ofLevel? shape (h := 0) leaves = some n ∧ n.root.leaves = leaves.map (·.2) := by
  obtain ⟨n, hn, hleaves⟩ := exists_ofLevel? shape (h := 0) hne
  exact ⟨n, hn, hleaves.trans (List.flatMap_singleton' (leaves.map (·.2)))⟩

omit [Ord κ] in
theorem ofLevel?_zero_map (shape : Shape) (g : γ → δ) (leaves : List (κ × γ)) :
    ofLevel? shape (h := 0) (leaves.map fun c => (c.1, g c.2)) =
      (ofLevel? shape (h := 0) leaves).map (Rooted.map g) :=
  ofLevel?_map shape g (h := 0) leaves

variable [Std.TransOrd κ]

/-- The tree over separated siblings is ordered. -/
theorem ordered_ofLevel? (shape : Shape) {h : Nat} {siblings : List (κ × Subtree κ (Leaf κ υ) h)}
    {c : κ × Subtree κ (Leaf κ υ) h} {l : List (κ × Subtree κ (Leaf κ υ) h)}
    {n : Rooted κ (Leaf κ υ)} (heq : siblings = c :: l)
    (hs : Branch.Separated Subtree.OrderedChild .all c.2 l) (hn : ofLevel? shape siblings = some n) :
    n.root.Ordered .all := by
  fun_induction ofLevel? shape siblings with
  | case1 => contradiction
  | case2 h k root =>
    obtain ⟨rfl, rfl⟩ := List.cons.inj heq
    obtain rfl := Option.some.inj hn
    exact hs.1
  | case3 h s s' rest ih =>
    obtain ⟨rfl, rfl⟩ := List.cons.inj heq
    obtain ⟨b, l, hnext, hsep⟩ := Branch.separated_nextLevel shape hs
    exact ih hnext (hsep.imp fun r b hb => Subtree.orderedChild_branch hb) hn

/-- Groups of ascending entries make separated leaves. -/
theorem separated_leaves {groups : List (Leaf κ υ)} {r : KeyRange κ} {e : κ × υ} {l : Leaf κ υ}
    (hflat : groups.flatten = e :: l) (hl : Leaf.Ordered r (e :: l)) :
    ∃ (leaf : Subtree κ (Leaf κ υ) 0) (rest : List (κ × Subtree κ (Leaf κ υ) 0)),
      groups.filterMap Leaf.keyed? = (e.1, leaf) :: rest ∧
        Branch.Separated Subtree.OrderedChild r leaf rest := by
  obtain ⟨leaf, rest, hrest, hs⟩ := separated_filterMap Leaf.keyed? (·.1) Leaf.Ordered
    (p := fun r leaf => Leaf.Ordered r leaf ∧ leaf ≠ []) rfl
    (fun {_ a l} h => ⟨a :: l, rfl, h, List.cons_ne_nil a l⟩) (fun hne h => h.cut hne) hflat hl
  refine ⟨leaf, rest, hrest, hs.imp fun r leaf h => ⟨h.1, fun hnil => ?_⟩⟩
  exact h.2 ((Subtree.toList_leaf leaf).symm.trans hnil)

/-- The tree over leaves that are cut from ascending entries is ordered and has these entries. -/
theorem exists_ofLevel?_leaves (shape : Shape) {groups : List (Leaf κ υ)} (hne : groups.flatten ≠ [])
    (hasc : Leaf.Ascending groups.flatten) :
    ∃ n, ofLevel? shape (h := 0) (groups.filterMap Leaf.keyed?) = some n ∧
      n.root.Ordered .all ∧ n.root.toList = groups.flatten := by
  obtain ⟨e, l, hflat⟩ := List.exists_cons_of_ne_nil hne
  obtain ⟨leaf, rest, hrest, hs⟩ := separated_leaves hflat
    (r := .all) ⟨hflat ▸ hasc, fun e _ => KeyRange.holds_all e.1⟩
  have hsiblings : groups.filterMap Leaf.keyed? ≠ [] := hrest ▸ List.cons_ne_nil _ _
  obtain ⟨n, hn, hleaves⟩ := exists_ofLevel?_zero shape hsiblings
  refine ⟨n, hn, ordered_ofLevel? shape (c := (e.1, leaf)) hrest hs hn, ?_⟩
  rw [Subtree.toList, hleaves, ← List.flatMap_def]
  exact Leaf.flatMap_keyed? groups

end Rooted

/-! ### Ascending entries -/

variable [Std.TransOrd κ]

namespace BTree

omit [Std.TransOrd κ] in
theorem ascends_cons_cons (a b : κ) (keys : List κ) :
    ascends (a :: b :: keys) = (keyLT a b && ascends (b :: keys)) := rfl

theorem ascends_iff {keys : List κ} : ascends keys ↔ keys.Pairwise fun a b => keyLT a b := by
  induction keys with
  | nil => simp [ascends]
  | cons a keys ih =>
    cases keys with
    | nil => simp [ascends]
    | cons b keys =>
      rw [ascends_cons_cons, Bool.and_eq_true, ih, List.pairwise_cons (a := a)]
      refine and_congr_left fun hkeys => ⟨fun hab => ?_, fun h => h b List.mem_cons_self⟩
      exact List.forall_mem_cons.2
        ⟨hab, fun c hc => keyLT_trans hab ((List.pairwise_cons.1 hkeys).1 c hc)⟩

end BTree

namespace Leaf

/-- Ascending entries are inserted one behind the other. -/
theorem Ascending.foldl_insert {l entries : Leaf κ υ} (h : Leaf.Ascending (l ++ entries)) :
    entries.foldl (fun l e => Leaf.insert e.1 e.2 l) l = l ++ entries := by
  induction entries generalizing l with
  | nil => simp
  | cons e entries ih =>
    have hlt : ∀ a ∈ l, keyLT a.1 e.1 :=
      fun a ha => (Leaf.ascending_append_iff.1 h).2.2 a ha e List.mem_cons_self
    have hinsert : Leaf.insert e.1 e.2 (l ++ []) = l ++ Leaf.insert e.1 e.2 [] :=
      Leaf.insert_append_of_lt hlt
    rw [List.append_nil] at hinsert
    rw [List.foldl_cons, hinsert, ih (by simpa [Leaf.insert] using h)]
    simp [Leaf.insert]

end Leaf

end RelStore
