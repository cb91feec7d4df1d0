import RelStore.BTree.Scan
import RelStore.Proofs.BTree.Linked

/-!
# Scans of B+trees

A scan yields the entries whose keys both bounds allow, in ascending order
(`BTree.Sound.between_eq`).  `Cursor.Before c l` says which entries a cursor stands before: it is in
a leaf from which the links lead on through the leaves behind it, and `l` is what is left in range
in all of them.  Each step yields the first of these entries (`Cursor.Before.next`), also where it
has to follow links to a later leaf.

That a scan starts before the right entries (`BTree.Sound.before_scan`) is a matter of keys.  The
descent to the lower bound leaves only keys below it to the left of the leaf it reaches and only
keys above it to the right (`BTree.Sound.exists_startOf`), so that in later leaves the lower bound
need not be looked at again.  Within a leaf the keys that an upper bound allows come first and those
that a lower bound allows come last; the scan ends in the first leaf with a key past the upper
bound.
-/

namespace RelStore

variable {κ υ α : Type}

/-! ### Prefixes and suffixes of lists -/

theorem takeWhile_eq_filter {p : α → Bool} {l : List α}
    (h : l.Pairwise fun a b => p b → p a) : l.takeWhile p = l.filter p := by
  induction l with
  | nil => rfl
  | cons a l ih =>
    obtain ⟨hhead, htail⟩ := List.pairwise_cons.1 h
    by_cases ha : p a
    · rw [List.takeWhile_cons_of_pos ha, List.filter_cons_of_pos ha, ih htail]
    · have hnil : l.filter p = [] :=
        List.filter_eq_nil_iff.2 fun b hb hpb => ha (hhead b hb hpb)
      rw [List.takeWhile_cons_of_neg ha, List.filter_cons_of_neg ha, hnil]

/-- Of the members up to the first that `q` does not hold of, those behind the last that `p` does
not hold of. -/
theorem drop_takeWhile_eq_filter {p q : α → Bool} {l : List α}
    (hp : l.Pairwise fun a b => p a → p b) (hq : l.Pairwise fun a b => q b → q a) :
    (l.takeWhile q).drop (l.takeWhile fun a => !p a).length = l.filter fun a => p a && q a := by
  induction l with
  | nil => rfl
  | cons a l ih =>
    obtain ⟨hphead, hptail⟩ := List.pairwise_cons.1 hp
    obtain ⟨hqhead, hqtail⟩ := List.pairwise_cons.1 hq
    by_cases hpa : p a
    · have hall : ∀ b ∈ a :: l, (p b && q b) = q b := by
        refine List.forall_mem_cons.2 ⟨by simp [hpa], fun b hb => by simp [hphead b hb hpa]⟩
      rw [List.takeWhile_cons_of_neg (by simp [hpa]), List.length_nil, List.drop_zero,
        takeWhile_eq_filter hq]
      exact List.filter_congr fun b hb => (hall b hb).symm
    · rw [List.filter_cons_of_neg (by simp [hpa]), List.takeWhile_cons_of_pos (by simp [hpa]),
        List.length_cons]
      by_cases hqa : q a
      · rw [List.takeWhile_cons_of_pos hqa, List.drop_succ_cons, ih hptail hqtail]
      · rw [List.takeWhile_cons_of_neg hqa, List.drop_nil, eq_comm, List.filter_eq_nil_iff]
        intro b hb hboth
        rw [Bool.and_eq_true] at hboth
        exact hqa (hqhead b hb hboth.2)

variable [Ord κ]

/-! ### Bounds -/

namespace Bound

/-- Whether a key lies between two bounds. -/
def allows (lower upper : Bound κ) (key : κ) : Bool :=
  lower.allowsFrom key && upper.allowsTo key

@[simp] theorem allows_to_unbounded (lower : Bound κ) (key : κ) :
    allows lower .unbounded key = lower.allowsFrom key :=
  Bool.and_true _

variable [Std.TransOrd κ] {lower upper : Bound κ} {a b : κ}

theorem allowsTo_of_keyLT (hab : keyLT a b) (hb : upper.allowsTo b) : upper.allowsTo a := by
  cases upper with
  | unbounded => rfl
  | included high => exact keyLE_of_keyLT (keyLT_of_keyLT_of_keyLE hab hb)
  | excluded high => exact keyLT_trans hab hb

theorem allowsFrom_of_keyLT (hab : keyLT a b) (ha : lower.allowsFrom a) : lower.allowsFrom b := by
  cases lower with
  | unbounded => rfl
  | included low => exact keyLE_of_keyLT (keyLT_of_keyLE_of_keyLT ha hab)
  | excluded low => exact keyLT_trans ha hab

/-- Between bounds that cross there is no key. -/
theorem allows_of_crosses (h : lower.crosses upper) (key : κ) : allows lower upper key = false := by
  rw [allows, Bool.and_eq_false_iff, ← Bool.not_eq_true, ← Bool.not_eq_true]
  refine Decidable.not_and_iff_not_or_not.1 fun ⟨hfrom, hto⟩ => ?_
  cases lower with
  | unbounded => exact Bool.false_ne_true h
  | included low =>
    cases upper with
    | unbounded => exact Bool.false_ne_true h
    | included high =>
      exact keyLT_irrefl (keyLT_of_keyLT_of_keyLE (keyLT_of_keyLE_of_keyLT hto h) hfrom)
    | excluded high =>
      exact keyLT_irrefl (keyLT_of_keyLT_of_keyLE (keyLT_of_keyLT_of_keyLE hto h) hfrom)
  | excluded low =>
    cases upper with
    | unbounded => exact Bool.false_ne_true h
    | included high =>
      exact keyLT_irrefl (keyLT_of_keyLE_of_keyLT hto (keyLT_of_keyLE_of_keyLT h hfrom))
    | excluded high =>
      exact keyLT_irrefl (keyLT_trans hto (keyLT_of_keyLE_of_keyLT h hfrom))

end Bound

/-! ### What a cursor stands before -/

namespace Cursor

/-- The entries in range from the position on, in the leaf `id`. -/
def here (c : Cursor κ υ) (id : Nat) : List (κ × υ) :=
  ((c.tree.leaves.entries id).take c.stop).drop c.pos

/-- The entries of leaves up to the first that an upper bound does not allow. -/
def collect (tree : BTree κ υ) (upper : Bound κ) : List Nat → List (κ × υ)
  | [] => []
  | id :: ids =>
    let c := enter tree upper id 0
    c.here id ++ if c.ends then [] else collect tree upper ids

/-- The entries before a cursor in the leaf `id`, if the leaves `ids` are behind it in the chain. -/
def left (c : Cursor κ υ) (id : Nat) (ids : List Nat) : List (κ × υ) :=
  c.here id ++ if c.ends then [] else collect c.tree c.upper ids

/-- A cursor stands before the entries `l`: it has come to its end, or it is in a leaf from which
the links lead on through the leaves that it has not come to yet. -/
inductive Before (c : Cursor κ υ) : List (κ × υ) → Prop
  | ended (leaf?_eq : c.leaf? = none) : c.Before []
  | leaf {id : Nat} {ids : List Nat} {prev : Option Nat} (leaf?_eq : c.leaf? = some id)
      (stop_le : c.stop ≤ (c.tree.leaves.entries id).length)
      (chained : c.tree.leaves.Chained prev (id :: ids))
      (length_lt : ids.length < c.tree.leaves.size) : c.Before (c.left id ids)

variable {c : Cursor κ υ} {l : List (κ × υ)} {tree : BTree κ υ} {lower upper : Bound κ}
  {id pos steps : Nat} {ids : List Nat} {prev : Option Nat}

/-! ### Steps -/

omit [Ord κ] in
theorem here_of_lt (hpos : c.pos < c.stop) (hstop : c.stop ≤ (c.tree.leaves.entries id).length) :
    ∃ e, (c.tree.leaves.entries id)[c.pos]? = some e ∧
      c.here id = e :: here { c with pos := c.pos + 1 } id := by
  have hlt : c.pos < ((c.tree.leaves.entries id).take c.stop).length := by
    rw [List.length_take]
    omega
  refine ⟨(c.tree.leaves.entries id)[c.pos], List.getElem?_eq_getElem (by omega), ?_⟩
  rw [here, List.drop_eq_getElem_cons hlt, List.getElem_take]
  rfl

omit [Ord κ] in
theorem here_of_not_lt (hpos : ¬ c.pos < c.stop) : c.here id = [] := by
  apply List.drop_eq_nil_of_le
  rw [List.length_take]
  omega

theorem stop_enter_le : (enter tree upper id pos).stop ≤ (tree.leaves.entries id).length :=
  (List.takeWhile_prefix _).length_le

theorem walk_of_ended (steps : Nat) (h : c.leaf? = none) :
    (walk steps c).1 = none ∧ (walk steps c).2.leaf? = none := by
  cases steps with
  | zero => exact ⟨rfl, rfl⟩
  | succ steps => simp [walk, h]

/-- A walk that may come to the end of the chain yields the first of the entries before it. -/
theorem walk_eq (hleaf : c.leaf? = some id) (hstop : c.stop ≤ (c.tree.leaves.entries id).length)
    (hchain : c.tree.leaves.Chained prev (id :: ids)) (hlength : ids.length < c.tree.leaves.size)
    (hsteps : ids.length + 2 ≤ steps) :
    (walk steps c).1 = (c.left id ids).head? ∧ (walk steps c).2.Before (c.left id ids).tail := by
  induction steps generalizing c id prev ids with
  | zero => omega
  | succ steps ih =>
    have hnext : c.tree.leaves.next? id = ids.head? := hchain.next?_eq
    rw [walk, hleaf]
    by_cases hpos : c.pos < c.stop
    · obtain ⟨e, hget, hhere⟩ := here_of_lt hpos hstop
      simp only [if_pos hpos, hget, left, hhere, List.cons_append, List.head?_cons, List.tail_cons]
      exact ⟨trivial, .leaf rfl hstop hchain hlength⟩
    · simp only [if_neg hpos, left, here_of_not_lt hpos, List.nil_append]
      by_cases hends : c.ends
      · simp only [if_pos hends]
        exact ⟨rfl, .ended rfl⟩
      · simp only [if_neg hends, follow, hnext]
        cases ids with
        | nil =>
          obtain ⟨hnone, hended⟩ := walk_of_ended (c := { c with leaf? := none, pos := 0 }) steps rfl
          exact ⟨hnone, .ended hended⟩
        | cons next ids =>
          rw [List.length_cons] at hlength hsteps
          have hlength' : ids.length < c.tree.leaves.size := by omega
          exact ih rfl stop_enter_le hchain.2 hlength' (by omega)

/-- A walk that has more steps than there are leaves is not cut short: it yields the first of the
entries before the cursor, and the others are before it then. -/
theorem Before.walk (h : c.Before l) (hsteps : c.tree.leaves.size < steps) :
    (c.walk steps).1 = l.head? ∧ (c.walk steps).2.Before l.tail := by
  cases h with
  | ended hleaf =>
    obtain ⟨hnone, hended⟩ := walk_of_ended steps hleaf
    exact ⟨hnone, .ended hended⟩
  | leaf hleaf hstop hchain hlength => exact walk_eq hleaf hstop hchain hlength (by omega)

/-- The next entry is the first of those before the cursor. -/
theorem Before.next (h : c.Before l) : c.next.1 = l.head? ∧ c.next.2.Before l.tail :=
  h.walk (Nat.lt_succ_self _)

/-- A scan stays in its tree. -/
theorem tree_walk (steps : Nat) (c : Cursor κ υ) : (c.walk steps).2.tree = c.tree := by
  induction steps generalizing c with
  | zero => rfl
  | succ steps ih =>
    unfold Cursor.walk
    split
    · rfl
    · next id _ =>
      have hfollow : (c.follow id).tree = c.tree := by
        unfold follow
        split <;> rfl
      split
      · rfl
      · split
        · rfl
        · rw [ih, hfollow]

theorem tree_take (n : Nat) (c : Cursor κ υ) : (c.take n).2.tree = c.tree := by
  induction n generalizing c with
  | zero => rfl
  | succ n ih =>
    have hnext : c.next.2.tree = c.tree := tree_walk _ c
    unfold Cursor.take
    split
    · next hc => rwa [hc] at hnext
    · next hc =>
      rw [hc] at hnext
      exact (ih _).trans hnext

/-- Steps yield the first entries, and leave the others. -/
theorem Before.take (h : c.Before l) (n : Nat) :
    (c.take n).1 = l.take n ∧ (c.take n).2.Before (l.drop n) := by
  induction n generalizing c l with
  | zero => exact ⟨rfl, h⟩
  | succ n ih =>
    obtain ⟨hhead, htail⟩ := h.next
    unfold Cursor.take
    split
    · next c' hnext =>
      rw [hnext] at hhead htail
      have hnil : l = [] := List.head?_eq_none_iff.1 hhead.symm
      rw [hnil] at htail ⊢
      exact ⟨rfl, htail⟩
    · next e c' hnext =>
      rw [hnext] at hhead htail
      obtain ⟨rest, rfl⟩ := List.head?_eq_some_iff.1 hhead.symm
      obtain ⟨htake, hdrop⟩ := ih htail
      exact ⟨congrArg (e :: ·) htake, hdrop⟩

/-- All entries before a cursor are listed, if they are no more than the tree has. -/
theorem Before.toList_eq (h : c.Before l) (hle : l.length ≤ c.tree.size) : c.toList = l := by
  rw [toList, (h.take _).1, List.take_of_length_le hle]

/-! ### The entries in range -/

theorem take_stop_enter (tree : BTree κ υ) (upper : Bound κ) (id pos : Nat) :
    (tree.leaves.entries id).take (enter tree upper id pos).stop =
      (tree.leaves.entries id).takeWhile fun e => upper.allowsTo e.1 :=
  (List.prefix_iff_eq_take.1 (List.takeWhile_prefix _)).symm

variable [Std.TransOrd κ]

/-- A cursor that enters a leaf behind the keys that the lower bound does not allow. -/
theorem here_enter (h : Leaf.Ascending (tree.leaves.entries id)) (lower upper : Bound κ) :
    (enter tree upper id
        ((tree.leaves.entries id).takeWhile fun e => !lower.allowsFrom e.1).length).here id =
      (tree.leaves.entries id).filter fun e => lower.allows upper e.1 := by
  refine (congrArg (List.drop _) (take_stop_enter tree upper id _)).trans ?_
  exact drop_takeWhile_eq_filter (h.imp fun hab ha => Bound.allowsFrom_of_keyLT hab ha)
    (h.imp fun hab hb => Bound.allowsTo_of_keyLT hab hb)

/-- The range ends in a leaf that has a key past the upper bound. -/
theorem ends_enter (h : Leaf.Ascending (tree.leaves.entries id)) :
    (enter tree upper id pos).ends ↔ ∃ e ∈ tree.leaves.entries id, ¬ upper.allowsTo e.1 := by
  simp only [enter, decide_eq_true_eq]
  rw [takeWhile_eq_filter (h.imp fun hab hb => Bound.allowsTo_of_keyLT hab hb)]
  exact List.length_filter_lt_length_iff_exists

/-- What is before a cursor that enters a leaf, from what the leaves behind it have. -/
theorem left_enter_of_collect
    (h : Leaf.Ascending (tree.leaves.entries id ++ ids.flatMap tree.leaves.entries))
    (hlater : ∀ e ∈ ids.flatMap tree.leaves.entries, lower.allowsFrom e.1)
    (hcollect : collect tree upper ids =
      (ids.flatMap tree.leaves.entries).filter fun e => upper.allowsTo e.1) :
    (enter tree upper id
        ((tree.leaves.entries id).takeWhile fun e => !lower.allowsFrom e.1).length).left id ids =
      (tree.leaves.entries id ++ ids.flatMap tree.leaves.entries).filter
        fun e => lower.allows upper e.1 := by
  obtain ⟨hleaf, -, hcross⟩ := Leaf.ascending_append_iff.1 h
  have hsame : ((ids.flatMap tree.leaves.entries).filter fun e => lower.allows upper e.1) =
      (ids.flatMap tree.leaves.entries).filter fun e => upper.allowsTo e.1 :=
    List.filter_congr fun e he => by simp [Bound.allows, hlater e he]
  rw [List.filter_append, hsame, left, here_enter hleaf lower upper]
  congr 1
  split
  · next hends =>
    obtain ⟨a, ha, hpast⟩ := (ends_enter hleaf).1 hends
    rw [eq_comm, List.filter_eq_nil_iff]
    exact fun b hb hb' => hpast (Bound.allowsTo_of_keyLT (hcross a ha b hb) hb')
  · exact hcollect

theorem collect_eq (h : Leaf.Ascending (ids.flatMap tree.leaves.entries)) :
    collect tree upper ids =
      (ids.flatMap tree.leaves.entries).filter fun e => upper.allowsTo e.1 := by
  induction ids with
  | nil => rfl
  | cons id ids ih =>
    rw [List.flatMap_cons] at h
    have hrest := ih (Leaf.ascending_append_iff.1 h).2.1
    have hstart : ((tree.leaves.entries id).takeWhile
        fun e => !Bound.unbounded.allowsFrom e.1) = [] := by
      cases tree.leaves.entries id <;> rfl
    have hfrom : ∀ e ∈ ids.flatMap tree.leaves.entries, Bound.unbounded.allowsFrom e.1 :=
      fun _ _ => rfl
    have hleft := left_enter_of_collect h hfrom hrest
    rw [hstart] at hleft
    exact hleft

theorem left_enter (h : Leaf.Ascending (tree.leaves.entries id ++ ids.flatMap tree.leaves.entries))
    (hlater : ∀ e ∈ ids.flatMap tree.leaves.entries, lower.allowsFrom e.1) :
    (enter tree upper id
        ((tree.leaves.entries id).takeWhile fun e => !lower.allowsFrom e.1).length).left id ids =
      (tree.leaves.entries id ++ ids.flatMap tree.leaves.entries).filter
        fun e => lower.allows upper e.1 :=
  left_enter_of_collect h hlater (collect_eq (Leaf.ascending_append_iff.1 h).2.1)

end Cursor

/-! ### Scans -/

namespace BTree

variable [Std.TransOrd κ] {t : BTree κ υ}

/-- Where a scan starts in the chain: the leaves before hold only keys that the lower bound does not
allow, and those behind only keys that it does. -/
theorem Sound.exists_startOf (h : t.Sound) (lower : Bound κ) :
    ∃ before later, t.root.leaves = before ++ t.startOf lower :: later ∧
      (∀ e ∈ before.flatMap t.leaves.entries, ¬ lower.allowsFrom e.1) ∧
      ∀ e ∈ later.flatMap t.leaves.entries, lower.allowsFrom e.1 := by
  have hsides : ∀ key,
      (∀ e ∈ (t.root.leftOf key).flatMap t.leaves.entries, keyLT e.1 key) ∧
        ∀ e ∈ (t.root.rightOf key).flatMap t.leaves.entries, keyLT key e.1 := by
    intro key
    have hview := h.ordered.sides key
    rwa [view, Rooted.map, Subtree.leftOf_map, Subtree.rightOf_map, ← List.flatMap_def,
      ← List.flatMap_def] at hview
  cases lower with
  | unbounded =>
    obtain ⟨later, hleaves⟩ := List.head?_eq_some_iff.1 h.linked.head_eq
    exact ⟨[], later, hleaves, by simp, fun _ _ => rfl⟩
  | included low =>
    obtain ⟨hleft, hright⟩ := hsides low
    exact ⟨_, _, t.root.leaves_eq low, fun e he hle => keyLE_iff_not_keyLT.1 hle (hleft e he),
      fun e he => keyLE_of_keyLT (hright e he)⟩
  | excluded low =>
    obtain ⟨hleft, hright⟩ := hsides low
    exact ⟨_, _, t.root.leaves_eq low,
      fun e he hlt => keyLT_irrefl (keyLT_trans hlt (hleft e he)), hright⟩

/-- A scan stands before the entries between its bounds. -/
theorem Sound.before_scan (h : t.Sound) (lower upper : Bound κ) :
    (t.scan lower upper).Before (t.entries.filter fun e => lower.allows upper e.1) := by
  unfold scan
  split
  · next hnone =>
    have hnil : (t.entries.filter fun e => lower.allows upper e.1) = [] := by
      rw [Bool.or_eq_true, isEmpty, beq_iff_eq, h.size_eq, List.length_eq_zero_iff] at hnone
      rcases hnone with hcross | hnil
      · simp [Bound.allows_of_crosses hcross]
      · rw [hnil, List.filter_nil]
    rw [hnil]
    exact .ended rfl
  · obtain ⟨before, later, hleaves, hbefore, hlater⟩ := h.exists_startOf lower
    have hasc := h.ascending_entries
    have hchained := h.linked.chained
    have hlength := h.linked.length_eq
    rw [entries_eq, hleaves, List.flatMap_append, List.flatMap_cons] at hasc ⊢
    rw [hleaves] at hchained hlength
    obtain ⟨prev, hchained⟩ := hchained.of_append
    have hnil : ((before.flatMap t.leaves.entries).filter fun e => lower.allows upper e.1) = [] :=
      List.filter_eq_nil_iff.2 fun e he hallows => hbefore e he (Bool.and_eq_true_iff.1 hallows).1
    rw [List.filter_append, hnil, List.nil_append,
      ← Cursor.left_enter (Leaf.ascending_append_iff.1 hasc).2.1 hlater]
    refine .leaf rfl Cursor.stop_enter_le hchained ?_
    rw [List.length_append, List.length_cons] at hlength
    show later.length < t.leaves.size
    omega

omit [Std.TransOrd κ] in
theorem tree_scan (t : BTree κ υ) (lower upper : Bound κ) : (t.scan lower upper).tree = t := by
  unfold scan
  split <;> rfl

theorem Sound.between_eq_entries (h : t.Sound) (lower upper : Bound κ) :
    t.between lower upper = t.entries.filter fun e => lower.allows upper e.1 := by
  refine (h.before_scan lower upper).toList_eq ?_
  rw [tree_scan, h.size_eq]
  exact List.length_filter_le _ _

/-- The listing has the entries of all leaves. -/
theorem Sound.toList_eq (h : t.Sound) : t.toList = t.entries :=
  (h.between_eq_entries _ _).trans (List.filter_eq_self.2 fun _ _ => rfl)

/-- A scan yields the entries between its bounds. -/
theorem Sound.between_eq (h : t.Sound) (lower upper : Bound κ) :
    t.between lower upper = t.toList.filter fun e => lower.allows upper e.1 := by
  rw [h.between_eq_entries, h.toList_eq]

/-- Steps of a scan yield the first entries between its bounds. -/
theorem Sound.take_scan_eq (h : t.Sound) (lower upper : Bound κ) (n : Nat) :
    ((t.scan lower upper).take n).1 = (t.between lower upper).take n := by
  rw [h.between_eq_entries]
  exact ((h.before_scan lower upper).take n).1

/-- A walk to the next entry is never cut short: with more steps it would come no further. -/
theorem Sound.walk_take_scan_eq (h : t.Sound) (lower upper : Bound κ) (n : Nat) {steps : Nat}
    (hsteps : t.leaves.size < steps) :
    (((t.scan lower upper).take n).2.walk steps).1 = (t.between lower upper)[n]? := by
  have hafter := ((h.before_scan lower upper).take n).2
  rw [h.between_eq_entries, ← List.head?_drop]
  apply (hafter.walk _).1
  rwa [Cursor.tree_take, tree_scan]

/-! ### Listings -/

theorem toList_empty (shape : Shape) : (empty shape : BTree κ υ).toList = [] :=
  (sound_empty shape).toList_eq

theorem Sound.size_eq_length (h : t.Sound) : t.size = t.toList.length := by
  rw [h.toList_eq]
  exact h.size_eq

theorem Sound.isEmpty_eq (h : t.Sound) : t.isEmpty = t.toList.isEmpty := by
  rw [isEmpty, h.size_eq_length]
  cases t.toList <;> rfl

theorem Sound.get?_eq (h : t.Sound) (key : κ) : t.get? key = Leaf.get? key t.toList := by
  rw [h.get?_eq_entries, h.toList_eq]

theorem Sound.ascending (h : t.Sound) : Leaf.Ascending t.toList := by
  rw [h.toList_eq]
  exact h.ascending_entries

/-- The head of the chain has the least key. -/
theorem Sound.firstKey?_eq (h : t.Sound) : t.firstKey? = t.keys.head? := by
  have hhead : t.view.root.leaves.head? = some (t.leaves.entries t.head) := by
    rw [leaves_view, List.head?_map, h.linked.head_eq]
    rfl
  rw [firstKey?, h.ordered.head?_toList hhead, keys, List.head?_map, h.toList_eq]
  rfl

theorem Sound.lastKey?_eq (h : t.Sound) : t.lastKey? = t.keys.getLast? := by
  have hlast : t.view.root.last = t.leaves.entries t.root.last := by
    have hmap := t.view.root.getLast?_leaves
    rw [leaves_view, List.getLast?_map, t.root.getLast?_leaves] at hmap
    exact (Option.some.inj hmap).symm
  rw [lastKey?, ← hlast, h.ordered.getLast?_toList, keys, List.getLast?_map, h.toList_eq]
  rfl

theorem Sound.toList_insert (h : t.Sound) (key : κ) (value : υ) :
    (t.insert key value).toList = Leaf.insert key value t.toList := by
  rw [(h.insert key value).toList_eq, h.toList_eq]
  exact h.entries_put key value

theorem Sound.toList_modify (h : t.Sound) (key : κ) (f : υ → υ) :
    (t.modify key f).toList = Leaf.modify key f t.toList := by
  rw [(h.modify key f).toList_eq, h.toList_eq, h.entries_modify]

theorem toList_ofEntries (shape : Shape) (l : List (κ × υ)) :
    (ofEntries shape l).toList = l.foldl (fun l e => Leaf.insert e.1 e.2 l) [] := by
  obtain ⟨hsound, hentries⟩ := sound_ofEntries shape l
  rw [hsound.toList_eq, hentries]

end BTree

end RelStore
