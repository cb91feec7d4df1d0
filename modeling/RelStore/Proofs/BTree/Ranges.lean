import RelStore.Proofs.BTree.Alike

/-!
# Exact ranges of B+trees

`BTree.ExactRanges t` says what scans of `t` between two bounds yield: the entries whose keys both
bounds allow, each once and in ascending order, also when the scan is left half-way, and nothing any
more once it has yielded all.  It also says why: the links lead from the head through every leaf
once, in the order of the keys, so that a scan that follows them misses nothing and repeats nothing.
`BTree.replay_exactRanges` says that this is so of every tree that actions make of an empty one.

A cursor that is asked again and again answers the entries that it stands before, one after the
other (`Cursor.Before.answer_eq`).  These are the entries between the bounds
(`BTree.Sound.before_scan`), which are related to lookups by `Leaf.get?_eq_some_iff_exists`: a key
has a value if there is an entry with that value under an equivalent key.
-/

namespace RelStore

variable {κ υ : Type} [Ord κ]

/-! ### Answers of a cursor -/

namespace Cursor

/-- What a cursor answers when it is asked after `n` other times. -/
def answer : Nat → Cursor κ υ → Option (κ × υ)
  | 0, c => c.next.1
  | n + 1, c => answer n c.next.2

theorem Before.answer_eq {c : Cursor κ υ} {l : List (κ × υ)} (h : c.Before l) (n : Nat) :
    c.answer n = l[n]? := by
  induction n generalizing c l with
  | zero => rw [answer, h.next.1, List.head?_eq_getElem?]
  | succ n ih => rw [answer, ih h.next.2, List.getElem?_tail]

/-- A cursor that has no answer has none ever after. -/
theorem Before.answer_eq_none_of_le {n n' : Nat} {c : Cursor κ υ} {l : List (κ × υ)}
    (h : c.Before l) (hnone : c.answer n = none) (hle : n ≤ n') : c.answer n' = none := by
  rw [h.answer_eq, List.getElem?_eq_none_iff] at hnone ⊢
  exact hnone.trans hle

end Cursor

variable [Std.TransOrd κ]

/-! ### Lookups and entries -/

namespace Leaf

variable {l : Leaf κ υ}

/-- A key has the value of the entry with an equivalent key. -/
theorem get?_eq_some_iff_exists (h : Ascending l) {key : κ} {value : υ} :
    get? key l = some value ↔ ∃ e ∈ l, compare e.1 key = .eq ∧ e.2 = value := by
  induction l with
  | nil => simp [get?]
  | cons e l ih =>
    obtain ⟨hhead, htail⟩ := List.pairwise_cons.1 h
    rw [get?_cons_eq_ite]
    split
    · next heq =>
      have hne : ∀ e' ∈ l, compare e'.1 key ≠ .eq := by
        intro e' he' heq'
        have hlt := compare_eq_lt_of_keyLT (hhead e' he')
        rw [Std.TransCmp.congr_left heq, Std.OrientedCmp.eq_symm heq'] at hlt
        contradiction
      constructor
      · intro hvalue
        exact ⟨e, List.mem_cons_self, heq, Option.some.inj hvalue⟩
      · rintro ⟨e', he', heq', rfl⟩
        rcases List.mem_cons.1 he' with rfl | he'
        · rfl
        · exact absurd heq' (hne e' he')
    · next hne =>
      rw [ih htail]
      constructor
      · rintro ⟨e', he', hboth⟩
        exact ⟨e', List.mem_cons_of_mem e he', hboth⟩
      · rintro ⟨e', he', heq', hvalue⟩
        rcases List.mem_cons.1 he' with rfl | he'
        · exact absurd heq' hne
        · exact ⟨e', he', heq', hvalue⟩

end Leaf

/-- Bounds do not tell equivalent keys apart. -/
theorem Bound.allows_congr {a b : κ} (h : compare a b = .eq) (lower upper : Bound κ) :
    lower.allows upper a = lower.allows upper b := by
  have hright : ∀ c, compare c a = compare c b := fun _ => Std.TransCmp.congr_right h
  have hleft : ∀ c, compare a c = compare b c := fun _ => Std.TransCmp.congr_left h
  cases lower <;> cases upper <;>
    simp only [allows, allowsFrom, allowsTo, keyLE, keyLT, hright, hleft]

namespace BTree

/-! ### Ranges -/

/-- The leaves of the chain, from the head on. -/
def chain (t : BTree κ υ) : List Nat :=
  t.leaves.visited t.leaves.size (some t.head)

omit [Ord κ] [Std.TransOrd κ] in
/-- The links from the head lead through the leaves in the order of the branches. -/
theorem Linked.chain_eq {t : BTree κ υ} (h : t.Linked) : t.chain = t.root.leaves := by
  rw [chain, ← h.head_eq]
  exact h.chained.visited_eq (Nat.le_of_eq h.length_eq)

omit [Ord κ] [Std.TransOrd κ] in
theorem Linked.perm_chain {t : BTree κ υ} (h : t.Linked) :
    t.chain.Perm (List.range t.leaves.size) := by
  rw [h.chain_eq]
  have hsubset : t.root.leaves ⊆ List.range t.leaves.size :=
    fun id hid => List.mem_range.2 (h.chained.lt_size id hid)
  apply (List.subperm_of_subset h.nodup hsubset).perm_of_length_le
  rw [List.length_range, h.length_eq]

/-- What scans of a tree between two bounds yield. -/
structure ExactRanges (t : BTree κ υ) : Prop where
  /-- The links join the leaves in the order in which the branches have them. -/
  linked : t.Linked
  /-- The chain has every leaf once. -/
  perm_chain : t.chain.Perm (List.range t.leaves.size)
  /-- The keys ascend strictly along the chain. -/
  chain_ascending : ((t.chain.flatMap t.leaves.entries).map (·.1)).Pairwise fun a b => keyLT a b
  toList_eq_chain : t.toList = t.chain.flatMap t.leaves.entries
  /-- Lookups find the entries whose keys the bounds allow, and only those. -/
  mem_iff : ∀ lower upper key value,
    (∃ e ∈ t.between lower upper, compare e.1 key = .eq ∧ e.2 = value) ↔
      t.get? key = some value ∧ lower.allowsFrom key ∧ upper.allowsTo key
  between_eq : ∀ lower upper, t.between lower upper =
    t.toList.filter fun e => lower.allowsFrom e.1 && upper.allowsTo e.1
  /-- The keys ascend strictly, so that none is yielded twice. -/
  ascending : ∀ lower upper, ((t.between lower upper).map (·.1)).Pairwise fun a b => keyLT a b
  take_eq : ∀ lower upper n, ((t.scan lower upper).take n).1 = (t.between lower upper).take n
  /-- However many steps a walk may take, it comes to the same entry. -/
  walk_eq : ∀ lower upper n steps, t.leaves.size < steps →
    (((t.scan lower upper).take n).2.walk steps).1 = (t.between lower upper)[n]?
  answer_eq : ∀ lower upper n, (t.scan lower upper).answer n = (t.between lower upper)[n]?
  answer_eq_none : ∀ lower upper n, (t.scan lower upper).answer n = none →
    ∀ n' ≥ n, (t.scan lower upper).answer n' = none
  range_eq : ∀ low high, t.range low high =
    t.toList.filter fun e => keyLE low e.1 && keyLT e.1 high
  between_ofKey_eq : ∀ low lowInclusive high highInclusive,
    t.between (.ofKey low lowInclusive) (.ofKey high highInclusive) =
      t.toList.filter fun e =>
        (if lowInclusive then keyLE low e.1 else keyLT low e.1) &&
          if highInclusive then keyLE e.1 high else keyLT e.1 high
  below_eq : ∀ key, t.below key = t.toList.filter fun e => keyLT e.1 key
  upTo_eq : ∀ key, t.upTo key = t.toList.filter fun e => keyLE e.1 key
  above_eq : ∀ key, t.above key = t.toList.filter fun e => keyLT key e.1
  startingAt_eq : ∀ key, t.startingAt key = t.toList.filter fun e => keyLE key e.1

variable {t : BTree κ υ}

theorem Sound.exactRanges (h : t.Sound) : t.ExactRanges where
  linked := h.linked
  perm_chain := h.linked.perm_chain
  chain_ascending := by
    rw [h.linked.chain_eq, ← entries_eq, ← Leaf.Ascending.iff_map_fst]
    exact h.ascending_entries
  toList_eq_chain := by
    rw [h.toList_eq, h.linked.chain_eq]
    exact entries_eq t
  mem_iff lower upper key value := by
    rw [h.between_eq, h.get?_eq, Leaf.get?_eq_some_iff_exists h.ascending, ← Bool.and_eq_true]
    constructor
    · rintro ⟨e, he, heq, hvalue⟩
      obtain ⟨hmem, hallows⟩ := List.mem_filter.1 he
      exact ⟨⟨e, hmem, heq, hvalue⟩, (Bound.allows_congr heq lower upper).symm.trans hallows⟩
    · rintro ⟨⟨e, hmem, heq, hvalue⟩, hallows⟩
      have he := (Bound.allows_congr heq lower upper).trans hallows
      exact ⟨e, List.mem_filter.2 ⟨hmem, he⟩, heq, hvalue⟩
  between_eq := h.between_eq
  ascending lower upper := by
    rw [h.between_eq, ← Leaf.Ascending.iff_map_fst]
    exact h.ascending.filter _
  take_eq := h.take_scan_eq
  walk_eq lower upper n _ hsteps := h.walk_take_scan_eq lower upper n hsteps
  answer_eq lower upper n := by
    rw [h.between_eq_entries]
    exact (h.before_scan lower upper).answer_eq n
  answer_eq_none lower upper n hnone n' hle :=
    (h.before_scan lower upper).answer_eq_none_of_le hnone hle
  range_eq low high := h.between_eq _ _
  between_ofKey_eq low lowInclusive high highInclusive := by
    rw [h.between_eq]
    cases lowInclusive <;> cases highInclusive <;> rfl
  below_eq key := h.between_eq _ _
  upTo_eq key := h.between_eq _ _
  above_eq key := by
    rw [above, h.between_eq]
    simp only [Bound.allows_to_unbounded]
    rfl
  startingAt_eq key := by
    rw [startingAt, h.between_eq]
    simp only [Bound.allows_to_unbounded]
    rfl

/-- Whatever is put into an empty tree, changed, loaded or cleared, the ranges of the tree are
exact. -/
theorem replay_exactRanges (order capacity : Nat) (actions : List (TreeAction κ υ)) :
    (replay act (empty (.ofSizes order capacity)) actions).2.ExactRanges :=
  (sound_replay _ actions).exactRanges

/-- Scans of six entries, in a tree whose second leaf was split: a bound on a key that is there,
bounds between keys, bounds that cross. -/
theorem replay_exactRanges_six :
    let actions : List (TreeAction Nat Nat) :=
      [.load ((List.range 5).map fun n => (10 * n, n)), .put 25 9, .modify 30 (· + 1)]
    let t := (replay act (empty (.ofSizes 3 3)) actions).2
    t.chain = [0, 1, 3, 2] ∧
      t.toList = [(0, 0), (10, 1), (20, 2), (25, 9), (30, 4), (40, 4)] ∧
      t.range 10 30 = [(10, 1), (20, 2), (25, 9)] ∧
      t.between (.excluded 22) (.included 39) = [(25, 9), (30, 4)] ∧
      t.between (.included 30) (.included 20) = [] ∧
      (t.scan (.excluded 22) (.included 39)).answer 2 = none ∧
      (t.scan (.excluded 22) (.included 39)).answer 7 = none := by
  intro actions t
  have h : t.ExactRanges := replay_exactRanges 3 3 actions
  have hlist : t.toList = [(0, 0), (10, 1), (20, 2), (25, 9), (30, 4), (40, 4)] := by
    decide +kernel
  have hbetween : t.between (.excluded 22) (.included 39) = [(25, 9), (30, 4)] := by
    rw [h.between_eq, hlist]
    decide
  have hend : (t.scan (.excluded 22) (.included 39)).answer 2 = none := by
    rw [h.answer_eq, hbetween]
    rfl
  have hlater := h.answer_eq_none _ _ 2 hend 7 (by decide)
  refine ⟨by decide +kernel, hlist, ?_, hbetween, ?_, hend, hlater⟩
  · rw [h.range_eq, hlist]
    decide
  · rw [h.between_eq, hlist]
    decide

end BTree

end RelStore
