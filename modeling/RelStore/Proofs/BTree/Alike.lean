import RelStore.Proofs.BTree.Map

/-!
# B+trees that answer alike

`BTree.Alike t t'` says that nothing a tree can be asked tells `t` from `t'`, unless it is its
height: not its shape, a lookup, its size, its edges, a listing or a scan between any two bounds.
`BTree.alike_load` is the main result: a tree that is loaded at once and a tree into which the same
entries are put one by one are alike, and stay so under any further actions.

The two trees are built by different algorithms and have different nodes.  What they share is the
list of their entries and that they are sound (`BTree.SameEntries`); every action keeps that, and
every answer follows from it.
-/

namespace RelStore

variable {κ υ : Type} [Ord κ]

/-! ### The last value of a key -/

namespace Leaf

variable [Std.TransOrd κ]

omit [Std.TransOrd κ] in
theorem get?_cons_eq_ite (k : κ) (e : κ × υ) (l : Leaf κ υ) :
    get? k (e :: l) = if compare e.1 k = .eq then some e.2 else get? k l := by
  by_cases h : compare e.1 k = .eq <;> simp [get?, h]

theorem get?_insert_eq_ite (k key : κ) (value : υ) (l : Leaf κ υ) :
    get? k (insert key value l) = if compare key k = .eq then some value else get? k l := by
  have hcons := get?_cons_eq_ite (υ := υ) k
  induction l with
  | nil => exact hcons (key, value) []
  | cons e l ih =>
    unfold insert
    split
    · exact hcons (key, value) _
    · next heq =>
      -- The stored key is not the new one, but compares to every key as the new one does.
      rw [hcons, hcons, Std.TransCmp.congr_left heq]
      split <;> rfl
    · next hgt =>
      have hne : compare key k = .eq → compare e.1 k ≠ .eq := by
        intro hk he
        have hsame : compare key e.1 = .eq :=
          (Std.TransCmp.congr_left hk).trans (Std.OrientedCmp.eq_symm he)
        rw [hgt] at hsame
        contradiction
      rw [hcons (e.1, e.2) (insert key value l), hcons e l, ih]
      by_cases hk : compare key k = .eq
      · simp only [if_pos hk, if_neg (hne hk)]
      · simp only [if_neg hk]

/-- After insertions one after the other a key has the last value that it was given. -/
theorem get?_foldl_insert_eq (entries l : Leaf κ υ) (key : κ) :
    get? key (entries.foldl (fun l e => insert e.1 e.2 l) l) =
      (get? key entries.reverse).or (get? key l) := by
  induction entries generalizing l with
  | nil => rfl
  | cons e entries ih =>
    have hlast : get? key (entries.reverse ++ [e]) =
        (get? key entries.reverse).or (get? key [e]) := by
      simp only [get?, List.find?_append, Option.map_or]
    have hone : (get? key [e]).or (get? key l) = get? key (insert e.1 e.2 l) := by
      rw [get?_insert_eq_ite]
      by_cases h : compare e.1 key = .eq <;> simp [get?, h]
    rw [List.foldl_cons, ih, List.reverse_cons, hlast, Option.or_assoc, hone]

end Leaf

namespace BTree

/-! ### Shapes -/

variable {t t' : BTree κ υ}

theorem shape_act (t : BTree κ υ) (a : TreeAction κ υ) : (t.act a).2.shape = t.shape := by
  cases a with
  | put key value => exact shape_put t key value
  | modify key f => rfl
  | load entries => exact shape_ofEntries t.shape entries
  | clear => rfl

theorem shape_replay (t : BTree κ υ) (actions : List (TreeAction κ υ)) :
    (replay act t actions).2.shape = t.shape :=
  replay_keeps (P := fun t' : BTree κ υ => t'.shape = t.shape)
    (fun a _ t' h => (shape_act t' a).trans h) rfl

/-! ### Trees with the same entries -/

/-- Two sound trees of one shape with the same entries, whatever their nodes. -/
structure SameEntries (t t' : BTree κ υ) : Prop where
  shape_eq : t.shape = t'.shape
  sound_left : t.Sound
  sound_right : t'.Sound
  toList_eq : t.toList = t'.toList

/-- What a tree answers, its height apart. -/
structure Alike (t t' : BTree κ υ) : Prop where
  shape_eq : t.shape = t'.shape
  get?_eq : ∀ key, t.get? key = t'.get? key
  contains_eq : ∀ key, t.contains key = t'.contains key
  size_eq : t.size = t'.size
  isEmpty_eq : t.isEmpty = t'.isEmpty
  firstKey?_eq : t.firstKey? = t'.firstKey?
  lastKey?_eq : t.lastKey? = t'.lastKey?
  keys_eq : t.keys = t'.keys
  toList_eq : t.toList = t'.toList
  between_eq : ∀ lower upper, t.between lower upper = t'.between lower upper
  /-- Scans agree also where they are left half-way. -/
  take_scan_eq : ∀ lower upper n,
    ((t.scan lower upper).take n).1 = ((t'.scan lower upper).take n).1

variable [Std.TransOrd κ]

/-- Every answer of a sound tree is read off its entries. -/
theorem SameEntries.alike (h : t.SameEntries t') : t.Alike t' := by
  have hget : ∀ key, t.get? key = t'.get? key := by
    intro key
    rw [h.sound_left.get?_eq, h.sound_right.get?_eq, h.toList_eq]
  have hkeys : t.keys = t'.keys := by rw [keys, keys, h.toList_eq]
  have hbetween : ∀ lower upper, t.between lower upper = t'.between lower upper := by
    intro lower upper
    rw [h.sound_left.between_eq, h.sound_right.between_eq, h.toList_eq]
  constructor
  · exact h.shape_eq
  · exact hget
  · exact fun key => congrArg Option.isSome (hget key)
  · rw [h.sound_left.size_eq_length, h.sound_right.size_eq_length, h.toList_eq]
  · rw [h.sound_left.isEmpty_eq, h.sound_right.isEmpty_eq, h.toList_eq]
  · rw [h.sound_left.firstKey?_eq, h.sound_right.firstKey?_eq, hkeys]
  · rw [h.sound_left.lastKey?_eq, h.sound_right.lastKey?_eq, hkeys]
  · exact hkeys
  · exact h.toList_eq
  · exact hbetween
  · intro lower upper n
    rw [h.sound_left.take_scan_eq, h.sound_right.take_scan_eq, hbetween]

theorem SameEntries.insert (h : t.SameEntries t') (key : κ) (value : υ) :
    (t.insert key value).SameEntries (t'.insert key value) where
  shape_eq := (shape_put t key value).trans (h.shape_eq.trans (shape_put t' key value).symm)
  sound_left := h.sound_left.insert key value
  sound_right := h.sound_right.insert key value
  toList_eq := by
    rw [h.sound_left.toList_insert, h.sound_right.toList_insert, h.toList_eq]

theorem SameEntries.modify (h : t.SameEntries t') (key : κ) (f : υ → υ) :
    (t.modify key f).SameEntries (t'.modify key f) where
  shape_eq := h.shape_eq
  sound_left := h.sound_left.modify key f
  sound_right := h.sound_right.modify key f
  toList_eq := by
    rw [h.sound_left.toList_modify, h.sound_right.toList_modify, h.toList_eq]

omit [Std.TransOrd κ] in
theorem Sound.sameEntries (h : t.Sound) : t.SameEntries t :=
  ⟨rfl, h, h, rfl⟩

/-- Each action finds the same in both trees, and leaves them with the same entries. -/
theorem SameEntries.act (h : t.SameEntries t') (a : TreeAction κ υ) :
    (t.act a).1 = (t'.act a).1 ∧ (t.act a).2.SameEntries (t'.act a).2 := by
  cases a with
  | put key value =>
    refine ⟨?_, h.insert key value⟩
    rw [BTree.act, BTree.act, h.sound_left.fst_put, h.sound_right.fst_put, h.alike.get?_eq]
  | modify key f => exact ⟨h.alike.get?_eq key, h.modify key f⟩
  | load entries =>
    refine ⟨rfl, ?_⟩
    simp only [BTree.act, h.shape_eq]
    exact (sound_ofEntries t'.shape entries).1.sameEntries
  | clear =>
    refine ⟨rfl, ?_⟩
    simp only [BTree.act, clear, h.shape_eq]
    exact (sound_empty t'.shape).sameEntries

theorem Sound.act (h : t.Sound) (a : TreeAction κ υ) : (t.act a).2.Sound :=
  (h.sameEntries.act a).2.sound_left

/-- Whatever is done to an empty tree, it stays sound. -/
theorem sound_replay (shape : Shape) (actions : List (TreeAction κ υ)) :
    (replay act (empty shape) actions).2.Sound :=
  replay_keeps (fun a _ _ h => h.act a) (sound_empty shape)

/-! ### Loading and putting -/

omit [Std.TransOrd κ] in
/-- Putting entries one by one is inserting them. -/
theorem replay_put (t : BTree κ υ) (entries : List (κ × υ)) :
    (replay act t (entries.map fun e => .put e.1 e.2)).2 =
      entries.foldl (fun t e => t.insert e.1 e.2) t := by
  induction entries generalizing t with
  | nil => rfl
  | cons e entries ih => exact ih (t.insert e.1 e.2)

/-- A loaded tree has the entries of an empty tree into which they are put. -/
theorem sameEntries_load (t : BTree κ υ) (entries : List (κ × υ)) :
    (t.act (.load entries)).2.SameEntries
      (replay act (empty t.shape) (entries.map fun e => .put e.1 e.2)).2 := by
  obtain ⟨hfilled, hentries⟩ := (sound_empty (υ := υ) t.shape).foldl_insert entries
  rw [replay_put]
  refine ⟨?_, (sound_ofEntries t.shape entries).1, hfilled, ?_⟩
  · rw [shape_foldl_insert]
    exact shape_ofEntries t.shape entries
  · rw [hfilled.toList_eq, hentries]
    exact toList_ofEntries t.shape entries

/-- Loading a tree, whatever it held, is the same as emptying it and putting the entries one after
the other: the two trees answer alike, every key with the last value that it was given, and after
any further actions they have given the same answers and are still alike. -/
theorem alike_load (t : BTree κ υ) (entries : List (κ × υ)) (actions : List (TreeAction κ υ)) :
    let loaded := (t.act (.load entries)).2
    let filled := (replay act (empty t.shape) (entries.map fun e => .put e.1 e.2)).2
    loaded.Alike filled ∧
      (∀ key, loaded.get? key =
        (entries.reverse.find? fun e => compare e.1 key == .eq).map (·.2)) ∧
      (replay act loaded actions).1 = (replay act filled actions).1 ∧
      (replay act loaded actions).2.Alike (replay act filled actions).2 := by
  intro loaded filled
  have hsame : loaded.SameEntries filled := sameEntries_load t entries
  obtain ⟨hanswers, hlast⟩ := replay_related (fun _ _ a h => h.act a) hsame actions
  refine ⟨hsame.alike, fun key => ?_, hanswers, hlast.alike⟩
  have hget : loaded.get? key = Leaf.get? key loaded.toList := hsame.sound_left.get?_eq key
  have htoList : loaded.toList = entries.foldl (fun l e => Leaf.insert e.1 e.2 l) [] :=
    toList_ofEntries t.shape entries
  rw [hget, htoList, Leaf.get?_foldl_insert_eq]
  exact Option.or_none

/-- Eight entries that are loaded at once fill two levels, and three if they are put one by one. -/
theorem alike_load_heights :
    let entries : List (Nat × Nat) := (List.range 8).map fun n => (n, n * n)
    let actions : List (TreeAction Nat Nat) := [.put 3 0, .put 9 1, .modify 4 (· + 1)]
    let loaded := ((empty (.ofSizes 3 4)).act (.load entries)).2
    let filled := (replay act (empty (.ofSizes 3 4)) (entries.map fun e => .put e.1 e.2)).2
    loaded.height = 2 ∧ filled.height = 3 ∧ loaded.Alike filled ∧
      (replay act loaded actions).1 = [some 9, none, some 16] ∧
      (replay act loaded actions).2.Alike (replay act filled actions).2 := by
  intro entries actions loaded filled
  obtain ⟨halike, -, hanswers, hlast⟩ := alike_load (empty (.ofSizes 3 4)) entries actions
  exact ⟨by decide +kernel, by decide +kernel, halike, hanswers.trans (by decide +kernel), hlast⟩

end BTree

end RelStore
