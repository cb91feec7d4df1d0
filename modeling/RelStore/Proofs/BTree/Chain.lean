import RelStore.BTree.Bulk

/-!
# Chains of leaves

`Arena.Chained a prev ids` says that the links of the leaves `ids` join them in this order: each has
the leaf before it on its left and the leaf behind it on its right, and `prev` is on the left of the
first.  A change of entries leaves the links alone, and a leaf that is linked in behind another
takes its place in the order (`Arena.Chained.linkAfter`); `Arena.Holds` is what becomes of it if one
leaf after the other is linked in at the end.
-/

namespace RelStore

variable {κ υ : Type}

namespace Arena

/-- The links of a leaf to the left and to the right. -/
def links? (a : Arena κ υ) (id : Nat) : Option (Option Nat × Option Nat) :=
  a[id]?.map fun leaf => (leaf.prev, leaf.next)

/-- The links join the leaves `ids` in this order, with `prev` on the left of the first. -/
def Chained (a : Arena κ υ) : Option Nat → List Nat → Prop
  | _, [] => True
  | prev, id :: ids => a.links? id = some (prev, ids.head?) ∧ Chained a (some id) ids

variable {a a' : Arena κ υ} {id i : Nat} {ids left right : List Nat} {prev : Option Nat}

theorem next?_eq (a : Arena κ υ) (id : Nat) : a.next? id = (a.links? id).bind (·.2) := by
  rw [next?, links?, Option.bind_map]
  rfl

/-! ### Changes of entries -/

section Entries

variable (a id) (f : Leaf κ υ → Leaf κ υ)

@[simp] theorem size_modifyEntries : (a.modifyEntries id f).size = a.size :=
  Array.size_modify

@[simp] theorem links?_modifyEntries : (a.modifyEntries id f).links? i = a.links? i := by
  rw [links?, links?, modifyEntries, Array.getElem?_modify]
  split
  · rw [Option.map_map]
    rfl
  · rfl

theorem entries_modifyEntries_self (h : id < a.size) :
    (a.modifyEntries id f).entries id = f (a.entries id) := by
  rw [entries, entries, modifyEntries, Array.getElem?_modify, if_pos rfl,
    Array.getElem?_eq_getElem h]
  rfl

theorem entries_modifyEntries_of_ne (h : i ≠ id) :
    (a.modifyEntries id f).entries i = a.entries i := by
  rw [entries, entries, modifyEntries, Array.getElem?_modify, if_neg h.symm]

end Entries

/-! ### Leaves that are linked in -/

section Links

variable (a id) (new : Leaf κ υ)

/-- What is found under an id after a leaf was linked in. -/
theorem getElem?_linkAfter :
    (a.linkAfter id new)[i]? =
      if i = a.size then some { entries := new, prev := some id, next := a.next? id }
      else a[i]?.map fun leaf =>
        { leaf with
          prev := if a.next? id = some i then some a.size else leaf.prev
          next := if i = id then some a.size else leaf.next } := by
  unfold linkAfter
  cases a.next? id with
  | none =>
    simp only [Array.getElem?_push, Array.size_modify, Array.getElem?_modify, @eq_comm _ id i]
    split
    · rfl
    · by_cases hi : i = id <;> simp [hi]
  | some right =>
    simp only [Array.getElem?_push, Array.size_modify, Array.getElem?_modify, @eq_comm _ id i,
      Option.some.injEq]
    split
    · rfl
    · by_cases hi : i = id
      · subst hi
        by_cases hr : right = i <;> simp [hr, Function.comp_def]
      · by_cases hr : right = i <;> simp [hi, hr]

@[simp] theorem size_linkAfter : (a.linkAfter id new).size = a.size + 1 := by
  unfold linkAfter
  cases a.next? id <;> simp

theorem entries_linkAfter_size : (a.linkAfter id new).entries a.size = new := by
  rw [entries, getElem?_linkAfter, if_pos rfl]
  rfl

theorem entries_linkAfter_of_ne (h : i ≠ a.size) :
    (a.linkAfter id new).entries i = a.entries i := by
  rw [entries, entries, getElem?_linkAfter, if_neg h, Option.map_map]
  rfl

theorem links?_linkAfter_size :
    (a.linkAfter id new).links? a.size = some (some id, a.next? id) := by
  rw [links?, getElem?_linkAfter, if_pos rfl]
  rfl

/-- The leaves beside the new one have links to it; all other links stay. -/
theorem links?_linkAfter_of_ne (h : i ≠ a.size) :
    (a.linkAfter id new).links? i = (a.links? i).map fun l =>
      (if a.next? id = some i then some a.size else l.1, if i = id then some a.size else l.2) := by
  rw [links?, links?, getElem?_linkAfter, if_neg h, Option.map_map, Option.map_map]
  rfl

end Links

/-! ### Chains -/

/-- A chain is a matter of the links of its leaves. -/
theorem Chained.congr (h : a.Chained prev ids) (hsame : ∀ id ∈ ids, a'.links? id = a.links? id) :
    a'.Chained prev ids := by
  induction ids generalizing prev with
  | nil => trivial
  | cons id ids ih =>
    obtain ⟨hid, hrest⟩ := h
    obtain ⟨hsame, hsame'⟩ := List.forall_mem_cons.1 hsame
    exact ⟨hsame.trans hid, ih hrest hsame'⟩

theorem Chained.modifyEntries (h : a.Chained prev ids) (id : Nat) (f : Leaf κ υ → Leaf κ υ) :
    (a.modifyEntries id f).Chained prev ids :=
  h.congr fun _ _ => links?_modifyEntries a id f

theorem Chained.of_append (h : a.Chained prev (left ++ ids)) : ∃ prev, a.Chained prev ids := by
  induction left generalizing prev with
  | nil => exact ⟨prev, h⟩
  | cons id left ih => exact ih h.2

theorem Chained.lt_size (h : a.Chained prev ids) : ∀ id ∈ ids, id < a.size := by
  induction ids generalizing prev with
  | nil => simp
  | cons id ids ih =>
    obtain ⟨leaf, hleaf, -⟩ := Option.map_eq_some_iff.1 h.1
    exact List.forall_mem_cons.2 ⟨(Array.getElem?_eq_some_iff.1 hleaf).1, ih h.2⟩

/-- The link to the right leads to the next leaf of the chain. -/
theorem Chained.next?_eq (h : a.Chained prev (id :: ids)) : a.next? id = ids.head? := by
  rw [Arena.next?_eq, h.1]
  rfl

/-- The leaves that the links to the right lead through, in at most `n` steps. -/
def visited (a : Arena κ υ) : Nat → Option Nat → List Nat
  | 0, _ => []
  | _ + 1, none => []
  | n + 1, some id => id :: visited a n (a.next? id)

theorem Chained.visited_eq (h : a.Chained prev ids) {n : Nat} (hn : ids.length ≤ n) :
    a.visited n ids.head? = ids := by
  induction ids generalizing prev n with
  | nil => cases n <;> rfl
  | cons id ids ih =>
    cases n with
    | zero => exact absurd hn (by simp)
    | succ n =>
      rw [List.head?_cons, visited, h.next?_eq, ih h.2 (Nat.le_of_succ_le_succ hn)]

/-- A leaf that is linked in behind another stands behind it in the chain. -/
theorem Chained.linkAfter (h : a.Chained prev (left ++ id :: right))
    (hnodup : (left ++ id :: right).Nodup) (new : Leaf κ υ) :
    (a.linkAfter id new).Chained prev (left ++ id :: a.size :: right) := by
  obtain ⟨prev', hlater⟩ := h.of_append
  have hnext := hlater.next?_eq
  have hsize : ∀ i ∈ left ++ id :: right, i ≠ a.size := fun i hi => Nat.ne_of_lt (h.lt_size i hi)
  induction left generalizing prev with
  | nil =>
    obtain ⟨hid, hright⟩ := h
    obtain ⟨hnot, hnodup⟩ := List.nodup_cons.1 hnodup
    obtain ⟨hsize, hsize'⟩ := List.forall_mem_cons.1 hsize
    have hself : a.next? id ≠ some id := by
      rw [hnext]
      exact fun hhead => hnot (List.mem_of_head? hhead)
    refine ⟨?_, ?_, ?_⟩
    · rw [links?_linkAfter_of_ne a id new hsize, hid]
      simp [hself]
    · rw [links?_linkAfter_size, hnext]
    · cases right with
      | nil => trivial
      | cons i right =>
        obtain ⟨hi, hrest⟩ := hright
        obtain ⟨hnot', -⟩ := List.nodup_cons.1 hnodup
        rw [List.mem_cons, not_or] at hnot
        obtain ⟨hsize, hsize'⟩ := List.forall_mem_cons.1 hsize'
        refine ⟨?_, hrest.congr fun j hj => ?_⟩
        · rw [links?_linkAfter_of_ne a id new hsize, hi]
          simp [hnext, Ne.symm hnot.1]
        · have hij : i ≠ j := fun heq => hnot' (heq ▸ hj)
          have hjid : j ≠ id := fun heq => hnot.2 (heq ▸ hj)
          rw [links?_linkAfter_of_ne a id new (hsize' j hj)]
          simp [hnext, hij, hjid]
  | cons i left ih =>
    obtain ⟨hi, hrest⟩ := h
    rw [List.cons_append] at hnodup hsize
    obtain ⟨hnot, hnodup⟩ := List.nodup_cons.1 hnodup
    obtain ⟨hsize, hsize'⟩ := List.forall_mem_cons.1 hsize
    simp only [List.mem_append, List.mem_cons, not_or] at hnot
    refine ⟨?_, ih hrest hnodup hsize'⟩
    have hother : a.next? id ≠ some i := by
      rw [hnext]
      exact fun hhead => hnot.2.2 (List.mem_of_head? hhead)
    rw [links?_linkAfter_of_ne a id new hsize, hi]
    cases left <;> simp [hother, hnot.2.1]

/-! ### Leaves that are linked in one after the other -/

/-- The leaves of an arena, chained in the order of their ids. -/
structure Holds (a : Arena κ υ) (groups : List (Leaf κ υ)) : Prop where
  size_eq : a.size = groups.length
  chained : a.Chained none (List.range groups.length)
  entries_eq : ∀ i, a.entries i = groups[i]?.getD []

theorem Holds.linkAfter {groups : List (Leaf κ υ)} (h : a.Holds groups) (hne : groups ≠ [])
    (new : Leaf κ υ) : (a.linkAfter (a.size - 1) new).Holds (groups ++ [new]) := by
  obtain ⟨n, hn⟩ : ∃ n, groups.length = n + 1 := Nat.exists_eq_succ_of_ne_zero (by simpa using hne)
  have hsize := h.size_eq
  have hrange : List.range groups.length = List.range n ++ [n] := by rw [hn, List.range_succ]
  have hlast : a.size - 1 = n := by omega
  constructor
  · rw [size_linkAfter, hsize, List.length_append, List.length_singleton]
  · have hchained := (hrange ▸ h.chained).linkAfter (hrange ▸ List.nodup_range) new
    rw [hlast, List.length_append, List.length_singleton, List.range_succ, hrange, ← hsize,
      List.append_assoc]
    exact hchained
  · intro i
    by_cases hi : i = a.size
    · rw [hi, entries_linkAfter_size, hsize, List.getElem?_concat_length]
      rfl
    · rw [entries_linkAfter_of_ne a _ new hi, h.entries_eq, List.getElem?_append]
      split
      · rfl
      · rw [List.getElem?_eq_none (by omega), List.getElem?_eq_none (by simp; omega)]

/-- Groups of entries become leaves that are chained in their order. -/
theorem holds_ofGroups (groups : List (Leaf κ υ)) : (ofGroups groups).Holds groups := by
  cases groups with
  | nil => exact ⟨rfl, trivial, fun _ => rfl⟩
  | cons group groups =>
    have hfold : ∀ (groups done : List (Leaf κ υ)) (a : Arena κ υ), a.Holds done → done ≠ [] →
        (groups.foldl (fun a group => a.linkAfter (a.size - 1) group) a).Holds (done ++ groups) := by
      intro groups
      induction groups with
      | nil => exact fun done a h _ => by rwa [List.append_nil]
      | cons group groups ih =>
        intro done a h hne
        have hstep := ih (done ++ [group]) _ (h.linkAfter hne group) (by simp)
        rwa [List.append_assoc] at hstep
    refine hfold groups [group] _ ⟨rfl, ⟨rfl, trivial⟩, fun i => ?_⟩ (List.cons_ne_nil _ _)
    cases i <;> rfl

end Arena

end RelStore
