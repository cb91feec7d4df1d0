import Mathlib.Data.List.SplitBy
import RelStore.Proofs.BTree.Map
import RelStore.Proofs.Sorting
import RelStore.Table.KeyIndex

/-!
# Buckets of key indexes

`KeyIndex.bucket?_append` says what an insertion does to the buckets, alike for hash tables and
trees.  A tree that is loaded at once has one bucket for each key of the rows
(`KeyIndex.bucket?_load`): `KeyIndex.gather` cuts rows that ascend by their keys where the key
changes, so that the keys of the groups ascend strictly.
-/

namespace RelStore

namespace KeyIndex

/-- What is asked of an index besides its buckets: a tree is sound. -/
def Sound : KeyIndex → Prop
  | hash _ => True
  | tree buckets => buckets.Sound

/-- The bucket of rows; without rows there is none. -/
def bucketOf? (rows : List Row) : Option Bucket :=
  if rows = [] then none else some rows.toArray

theorem bucketOf?_of_ne_nil {rows : List Row} (h : rows ≠ []) :
    bucketOf? rows = some rows.toArray :=
  if_neg h

@[simp] theorem getD_bucketOf? (rows : List Row) : (bucketOf? rows).getD #[] = rows.toArray := by
  by_cases h : rows = []
  · rw [h]
    rfl
  · rw [bucketOf?_of_ne_nil h]
    rfl

theorem bucketOf?_append_singleton (rows : List Row) (row : Row) :
    bucketOf? (rows ++ [row]) = some (((bucketOf? rows).getD #[]).push row) := by
  rw [bucketOf?_of_ne_nil (by simp), getD_bucketOf?, List.push_toArray]

/-! ### Insertion -/

variable {index : KeyIndex}

theorem Sound.append (h : index.Sound) (key : Value) (row : Row) :
    (index.append key row).Sound := by
  cases index with
  | hash buckets => trivial
  | tree buckets =>
    simp only [KeyIndex.append]
    split
    · exact BTree.Sound.modify h key _
    · exact BTree.Sound.insert h key _

/-- An insertion appends to the bucket of the key and leaves the others. -/
theorem bucket?_append (h : index.Sound) (key k : Value) (row : Row) :
    (index.append key row).bucket? k =
      if key = k then some (((index.bucket? key).getD #[]).push row) else index.bucket? k := by
  cases index with
  | hash buckets =>
    simp only [KeyIndex.append, bucket?, Std.HashMap.getElem?_alter, beq_iff_eq]
  | tree buckets =>
    have hagrees : buckets.Agrees buckets.get? := ⟨h, fun _ => rfl⟩
    simp only [KeyIndex.append, bucket?]
    by_cases hkey : buckets.contains key
    · obtain ⟨bucket, hbucket⟩ := Option.isSome_iff_exists.1 hkey
      rw [if_pos hkey, (hagrees.modify key _).2 k, Function.update_apply, hbucket]
      exact if_congr eq_comm rfl rfl
    · have hbucket : buckets.get? key = none := Option.not_isSome_iff_eq_none.1 hkey
      rw [if_neg hkey, (hagrees.insert key _).2 k, KeyMap.put, Function.update_apply, hbucket]
      exact if_congr eq_comm rfl rfl

/-! ### Loading -/

/-- The bucket of a group of rows under their common key. -/
def bucketOfGroup? (group : List (Value × Row)) : Option (Value × Bucket) :=
  group.head?.map fun first => (first.1, (group.map (·.2)).toArray)

/-- Groups that are not empty, each of one key, the keys ascending strictly. -/
def Grouped : List (List (Value × Row)) → Prop
  | [] => True
  | group :: groups =>
    (∃ key, group ≠ [] ∧ (∀ e ∈ group, e.1 = key) ∧ ∀ e ∈ groups.flatten, keyLT key e.1) ∧
      Grouped groups

theorem forall_eq_head {e : Value × Row} {group : List (Value × Row)}
    (h : (e :: group).IsChain fun a b => a.1 == b.1) : ∀ e' ∈ e :: group, e'.1 = e.1 := by
  induction group generalizing e with
  | nil => simp
  | cons e' group ih =>
    obtain ⟨hhead, htail⟩ := List.isChain_cons_cons.1 h
    have heq : e.1 = e'.1 := eq_of_beq hhead
    refine List.forall_mem_cons.2 ⟨rfl, fun x hx => ?_⟩
    rw [heq]
    exact ih htail x hx

/-- Where neighbours are joined if their keys agree, ascending keys leave groups of one key each. -/
theorem grouped_of_chain {groups : List (List (Value × Row))} (hne : [] ∉ groups)
    (hchain : ∀ group ∈ groups, group.IsChain fun a b => a.1 == b.1)
    (hcut : groups.IsChain fun a b =>
      ∃ (ha : a ≠ []) (hb : b ≠ []), ((a.getLast ha).1 == (b.head hb).1) = false)
    (hle : groups.flatten.Pairwise fun a b => keyLE a.1 b.1) : Grouped groups := by
  induction groups with
  | nil => trivial
  | cons group groups ih =>
    rw [List.mem_cons, not_or] at hne
    rw [List.flatten_cons] at hle
    obtain ⟨-, hrest, hcross⟩ := List.pairwise_append.1 hle
    obtain ⟨e, group, rfl⟩ := List.exists_cons_of_ne_nil (Ne.symm hne.1)
    have hkey := forall_eq_head (hchain _ List.mem_cons_self)
    refine ⟨⟨e.1, List.cons_ne_nil _ _, hkey, ?_⟩,
      ih hne.2 (fun g hg => hchain g (List.mem_cons_of_mem _ hg)) hcut.of_cons hrest⟩
    cases groups with
    | nil => simp
    | cons group' groups =>
      obtain ⟨⟨ha, hb, hdiff⟩, -⟩ := List.isChain_cons_cons.1 hcut
      obtain ⟨e', group', rfl⟩ := List.exists_cons_of_ne_nil hb
      rw [hkey _ (List.getLast_mem ha), List.head_cons, beq_eq_false_iff_ne] at hdiff
      rw [List.flatten_cons, List.cons_append] at hrest hcross ⊢
      have hle' : keyLE e.1 e'.1 := hcross e List.mem_cons_self e' List.mem_cons_self
      have hlt : keyLT e.1 e'.1 := by
        by_contra hnot
        have hge : keyLE e'.1 e.1 := keyLE_iff_not_keyLT.2 hnot
        exact hdiff (Std.LawfulEqOrd.eq_of_compare (Std.OrientedCmp.isLE_antisymm hle' hge))
      refine List.forall_mem_cons.2 ⟨hlt, fun x hx => ?_⟩
      exact keyLT_of_keyLT_of_keyLE hlt ((List.pairwise_cons.1 hrest).1 x hx)

/-- Rows that ascend by their keys are cut where the key changes. -/
theorem grouped_splitBy {keyed : List (Value × Row)}
    (h : keyed.Pairwise fun a b => keyLE a.1 b.1) :
    Grouped (keyed.splitBy fun a b => a.1 == b.1) :=
  grouped_of_chain (List.nil_notMem_splitBy _ _) (fun _ hg => List.isChain_of_mem_splitBy hg)
    (List.isChain_getLast_head_splitBy (fun a b : Value × Row => a.1 == b.1) _) (by rwa [List.flatten_splitBy])

/-- The keys of the buckets are keys of the rows. -/
theorem exists_mem_of_mem_buckets {groups : List (List (Value × Row))} {b : Value × Bucket}
    (hb : b ∈ groups.filterMap bucketOfGroup?) : ∃ e ∈ groups.flatten, e.1 = b.1 := by
  obtain ⟨group, hgroup, hsome⟩ := List.mem_filterMap.1 hb
  obtain ⟨e, he, rfl⟩ := Option.map_eq_some_iff.1 hsome
  exact ⟨e, List.mem_flatten.2 ⟨group, hgroup, List.mem_of_head? he⟩, rfl⟩

/-- Groups make a leaf with one bucket for each key. -/
theorem ascending_and_get?_buckets {groups : List (List (Value × Row))} (h : Grouped groups) :
    Leaf.Ascending (groups.filterMap bucketOfGroup?) ∧
      ∀ v, Leaf.get? v (groups.filterMap bucketOfGroup?) =
        bucketOf? ((groups.flatten.filter (·.1 = v)).map (·.2)) := by
  induction groups with
  | nil => exact ⟨.nil, fun _ => rfl⟩
  | cons group groups ih =>
    obtain ⟨⟨key, hne, hkey, hlater⟩, hrest⟩ := h
    obtain ⟨hasc, hget⟩ := ih hrest
    obtain ⟨e, group, rfl⟩ := List.exists_cons_of_ne_nil hne
    have hcons : (((e :: group) :: groups).filterMap bucketOfGroup?) =
        (key, ((e :: group).map (·.2)).toArray) :: groups.filterMap bucketOfGroup? := by
      rw [List.filterMap_cons, ← hkey e List.mem_cons_self]
      rfl
    rw [hcons]
    refine ⟨List.pairwise_cons.2 ⟨fun b hb => ?_, hasc⟩, fun v => ?_⟩
    · obtain ⟨x, hx, hxb⟩ := exists_mem_of_mem_buckets hb
      exact hxb ▸ hlater x hx
    · rw [Leaf.get?_cons, List.flatten_cons, List.filter_append, hget]
      by_cases hv : key = v
      · have hall : (e :: group).filter (·.1 = v) = e :: group :=
          List.filter_eq_self.2 fun x hx => decide_eq_true ((hkey x hx).trans hv)
        have hnone : groups.flatten.filter (·.1 = v) = [] :=
          List.filter_eq_nil_iff.2 fun x hx hxv =>
            keyLT_irrefl ((of_decide_eq_true hxv).trans hv.symm ▸ hlater x hx)
        rw [if_pos hv, hall, hnone, List.append_nil, bucketOf?_of_ne_nil (by simp)]
      · have hnone : (e :: group).filter (·.1 = v) = [] :=
          List.filter_eq_nil_iff.2 fun x hx hxv =>
            hv ((hkey x hx).symm.trans (of_decide_eq_true hxv))
        rw [if_neg hv, hnone, List.nil_append]

/-- A tree loaded with rows that ascend by their keys has their buckets. -/
theorem bucket?_load (shape : Shape) {keyed : List (Value × Row)}
    (h : keyed.Pairwise fun a b => keyLE a.1 b.1) :
    (BTree.ofEntries shape (gather keyed)).Sound ∧
      ∀ v, (BTree.ofEntries shape (gather keyed)).get? v =
        bucketOf? ((keyed.filter (·.1 = v)).map (·.2)) := by
  obtain ⟨hasc, hget⟩ := ascending_and_get?_buckets (grouped_splitBy h)
  have hsound := (BTree.sound_ofEntries shape (gather keyed)).1
  rw [List.flatten_splitBy] at hget
  refine ⟨hsound, fun v => ?_⟩
  have hgather : (gather keyed).foldl (fun l e => Leaf.insert e.1 e.2 l) [] = gather keyed :=
    Leaf.Ascending.foldl_insert (l := []) hasc
  rw [hsound.get?_eq, BTree.toList_ofEntries, hgather]
  exact hget v

end KeyIndex

end RelStore
