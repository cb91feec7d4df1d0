import RelStore.Proofs.Table.KeyIndex
import RelStore.Table.Keyed

/-!
# Coherence of storages with one key

`Keyed.Coherent` says that everything a storage keeps beside its rows is read off the rows: each
bucket holds the rows with its key in the order of their insertion, the rows without a key are on
their own, and the set of primary keys is that of the rows.  Insertion keeps a storage coherent, one
row at a time (`Keyed.Coherent.insert`) or by loading a tree (`Keyed.Coherent.insertAll`), whatever
the rows are; so the answers of a storage depend on its rows alone.
-/

namespace RelStore

/-! ### Primary keys -/

namespace KeySet

variable {s : Schema} {keys : KeySet} {rows : List Row}

/-- The set holds the primary keys of the rows. -/
def Covers (s : Schema) (keys : KeySet) (rows : List Row) : Prop :=
  ∀ key, key ∈ keys ↔ ∃ row ∈ rows, Row.primaryKey? s row = some key

theorem covers_empty (s : Schema) : Covers s ∅ [] := by
  intro key
  simp

theorem mem_insertOf {row : Row} {key : Value} :
    key ∈ keys.insertOf s row ↔ Row.primaryKey? s row = some key ∨ key ∈ keys := by
  unfold insertOf
  split
  · next k hk => rw [Std.HashSet.mem_insert, beq_iff_eq, hk, Option.some.injEq]
  · next hk => simp [hk]

theorem Covers.insertOf (h : Covers s keys rows) (row : Row) :
    Covers s (keys.insertOf s row) (rows ++ [row]) := by
  intro key
  rw [mem_insertOf, h key]
  simp only [List.mem_append, List.mem_singleton]
  constructor
  · rintro (hrow | ⟨row', hmem, hrow'⟩)
    · exact ⟨row, .inr rfl, hrow⟩
    · exact ⟨row', .inl hmem, hrow'⟩
  · rintro ⟨row', hmem | rfl, hrow'⟩
    · exact .inr ⟨row', hmem, hrow'⟩
    · exact .inl hrow'

theorem Covers.foldl_insertOf (h : Covers s keys rows) (more : List Row) :
    Covers s (more.foldl (·.insertOf s ·) keys) (rows ++ more) := by
  induction more generalizing keys rows with
  | nil => rwa [List.append_nil]
  | cons row more ih =>
    have hnext := ih (h.insertOf row)
    rwa [List.append_assoc] at hnext

/-- The verdict on the primary key of a row beside rows. -/
def verdict (s : Schema) (rows : List Row) (row : Row) : Verdict :=
  match Row.primaryKey? s row with
  | none => .success
  | some key =>
    if key = .null then .nullKey
    else if ∃ row' ∈ rows, Row.primaryKey? s row' = some key then .duplicateKey
    else .success

theorem Covers.check_eq (h : Covers s keys rows) (row : Row) :
    keys.check s row = verdict s rows row := by
  unfold check verdict
  cases Row.primaryKey? s row with
  | none => rfl
  | some key =>
    refine if_congr Value.isNull_iff rfl (if_congr ?_ rfl rfl)
    rw [Std.HashSet.contains_iff_mem, h key]

end KeySet

namespace Keyed

/-! ### Coherence -/

/-- The rows with a key, in the order of their insertion. -/
def rowsAt (k : Keyed) (key : Value) : List Row :=
  k.rows.toList.filter (k.key? · = some key)

/-- The index, the list of rows without a key and the set of primary keys agree with the rows. -/
structure Coherent (s : Schema) (k : Keyed) : Prop where
  sound : k.index.Sound
  bucket?_eq : ∀ key, k.index.bucket? key = KeyIndex.bucketOf? (k.rowsAt key)
  unkeyed_eq : k.unkeyed.toList = k.rows.toList.filter (k.key? · = none)
  covers : KeySet.Covers s k.primaryKeys k.rows.toList

/-- What an insertion leaves as it is, and the rows after it. -/
structure Extends (k : Keyed) (rows : List Row) (k' : Keyed) : Prop where
  column_eq : k'.column = k.column
  type_eq : k'.index.type = k.index.type
  rows_eq : k'.rows.toList = k.rows.toList ++ rows

variable {s : Schema} {k : Keyed} {row : Row}

theorem key?_congr {k' : Keyed} (h : k'.column = k.column) : k'.key? = k.key? := by
  funext row
  rw [key?, h]
  rfl

theorem coherent_hash (s : Schema) (column : Nat) : (hash column).Coherent s where
  sound := trivial
  bucket?_eq _ := Std.HashMap.getElem?_empty
  unkeyed_eq := rfl
  covers := KeySet.covers_empty s

theorem coherent_tree (s : Schema) (column : Nat) (shape : Shape) :
    (tree column shape).Coherent s where
  sound := BTree.sound_empty shape
  bucket?_eq key := (BTree.agrees_empty shape).2 key
  unkeyed_eq := rfl
  covers := KeySet.covers_empty s

theorem Coherent.getD_bucket? (h : k.Coherent s) (key : Value) :
    (k.index.bucket? key).getD #[] = (k.rowsAt key).toArray := by
  rw [h.bucket?_eq, KeyIndex.getD_bucketOf?]

/-! ### Checks -/

/-- A bucket holds a row that has its key if the storage does. -/
theorem Coherent.check_eq (h : k.Coherent s) (row : Row) :
    k.check s row =
      if (k.key? row).isSome ∧ row ∈ k.rows.toList then .duplicateRow
      else KeySet.verdict s k.rows.toList row := by
  have hbucket : (((k.key? row).bind k.index.bucket?).getD #[]).contains row ↔
      (k.key? row).isSome ∧ row ∈ k.rows.toList := by
    cases hkey : k.key? row with
    | none => simp
    | some key =>
      rw [Option.bind_some, h.getD_bucket?]
      simp [rowsAt, hkey]
  rw [check, h.covers.check_eq]
  exact if_congr hbucket rfl rfl

/-- The schema matters for its primary key only. -/
theorem Coherent.renamed (h : k.Coherent s) (name : String) : k.Coherent (s.renamed name) :=
  ⟨h.sound, h.bucket?_eq, h.unkeyed_eq, h.covers⟩

/-! ### Insertion -/

/-- The row before the insertion had a key or not; either way it is pushed. -/
theorem extends_insert (k : Keyed) (s : Schema) (row : Row) : k.Extends [row] (k.insert s row) := by
  unfold insert
  split
  · next key hkey =>
    refine ⟨rfl, ?_, Array.toList_push⟩
    cases hindex : k.index <;> simp [KeyIndex.append, KeyIndex.type]
  · exact ⟨rfl, rfl, Array.toList_push⟩

theorem rowsAt_push {k' : Keyed} (h : k.Extends [row] k') (key : Value) :
    k'.rowsAt key = if k.key? row = some key then k.rowsAt key ++ [row] else k.rowsAt key := by
  unfold rowsAt
  rw [h.rows_eq, key?_congr h.column_eq, List.filter_append]
  by_cases hkey : k.key? row = some key <;> simp [hkey]

theorem Coherent.insert (h : k.Coherent s) (row : Row) : (k.insert s row).Coherent s := by
  have hext := extends_insert k s row
  have hrows := rowsAt_push hext
  have hcovers : KeySet.Covers s (k.primaryKeys.insertOf s row) (k.rows.push row).toList := by
    rw [Array.toList_push]
    exact h.covers.insertOf row
  have hunkeyed : (k.rows.push row).toList.filter (k.key? · = none) =
      k.unkeyed.toList ++ [row].filter (k.key? · = none) := by
    rw [Array.toList_push, List.filter_append, h.unkeyed_eq]
  unfold Keyed.insert at hrows ⊢
  cases hkey : k.key? row with
  | some key =>
    simp only [hkey] at hrows ⊢
    refine ⟨h.sound.append key row, fun k' => ?_, ?_, hcovers⟩
    · rw [hrows, KeyIndex.bucket?_append h.sound, h.bucket?_eq, h.bucket?_eq]
      by_cases heq : key = k'
      · subst heq
        rw [if_pos rfl, if_pos rfl, KeyIndex.bucketOf?_append_singleton]
      · rw [if_neg heq, if_neg (by simpa using heq)]
    · exact (hunkeyed.trans (by simp [hkey])).symm
  | none =>
    simp only [hkey] at hrows ⊢
    refine ⟨h.sound, fun k' => ?_, ?_, hcovers⟩
    · rw [hrows, if_neg (by simp)]
      exact h.bucket?_eq k'
    · exact (hunkeyed.trans (by simp [hkey])).symm

theorem extends_foldl_insert (k : Keyed) (s : Schema) (rows : List Row) :
    k.Extends rows (rows.foldl (·.insert s ·) k) := by
  induction rows generalizing k with
  | nil => exact ⟨rfl, rfl, (List.append_nil _).symm⟩
  | cons row rows ih =>
    have hfirst := extends_insert k s row
    have hrest := ih (k.insert s row)
    refine ⟨hrest.column_eq.trans hfirst.column_eq, hrest.type_eq.trans hfirst.type_eq, ?_⟩
    rw [List.foldl_cons, hrest.rows_eq, hfirst.rows_eq, List.append_assoc]
    rfl

theorem Coherent.foldl_insert (h : k.Coherent s) (rows : List Row) :
    (rows.foldl (·.insert s ·) k).Coherent s :=
  List.foldlRecOn rows _ h fun _ hk row _ => hk.insert row

/-! ### Loading -/

/-- The rows that have a key, each with its key. -/
def keyedRows (k : Keyed) (rows : List Row) : List (Value × Row) :=
  rows.filterMap fun row => (k.key? row).map (·, row)

theorem filter_keyedRows (k : Keyed) (rows : List Row) (key : Value) :
    ((k.keyedRows rows).filter (·.1 = key)).map (·.2) = rows.filter (k.key? · = some key) := by
  induction rows with
  | nil => rfl
  | cons row rows ih =>
    unfold keyedRows at ih ⊢
    cases hkey : k.key? row with
    | none => simpa [hkey] using ih
    | some key' =>
      by_cases heq : key' = key
      · simpa [hkey, heq] using ih
      · simpa [hkey, heq] using ih

theorem Coherent.load (h : k.Coherent s) (hempty : k.rows.toList = []) (shape : Shape)
    (rows : List Row) : (k.load s shape rows).Coherent s := by
  have hsorted := pairwise_mergeSort (Prod.fst : Value × Row → Value) (k.keyedRows rows)
  obtain ⟨hsound, hget⟩ := KeyIndex.bucket?_load shape hsorted
  refine ⟨hsound, fun key => (hget key).trans ?_, ?_, ?_⟩
  · rw [filter_mergeSort, filter_keyedRows]
    rfl
  · exact List.filter_congr fun row _ =>
      Bool.eq_iff_iff.2 (Option.isNone_iff_eq_none.trans decide_eq_true_iff.symm)
  · have hcovers := h.covers.foldl_insertOf rows
    rwa [hempty, List.nil_append] at hcovers

theorem extends_insertAll (k : Keyed) (s : Schema) (rows : List Row) :
    k.Extends rows (k.insertAll s rows) := by
  unfold Keyed.insertAll
  split
  · next buckets hindex =>
    split
    · next hempty =>
      have hnil : k.rows.toList = [] := by simpa using hempty
      refine ⟨rfl, ?_, ?_⟩
      · rw [hindex]
        rfl
      · rw [hnil]
        rfl
    · exact extends_foldl_insert k s rows
  · exact extends_foldl_insert k s rows

theorem Coherent.insertAll (h : k.Coherent s) (rows : List Row) :
    (k.insertAll s rows).Coherent s := by
  unfold Keyed.insertAll
  split
  · next buckets hindex =>
    split
    · next hempty => exact h.load (by simpa using hempty) buckets.shape rows
    · exact h.foldl_insert rows
  · exact h.foldl_insert rows

end Keyed

end RelStore
