import Mathlib.Data.List.Perm.Basic
import Mathlib.Data.List.ProdSigma
import RelStore.Proofs.Table.Basic
import RelStore.Query.Join

/-!
# Joins and nested loops

A join takes the left rows in the order of the compared column and keeps the right rows that it
looked up last, for the left rows with the same key.  What it keeps is what another look-up would
give (`Table.Merge.Fresh`), so a join looks up the right rows of every left row
(`Table.matchingRows_eq`).

`Table.Filled.join_eq_nestedLoop` is the main result: whatever indexes the two tables have, their
join is the nested loop over their rows, in an order that the left rows and the look-ups determine.
-/

namespace RelStore

/-- Whether a comparison relates a left with a right row. -/
def JoinOn.relates (on : JoinOn) (row other : Row) : Bool :=
  match row[on.left]?, other[on.right]? with
  | some v, some w => on.op.holds v w
  | _, _ => false

theorem Schema.width_join (l r : Schema) : (l.join r).width = l.width + r.width := by
  simp [width, join, qualifiedColumns]

namespace Table

variable {l r : Table} {on : JoinOn}

/-! ### Merging -/

namespace Merge

variable {m : Merge}

/-- The right rows that are kept are those that a look-up of their key gives. -/
def Fresh (r : Table) (on : JoinOn) (m : Merge) : Prop :=
  ∀ key rows, m.latest = some (key, rows) → rows = r.rowsFor on key

theorem fresh_empty (r : Table) (on : JoinOn) : Fresh r on {} :=
  fun _ _ hlatest => absurd hlatest (Option.some_ne_none _).symm

theorem Fresh.rowsFor_eq (h : m.Fresh r on) (key : Value) :
    m.rowsFor r on key = r.rowsFor on key := by
  unfold rowsFor
  split
  · next latest rows hlatest =>
    split
    · next heq =>
      subst heq
      exact h _ _ hlatest
    · rfl
  · rfl

/-- A left row is paired with the right rows of its key, and these are kept. -/
theorem Fresh.step (h : m.Fresh r on) (row : Row) :
    (m.step r on row).Fresh r on ∧ (m.step r on row).rows.toList =
      m.rows.toList ++ (r.rowsFor on (joinKey on row)).map (row ++ ·) := by
  have hlookup := h.rowsFor_eq (joinKey on row)
  refine ⟨fun key rows hlatest => ?_, ?_⟩
  · obtain ⟨rfl, rfl⟩ : joinKey on row = key ∧ m.rowsFor r on (joinKey on row) = rows := by
      simpa [Merge.step] using hlatest
    exact hlookup
  · simp only [Merge.step, hlookup, Array.toList_appendList]

theorem Fresh.foldl (h : m.Fresh r on) (rows : List Row) :
    (rows.foldl (Merge.step r on) m).rows.toList =
      m.rows.toList ++ rows.flatMap fun row => (r.rowsFor on (joinKey on row)).map (row ++ ·) := by
  induction rows generalizing m with
  | nil => exact (List.append_nil _).symm
  | cons row rows ih =>
    obtain ⟨hfresh, hrows⟩ := h.step row
    rw [List.foldl_cons, ih hfresh, hrows, List.flatMap_cons, List.append_assoc]

end Merge

/-- A join looks up the right rows of each left row. -/
theorem matchingRows_eq (l r : Table) (on : JoinOn) :
    matchingRows l r on = (l.sorted on.left).flatMap fun row =>
      (r.rowsFor on (joinKey on row)).map (row ++ ·) :=
  ((Merge.fresh_empty r on).foldl _).trans (List.nil_append _)

/-- The rows of a join are pairs of stored rows. -/
theorem exists_of_mem_rows_join (hl : l.storage.Coherent l.schema)
    (hr : r.storage.Coherent r.schema) {on : Option JoinOn} {row : Row}
    (h : row ∈ (l.join r on).rows) :
    ∃ a ∈ l.records, ∃ b ∈ r.records, row = a ++ b := by
  cases on with
  | none =>
    obtain ⟨a, ha, h⟩ := List.mem_flatMap.1 h
    obtain ⟨b, hb, rfl⟩ := List.mem_map.1 h
    exact ⟨a, ha, b, hb, rfl⟩
  | some on =>
    have hrow : row ∈ matchingRows l r on := h
    rw [matchingRows_eq] at hrow
    obtain ⟨a, ha, hrow⟩ := List.mem_flatMap.1 hrow
    obtain ⟨b, hb, rfl⟩ := List.mem_map.1 hrow
    exact ⟨a, hl.mem_of_mem_sorted ha, b, hr.mem_of_mem_query hb, rfl⟩

/-! ### Nested loops -/

/-- A left row with each right row that compares with it. -/
def partners (r : Table) (on : JoinOn) (row : Row) : List Row :=
  (r.records.filter (Row.satisfies on.right on.op.flip (joinKey on row))).map (row ++ ·)

/-- Where the left rows are listed and the right rows are looked up without loss, a join gives the
pairs that two nested scans would find. -/
theorem matchingRows_perm (hsorted : (l.sorted on.left).Perm l.records)
    (hquery : ∀ key, (r.query on.right on.op.flip key).rows.Perm
      (r.records.filter (Row.satisfies on.right on.op.flip key))) :
    (matchingRows l r on).Perm (l.records.flatMap (r.partners on)) := by
  rw [matchingRows_eq]
  exact hsorted.flatMap fun row _ => (hquery (joinKey on row)).map (row ++ ·)

theorem satisfies_joinKey {row : Row} (hlt : on.left < row.length) (other : Row) :
    Row.satisfies on.right on.op.flip (joinKey on row) other = on.relates row other := by
  rw [Row.satisfies, JoinOn.relates, joinKey, List.getElem?_eq_getElem hlt, Option.getD_some]
  cases other[on.right]? with
  | none => rfl
  | some w => exact on.op.holds_flip w row[on.left]

/-- A look-up compares the other way round, and so finds the right rows that relate. -/
theorem partners_eq (r : Table) {row : Row} (hlt : on.left < row.length) :
    r.partners on row = (r.records.filter (on.relates row)).map (row ++ ·) :=
  congrArg (List.map (row ++ ·)) (List.filter_congr fun other _ => satisfies_joinKey hlt other)

/-- The pairs of a left and a right row that relate, in the order of the left, then of the right
rows. -/
def nestedLoop (l r : Table) (on : JoinOn) : List Row :=
  ((l.records ×ˢ r.records).filter fun (row, other) => on.relates row other).map
    fun (row, other) => row ++ other

theorem nestedLoop_eq (l r : Table) (on : JoinOn) :
    nestedLoop l r on = l.records.flatMap fun row =>
      (r.records.filter (on.relates row)).map (row ++ ·) := by
  have hrow (row : Row) :
      ((r.records.map (Prod.mk row)).filter fun (row, other) => on.relates row other).map
          (fun (row, other) => row ++ other) =
        (r.records.filter (on.relates row)).map (row ++ ·) := by
    rw [List.filter_map, List.map_map]
    rfl
  rw [nestedLoop, SProd.sprod, List.instSProd]
  simp only [List.product, List.filter_flatMap, List.map_flatMap, hrow]

theorem productRows_eq (l r : Table) :
    productRows l r = (l.records ×ˢ r.records).map fun (row, other) => row ++ other := by
  rw [productRows, SProd.sprod, List.instSProd]
  simp only [List.product, List.map_flatMap, List.map_map]
  rfl

end Table

/-! ### Absent keys -/

/-- The rows with the absent value at a column come first in the order of the column, in their own
order. -/
theorem Row.sorted_eq_null_append {column : Nat} {rows : List Row}
    (hlt : ∀ row ∈ rows, column < row.length) :
    Row.sorted column rows = rows.filter (·[column]? = some .null) ++
      Row.sorted column (rows.filter (·[column]? ≠ some .null)) := by
  symm
  apply Row.eq_sorted
  · rw [List.pairwise_append]
    refine ⟨List.pairwise_of_forall_mem_list fun a ha b hb => ?_, Row.pairwise_sorted _ _,
      fun a ha b hb => ?_⟩
    · rw [Row.leAt, of_decide_eq_true (List.mem_filter.1 ha).2,
        of_decide_eq_true (List.mem_filter.1 hb).2]
      exact Std.ReflOrd.isLE_rfl
    · obtain ⟨hb, hne⟩ := List.mem_filter.1 ((List.mergeSort_perm _ _).mem_iff.1 hb)
      rw [List.getElem?_eq_getElem (hlt b hb)] at hne
      rw [Row.leAt, of_decide_eq_true (List.mem_filter.1 ha).2,
        List.getElem?_eq_getElem (hlt b hb)]
      exact keyLE_of_keyLT (Value.keyLT_null fun heq => of_decide_eq_true hne (congrArg some heq))
  · intro v
    rw [List.filter_append, Row.filter_sorted, List.filter_filter, List.filter_filter]
    -- The rows with the value `v` are all in the first part, or all in the second.
    by_cases hv : v = some .null
    · have hfirst : (rows.filter fun row => decide (row[column]? = v) &&
          decide (row[column]? = some .null)) = rows.filter (·[column]? = v) := by simp [hv]
      have hsecond : (rows.filter fun row => decide (row[column]? = v) &&
          decide (row[column]? ≠ some .null)) = [] := by simp [hv]
      rw [hfirst, hsecond, List.append_nil]
    · have hne (row : Row) (heq : row[column]? = v) : row[column]? ≠ some .null := heq ▸ hv
      have hfirst : (rows.filter fun row => decide (row[column]? = v) &&
          decide (row[column]? = some .null)) = [] := by simpa using fun row _ => hne row
      have hsecond : (rows.filter fun row => decide (row[column]? = v) &&
          decide (row[column]? ≠ some .null)) = rows.filter (·[column]? = v) :=
        List.filter_congr fun row _ => by simpa using hne row
      rw [hfirst, hsecond, List.nil_append]

namespace Table

variable {l r : Table}

namespace Filled

/-- The join of two tables is the nested loop over their rows.  The left rows come in the order of
the compared column, those with an absent value first, and each left row is followed by the right
rows in the order in which the right table answers.  Without a comparison every left row is taken
with every right row.  The columns are the qualified columns of both, and so are the sources. -/
theorem join_eq_nestedLoop (hl : l.Filled fun s row => row.check s = .ok ())
    (hr : r.Filled fun s row => row.check s = .ok ()) :
    (∀ on : JoinOn, on.left < l.schema.width → on.right < r.schema.width →
      (l.join r (some on)).rows.Perm (nestedLoop l r on) ∧
      (l.join r (some on)).rows = (Row.sorted on.left l.records).flatMap (fun row =>
        (r.query on.right on.op.flip (joinKey on row)).rows.map (row ++ ·)) ∧
      Row.sorted on.left l.records =
        l.records.filter (·[on.left]? = some .null) ++
          Row.sorted on.left (l.records.filter (·[on.left]? ≠ some .null))) ∧
    (l.join r none).rows =
      (l.records ×ˢ r.records).map (fun (row, other) => row ++ other) ∧
    ∀ on : Option JoinOn,
      (l.join r on).schema.columns = l.schema.qualifiedColumns ++ r.schema.qualifiedColumns ∧
      ∀ name, name ∈ (l.join r on).sources ↔ name ∈ l.sources ∨ name ∈ r.sources := by
  refine ⟨fun on hleft hright => ?_, productRows_eq l r, fun on => ⟨rfl, fun name => ?_⟩⟩
  · have hlt : ∀ row ∈ l.records, on.left < row.length := by
      intro row hrow
      rw [Row.length_eq_of_check (hl.check_eq_ok row hrow)]
      exact hleft
    have hsorted := hl.sorted_eq fun _ => hleft
    have hperm : (l.sorted on.left).Perm l.records := by
      rw [hsorted]
      exact List.mergeSort_perm _ _
    refine ⟨?_, ?_, Row.sorted_eq_null_append hlt⟩
    · rw [nestedLoop_eq, ← List.flatMap_congr fun row hrow => partners_eq r (hlt row hrow)]
      exact matchingRows_perm hperm (hr.query_perm_of_lt (fun _ => hright) on.op.flip)
    · rw [← hsorted]
      exact matchingRows_eq l r on
  · exact Sources.mem_union

/-- A tree on the left and a hash table on the right, with keys that are there twice or absent. -/
theorem join_eq_nestedLoop_hash :
    let s : Schema := ⟨"l", [⟨"k", .int⟩, ⟨"v", .varchar 4⟩], none⟩
    let s' : Schema := ⟨"r", [⟨"k", .int⟩], none⟩
    let l : Table := { Header.base "l" s with storage := .keyed (.tree 0 .standard) }
    let r : Table := { Header.base "r" s' with storage := .keyed (.hash 0) }
    let l := (l.insertAll [[.int 2, .text "b"], [.null, .text "n"], [.int 2, .text "c"]]).2
    let r := (r.insertAll [[.int 2], [.null], [.int 3], [.int 2]]).2
    (∀ row ∈ l.records, row.check s = .ok ()) ∧ (∀ row ∈ r.records, row.check s' = .ok ()) ∧
      (l.join r (some ⟨0, .eq, 0⟩)).rows.Perm
        [[.int 2, .text "b", .int 2], [.int 2, .text "b", .int 2], [.null, .text "n", .null],
          [.int 2, .text "c", .int 2], [.int 2, .text "c", .int 2]] := by
  intro s s' l r l' r'
  have hl : l'.Filled fun s row => row.check s = .ok () := by
    refine .insertAll (.empty (?_ : Table.empty .tree "l" s none [] .standard = .ok l)) _ ?_
    · rfl
    · decide
  have hr : r'.Filled fun s row => row.check s = .ok () := by
    refine .insertAll (.empty (?_ : Table.empty .hash "r" s' none [] .standard = .ok r)) _ ?_
    · rfl
    · decide
  refine ⟨hl.check_eq_ok, hr.check_eq_ok, ?_⟩
  exact ((hl.join_eq_nestedLoop hr).1 ⟨0, .eq, 0⟩ (by decide) (by decide)).1

end Filled

end Table

end RelStore
