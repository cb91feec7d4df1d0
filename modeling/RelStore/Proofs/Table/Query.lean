import RelStore.Proofs.Row
import RelStore.Proofs.Table.Keyed

/-!
# Answers of storages with one key

A coherent storage answers a comparison with the rows that satisfy it, in the order of their
insertion if it looks at every row or asks a hash table, and in the order of the key column if it
asks a tree (`Keyed.Coherent.query_eq`, `Keyed.Coherent.queryRange_eq`).

A tree answers in parts: the rows without a key, then buckets.  All rows of a bucket satisfy a
comparison or none does, and the rows without a key followed by all buckets are the rows in the
order of the key column (`Keyed.Coherent.parts_eq_sorted`); so dropping buckets is dropping rows.
-/

namespace RelStore

/-! ### Buckets -/

namespace KeyIndex

variable {l : Leaf Value Bucket}

/-- All rows of a bucket are in the order of their common value, and buckets are in order. -/
theorem pairwise_flatten {column : Nat} (hasc : Leaf.Ascending l)
    (hkey : ∀ e ∈ l, ∀ row ∈ e.2.toList, row[column]? = some e.1) :
    (flatten l).Pairwise (Row.leAt column · ·) := by
  rw [flatten, List.pairwise_flatMap]
  refine ⟨fun e he => List.pairwise_of_forall_mem_list fun a ha b hb => ?_,
    hasc.imp_of_mem fun {e e'} he he' hlt a ha b hb => ?_⟩
  · rw [Row.leAt, hkey e he a ha, hkey e he b hb]
    exact Std.ReflOrd.isLE_rfl
  · rw [Row.leAt, hkey e he a ha, hkey e' he' b hb]
    exact keyLE_of_keyLT hlt

/-- Dropping buckets drops the rows that a property of the key excludes. -/
theorem filter_flatten {p : Row → Bool} {q : Value → Bool}
    (h : ∀ e ∈ l, ∀ row ∈ e.2.toList, p row = q e.1) :
    (flatten l).filter p = flatten (l.filter fun e => q e.1) := by
  induction l with
  | nil => rfl
  | cons e l ih =>
    rw [List.forall_mem_cons] at h
    rw [flatten, List.flatMap_cons, List.filter_append, ← flatten, ih h.2]
    by_cases hq : q e.1
    · have hall : e.2.toList.filter p = e.2.toList :=
        List.filter_eq_self.2 fun row hrow => (h.1 row hrow).trans hq
      simp [hall, hq, flatten]
    · have hnone : e.2.toList.filter p = [] :=
        List.filter_eq_nil_iff.2 fun row hrow hp => hq ((h.1 row hrow).symm.trans hp)
      simp [hnone, hq, flatten]

theorem flatten_append (l₁ l₂ : List (Value × Bucket)) :
    flatten (l₁ ++ l₂) = flatten l₁ ++ flatten l₂ :=
  List.flatMap_append

/-- At most one bucket has a key. -/
theorem flatten_filter_eq (hasc : Leaf.Ascending l) (key : Value) :
    flatten (l.filter fun e => e.1 = key) = ((Leaf.get? key l).getD #[]).toList := by
  induction l with
  | nil => rfl
  | cons e l ih =>
    obtain ⟨hhead, htail⟩ := List.pairwise_cons.1 hasc
    rw [Leaf.get?_cons]
    by_cases hkey : e.1 = key
    · have hnone : (l.filter fun e => decide (e.1 = key)) = [] :=
        List.filter_eq_nil_iff.2 fun e' he' heq =>
          keyLT_irrefl (hkey.trans (of_decide_eq_true heq).symm ▸ hhead e' he')
      rw [List.filter_cons_of_pos (by simpa using hkey), hnone, if_pos hkey]
      simp [flatten]
    · rw [List.filter_cons_of_neg (by simpa using hkey), if_neg hkey, ih htail]

/-- The buckets of other keys are those below the key, then those above. -/
theorem filter_ne (hasc : Leaf.Ascending l) (key : Value) :
    (l.filter fun e => !decide (e.1 = key)) =
      (l.filter fun e => keyLT e.1 key) ++ l.filter fun e => keyLT key e.1 := by
  induction l with
  | nil => rfl
  | cons e l ih =>
    obtain ⟨hhead, htail⟩ := List.pairwise_cons.1 hasc
    have hl := ih htail
    by_cases hlt : keyLT e.1 key
    · have hne : e.1 ≠ key := fun heq => keyLT_irrefl (heq ▸ hlt)
      have hgt : ¬ keyLT key e.1 := fun hgt => keyLT_irrefl (keyLT_trans hlt hgt)
      simp [hne, hlt, hgt, hl]
    · have hnone : (l.filter fun e => keyLT e.1 key) = [] := by
        refine List.filter_eq_nil_iff.2 fun e' he' hlt' => hlt ?_
        exact keyLT_trans (hhead e' he') hlt'
      rw [hnone, List.nil_append] at hl
      by_cases heq : e.1 = key
      · have hgt : ¬ keyLT key key := keyLT_irrefl
        simp [heq, hgt, hl, hnone]
      · have hgt : keyLT key e.1 := by
          by_contra hnot
          exact heq (Std.LawfulEqOrd.eq_of_compare (Std.OrientedCmp.isLE_antisymm
            (keyLE_iff_not_keyLT.2 hnot) (keyLE_iff_not_keyLT.2 hlt)))
        simp [heq, hlt, hgt, hl, hnone]

end KeyIndex

namespace Keyed

namespace Coherent

variable {s : Schema} {k : Keyed} {column : Nat}

/-! ### Rows as wide as the schema -/

/-- Where the column is in range, the rows without a key are those with an absent value. -/
theorem key?_eq_none_iff {row : Row} (hwide : k.column < row.length) :
    k.key? row = none ↔ row[k.column]? = some .null := by
  rw [key?, List.getElem?_eq_getElem hwide, Option.filter_some]
  simp [Value.isNull_iff]

theorem key?_eq_some_iff {row : Row} {key : Value} :
    k.key? row = some key ↔ row[k.column]? = some key ∧ key ≠ .null := by
  rw [key?, Option.filter_eq_some_iff]
  simp [← Value.isNull_iff]

theorem sound_buckets {buckets : BTree Value Bucket} (h : k.Coherent s)
    (hindex : k.index = .tree buckets) : buckets.Sound := by
  have hsound := h.sound
  rw [hindex] at hsound
  exact hsound

/-- The rows of a bucket are those with its key. -/
theorem mem_bucket {buckets : BTree Value Bucket} (h : k.Coherent s)
    (hindex : k.index = .tree buckets) {e : Value × Bucket} (he : e ∈ buckets.toList) {row : Row}
    (hrow : row ∈ e.2.toList) : row ∈ k.rowsAt e.1 := by
  have hsound := h.sound_buckets hindex
  have hget : buckets.get? e.1 = some e.2 := by
    rw [hsound.get?_eq, Leaf.get?_eq_some_iff hsound.ascending]
    exact he
  have hbucket := h.getD_bucket? e.1
  rw [hindex, KeyIndex.bucket?, hget, Option.getD_some] at hbucket
  rwa [hbucket] at hrow

variable {buckets : BTree Value Bucket}

/-- The rows of a bucket have its key at the column, which is not the absent value. -/
theorem value_of_mem_bucket (h : k.Coherent s) (hindex : k.index = .tree buckets)
    {e : Value × Bucket} (he : e ∈ buckets.toList) {row : Row} (hrow : row ∈ e.2.toList) :
    row[k.column]? = some e.1 ∧ e.1 ≠ .null :=
  key?_eq_some_iff.1 (of_decide_eq_true (List.mem_filter.1 (h.mem_bucket hindex he hrow)).2)

/-- The rows of all buckets with a key are those that the storage has. -/
theorem filter_flatten_buckets (h : k.Coherent s) (hindex : k.index = .tree buckets) {key : Value}
    (hne : key ≠ .null) :
    (KeyIndex.flatten buckets.toList).filter (·[k.column]? = some key) =
      k.rows.toList.filter (·[k.column]? = some key) := by
  have hsound := h.sound_buckets hindex
  have hkey : ∀ e ∈ buckets.toList, ∀ row ∈ e.2.toList,
      decide (row[k.column]? = some key) = decide (e.1 = key) := by
    intro e he row hrow
    simp [(h.value_of_mem_bucket hindex he hrow).1]
  rw [KeyIndex.filter_flatten (q := (· = key)) hkey, KeyIndex.flatten_filter_eq hsound.ascending]
  have hbucket := h.getD_bucket? key
  rw [hindex, KeyIndex.bucket?, hsound.get?_eq] at hbucket
  rw [hbucket]
  exact List.filter_congr fun row _ =>
    decide_eq_decide.2 (key?_eq_some_iff.trans (and_iff_left hne))

/-! ### Stored rows -/

theorem mem_of_mem_unkeyed (h : k.Coherent s) {row : Row} (hrow : row ∈ k.unkeyed.toList) :
    row ∈ k.rows.toList := by
  rw [h.unkeyed_eq] at hrow
  exact (List.mem_filter.1 hrow).1

theorem mem_of_mem_rowsAt {row : Row} {key : Value} (hrow : row ∈ k.rowsAt key) :
    row ∈ k.rows.toList :=
  (List.mem_filter.1 hrow).1

theorem mem_of_mem_flatten (h : k.Coherent s) (hindex : k.index = .tree buckets)
    {l : List (Value × Bucket)} (hl : l ⊆ buckets.toList) {row : Row}
    (hrow : row ∈ KeyIndex.flatten l) : row ∈ k.rows.toList := by
  obtain ⟨e, he, hrow⟩ := List.mem_flatMap.1 hrow
  exact mem_of_mem_rowsAt (h.mem_bucket hindex (hl he) hrow)

theorem mem_of_mem_getD_bucket? (h : k.Coherent s) (key : Value) {row : Row}
    (hrow : row ∈ ((k.index.bucket? key).getD #[]).toList) : row ∈ k.rows.toList := by
  rw [h.getD_bucket?] at hrow
  exact mem_of_mem_rowsAt hrow

theorem mem_of_mem_queryTree (h : k.Coherent s) (hindex : k.index = .tree buckets) {op : Operator}
    {key : Value} {row : Row} (hrow : row ∈ k.queryTree buckets op key) :
    row ∈ k.rows.toList := by
  have hrange : ∀ low high, row ∈ KeyIndex.flatten (buckets.between low high) →
      row ∈ k.rows.toList := by
    intro low high
    rw [(h.sound_buckets hindex).between_eq]
    exact h.mem_of_mem_flatten hindex (List.filter_subset_self _)
  cases op with
  | eq =>
    apply h.mem_of_mem_getD_bucket? key
    rwa [hindex]
  | ne =>
    rcases List.mem_append.1 hrow with hrow | hrow
    · rcases List.mem_append.1 hrow with hrow | hrow
      · exact h.mem_of_mem_unkeyed hrow
      · exact hrange _ _ hrow
    · exact hrange _ _ hrow
  | _ => exact hrange _ _ hrow

/-- An answer holds stored rows only, wherever the column of the index is. -/
theorem mem_of_mem_query (h : k.Coherent s) {op : Operator} {key : Value} {row : Row}
    (hrow : row ∈ k.query s column op key) : row ∈ k.rows.toList := by
  unfold query at hrow
  split at hrow
  · next buckets hindex =>
    split at hrow
    · unfold queryHash at hrow
      split at hrow
      · exact h.mem_of_mem_unkeyed hrow
      · rw [Std.HashMap.getD_eq_getD_getElem?] at hrow
        apply h.mem_of_mem_getD_bucket? key
        rwa [hindex]
    · exact (List.mem_filter.1 hrow).1
  · next buckets hindex =>
    split at hrow
    · exact h.mem_of_mem_queryTree hindex hrow
    · exact (List.mem_filter.1 hrow).1

theorem mem_of_mem_sorted (h : k.Coherent s) {row : Row} (hrow : row ∈ k.sorted column) :
    row ∈ k.rows.toList := by
  unfold sorted at hrow
  split at hrow
  · exact (List.mergeSort_perm _ _).mem_iff.1 hrow
  · next buckets hindex =>
    split at hrow
    · rcases List.mem_append.1 hrow with hrow | hrow
      · exact h.mem_of_mem_unkeyed hrow
      · exact h.mem_of_mem_flatten hindex (List.Subset.refl _) hrow
    · exact (List.mergeSort_perm _ _).mem_iff.1 hrow

variable (hwide : ∀ row ∈ k.rows.toList, k.column < row.length)

include hwide

/-- The rows without a key have the absent value at the column. -/
theorem value_of_mem_unkeyed (h : k.Coherent s) {row : Row} (hrow : row ∈ k.unkeyed.toList) :
    row[k.column]? = some .null := by
  rw [h.unkeyed_eq, List.mem_filter, decide_eq_true_eq] at hrow
  exact (key?_eq_none_iff (hwide row hrow.1)).1 hrow.2

/-- The rows without a key are those that have the absent value at the column. -/
theorem unkeyed_eq_filter (h : k.Coherent s) :
    k.unkeyed.toList = k.rows.toList.filter (·[k.column]? = some .null) := by
  rw [h.unkeyed_eq]
  exact List.filter_congr fun row hrow => decide_eq_decide.2 (key?_eq_none_iff (hwide row hrow))

/-- The rows without a key and those of the buckets have every value where the storage has it. -/
theorem filter_parts (h : k.Coherent s) (hindex : k.index = .tree buckets) (v : Option Value) :
    (k.unkeyed.toList ++ KeyIndex.flatten buckets.toList).filter (·[k.column]? = v) =
      k.rows.toList.filter (·[k.column]? = v) := by
  rw [List.filter_append]
  by_cases hv : v = some .null
  · subst hv
    have hbuckets : (KeyIndex.flatten buckets.toList).filter (·[k.column]? = some .null) = [] := by
      apply List.filter_eq_nil_iff.2
      intro row hmem heq
      obtain ⟨e, he, hrow⟩ := List.mem_flatMap.1 hmem
      obtain ⟨hkey, hne⟩ := h.value_of_mem_bucket hindex he hrow
      rw [decide_eq_true_eq, hkey] at heq
      exact hne (Option.some.inj heq)
    rw [hbuckets, List.append_nil, h.unkeyed_eq_filter hwide, List.filter_filter]
    simp only [Bool.and_self]
  · have hunkeyed : k.unkeyed.toList.filter (·[k.column]? = v) = [] :=
      List.filter_eq_nil_iff.2 fun row hrow heq =>
        hv ((of_decide_eq_true heq).symm.trans (h.value_of_mem_unkeyed hwide hrow))
    rw [hunkeyed, List.nil_append]
    cases v with
    | some key => exact h.filter_flatten_buckets hindex fun heq => hv (congrArg some heq)
    | none =>
      rw [List.filter_eq_nil_iff.2, List.filter_eq_nil_iff.2]
      · exact fun row hrow heq =>
          (List.getElem?_eq_none_iff.1 (of_decide_eq_true heq)).not_gt (hwide row hrow)
      · intro row hmem heq
        obtain ⟨e, he, hrow⟩ := List.mem_flatMap.1 hmem
        rw [decide_eq_true_eq, (h.value_of_mem_bucket hindex he hrow).1] at heq
        exact absurd heq (Option.some_ne_none _)

/-- The rows without a key, then the buckets: the rows in the order of the key column. -/
theorem parts_eq_sorted (h : k.Coherent s) (hindex : k.index = .tree buckets) :
    k.unkeyed.toList ++ KeyIndex.flatten buckets.toList = Row.sorted k.column k.rows.toList := by
  refine Row.eq_sorted ?_ (h.filter_parts hwide hindex)
  rw [List.pairwise_append]
  refine ⟨List.pairwise_of_forall_mem_list fun a ha b hb => ?_,
    KeyIndex.pairwise_flatten (h.sound_buckets hindex).ascending
      fun e he row hrow => (h.value_of_mem_bucket hindex he hrow).1, fun a ha b hb => ?_⟩
  · rw [Row.leAt, h.value_of_mem_unkeyed hwide ha, h.value_of_mem_unkeyed hwide hb]
    rfl
  · obtain ⟨e, he, hrow⟩ := List.mem_flatMap.1 hb
    obtain ⟨hkey, hne⟩ := h.value_of_mem_bucket hindex he hrow
    rw [Row.leAt, h.value_of_mem_unkeyed hwide ha, hkey]
    exact keyLE_of_keyLT (Value.keyLT_null hne)

/-- Where a property of rows is one of their keys, and the same for all rows without a key, dropping
rows is dropping buckets. -/
theorem sorted_filter_eq (h : k.Coherent s) (hindex : k.index = .tree buckets) {p : Row → Bool}
    {q : Value → Bool} {b : Bool} (hunkeyed : ∀ row ∈ k.unkeyed.toList, p row = b)
    (hbuckets : ∀ e ∈ buckets.toList, ∀ row ∈ e.2.toList, p row = q e.1) :
    Row.sorted k.column (k.rows.toList.filter p) =
      (if b then k.unkeyed.toList else []) ++
        KeyIndex.flatten (buckets.toList.filter fun e => q e.1) := by
  rw [Row.sorted_filter, ← h.parts_eq_sorted hwide hindex, List.filter_append,
    KeyIndex.filter_flatten hbuckets]
  congr 1
  cases b with
  | true => exact List.filter_eq_self.2 hunkeyed
  | false => exact List.filter_eq_nil_iff.2 fun row hrow => Bool.not_eq_true _ ▸ hunkeyed row hrow

end Coherent

end Keyed

/-! ### Comparisons in the total order -/

namespace Operator

variable (v key : Value)

theorem allows_eq : eq.allows (some (compare v key)) = decide (v = key) := by
  rw [Bool.eq_iff_iff, decide_eq_true_iff, ← Std.compare_eq_iff_eq (a := v)]
  cases compare v key <;> simp [allows]

theorem allows_ne : ne.allows (some (compare v key)) = !decide (v = key) := by
  rw [← allows_eq]
  rfl

theorem allows_lt : lt.allows (some (compare v key)) = keyLT v key := by
  rw [keyLT]
  cases compare v key <;> rfl

theorem allows_le : le.allows (some (compare v key)) = keyLE v key := by
  rw [keyLE]
  cases compare v key <;> rfl

theorem allows_gt : gt.allows (some (compare v key)) = keyLT key v := by
  rw [keyLT, Std.OrientedOrd.eq_swap (a := key)]
  cases compare v key <;> rfl

theorem allows_ge : ge.allows (some (compare v key)) = keyLE key v := by
  rw [keyLE, Std.OrientedOrd.eq_swap (a := key)]
  cases compare v key <;> rfl

end Operator

/-! ### Ranges -/

/-- Whether the row has a value at the column that both ends of a range allow. -/
def Row.within (column : Nat) (range : ValueRange) (row : Row) : Bool :=
  Row.satisfies column (.ofLower range.lowInclusive) range.low row &&
    Row.satisfies column (.ofUpper range.highInclusive) range.high row

theorem ValueRange.filter_eq (range : ValueRange) (column : Nat) (rows : List Row) :
    range.filter column rows = rows.filter (Row.within column range) := by
  rw [ValueRange.filter, Row.filter, Row.filter, List.filter_filter]
  apply List.filter_congr
  intro row _
  rw [Row.within, Bool.and_comm]

namespace Operator

theorem ofLower_ne (inclusive : Bool) : ofLower inclusive ≠ .ne := by
  cases inclusive <;> decide

theorem allows_ofLower (inclusive : Bool) (v low : Value) :
    (ofLower inclusive).allows (some (compare v low)) = (Bound.ofKey low inclusive).allowsFrom v := by
  cases inclusive
  · exact allows_gt v low
  · exact allows_ge v low

theorem allows_ofUpper (inclusive : Bool) (v high : Value) :
    (ofUpper inclusive).allows (some (compare v high)) = (Bound.ofKey high inclusive).allowsTo v := by
  cases inclusive
  · exact allows_lt v high
  · exact allows_le v high

end Operator

namespace Keyed

/-- Whether a tree answers comparisons of a column with a key. -/
def answersByTree (k : Keyed) (s : Schema) (column : Nat) (key : Value) : Bool :=
  k.index.type == .tree && k.isIndexed s column key

namespace Coherent

variable {s : Schema} {k : Keyed} {column : Nat} {buckets : BTree Value Bucket} {c : Column}
  {key : Value}

/-! ### Answers of a tree -/

section Tree

variable (hfit : ∀ row ∈ k.rows.toList, row.check s = .ok ())
  (hc : s.columns[k.column]? = some c)

include hfit hc

theorem wide : ∀ row ∈ k.rows.toList, k.column < row.length := by
  intro row hrow
  rw [Row.length_eq_of_check (hfit row hrow)]
  exact (List.getElem?_eq_some_iff.1 hc).1

/-- A row without a key satisfies `≠` only. -/
theorem satisfies_of_mem_unkeyed (h : k.Coherent s) (op : Operator) (hne : key ≠ .null) {row : Row}
    (hrow : row ∈ k.unkeyed.toList) : Row.satisfies k.column op key row = (op == .ne) := by
  rw [Row.satisfies, h.value_of_mem_unkeyed (wide hfit hc) hrow, Option.any_some,
    Operator.holds_null op hne]

/-- A row of a bucket satisfies a comparison if the key of the bucket does, in the total order. -/
theorem satisfies_of_mem_bucket (h : k.Coherent s) (hindex : k.index = .tree buckets)
    (op : Operator) (hkey : c.type.accepts key) (hne : key ≠ .null) {e : Value × Bucket}
    (he : e ∈ buckets.toList) {row : Row} (hrow : row ∈ e.2.toList) :
    Row.satisfies k.column op key row = op.allows (some (compare e.1 key)) := by
  obtain ⟨hvalue, hne'⟩ := h.value_of_mem_bucket hindex he hrow
  have hmem : row ∈ k.rows.toList := (List.mem_filter.1 (h.mem_bucket hindex he hrow)).1
  obtain ⟨v, hv, haccepts⟩ := Row.exists_value (hfit row hmem) hc
  rw [hvalue, Option.some.injEq] at hv
  subst hv
  rw [Row.satisfies, hvalue, Option.any_some,
    Operator.holds_eq_allows op (DataType.rank_eq_of_accepts haccepts hkey hne' hne)]

theorem queryTree_eq (h : k.Coherent s) (hindex : k.index = .tree buckets) (op : Operator)
    (hkey : c.type.accepts key) (hne : key ≠ .null) :
    k.queryTree buckets op key = Row.sorted k.column (Row.filter k.column op key k.rows.toList) := by
  have hsound := h.sound_buckets hindex
  rw [Row.filter, h.sorted_filter_eq (wide hfit hc) hindex
    (fun row hrow => h.satisfies_of_mem_unkeyed hfit hc op hne hrow)
    (q := fun v => op.allows (some (compare v key)))
    fun e he row hrow => h.satisfies_of_mem_bucket hfit hc hindex op hkey hne he hrow]
  cases op with
  | eq =>
    simp only [Operator.allows_eq, queryTree, hsound.get?_eq]
    exact (KeyIndex.flatten_filter_eq hsound.ascending key).symm
  | ne =>
    simp only [Operator.allows_ne, queryTree, BTree.below, BTree.above, hsound.between_eq,
      KeyIndex.filter_ne hsound.ascending key, List.append_assoc, Bound.allows_to_unbounded]
    rw [KeyIndex.flatten_append]
    rfl
  | gt =>
    simp only [Operator.allows_gt, queryTree, BTree.above, hsound.between_eq,
      Bound.allows_to_unbounded]
    rfl
  | ge =>
    simp only [Operator.allows_ge, queryTree, BTree.startingAt, hsound.between_eq,
      Bound.allows_to_unbounded]
    rfl
  | lt =>
    simp only [Operator.allows_lt, queryTree, BTree.below, hsound.between_eq]
    rfl
  | le =>
    simp only [Operator.allows_le, queryTree, BTree.upTo, hsound.between_eq]
    rfl

theorem between_eq (h : k.Coherent s) (hindex : k.index = .tree buckets) {range : ValueRange}
    (hlow : c.type.accepts range.low) (hlow' : range.low ≠ .null)
    (hhigh : c.type.accepts range.high) (hhigh' : range.high ≠ .null) :
    KeyIndex.flatten (buckets.between (.ofKey range.low range.lowInclusive)
        (.ofKey range.high range.highInclusive)) =
      Row.sorted k.column (range.filter k.column k.rows.toList) := by
  have hunkeyed : ∀ row ∈ k.unkeyed.toList, Row.within k.column range row = false := by
    intro row hrow
    rw [Row.within, h.satisfies_of_mem_unkeyed hfit hc _ hlow' hrow,
      beq_false_of_ne (Operator.ofLower_ne _), Bool.false_and]
  have hbuckets : ∀ e ∈ buckets.toList, ∀ row ∈ e.2.toList, Row.within k.column range row =
      Bound.allows (.ofKey range.low range.lowInclusive) (.ofKey range.high range.highInclusive)
        e.1 := by
    intro e he row hrow
    rw [Row.within, h.satisfies_of_mem_bucket hfit hc hindex _ hlow hlow' he hrow,
      h.satisfies_of_mem_bucket hfit hc hindex _ hhigh hhigh' he hrow, Operator.allows_ofLower,
      Operator.allows_ofUpper, Bound.allows]
  rw [ValueRange.filter_eq, h.sorted_filter_eq (wide hfit hc) hindex hunkeyed hbuckets,
    (h.sound_buckets hindex).between_eq]
  rfl

/-- A hash table answers equality with the rows of one bucket, or with those without a key. -/
theorem queryHash_eq (h : k.Coherent s) {buckets : Std.HashMap Value Bucket}
    (hindex : k.index = .hash buckets) :
    k.queryHash buckets key = Row.filter k.column .eq key k.rows.toList := by
  have hsat : ∀ row, Row.satisfies k.column .eq key row = decide (row[k.column]? = some key) := by
    intro row
    rw [Bool.eq_iff_iff, decide_eq_true_iff, Row.satisfies]
    cases row[k.column]? with
    | none => simp
    | some v => simp [Operator.holds_eq_iff]
  rw [Row.filter, funext hsat, queryHash]
  by_cases hnull : key.isNull
  · rw [if_pos hnull, Value.isNull_iff.1 hnull]
    exact h.unkeyed_eq_filter (wide hfit hc)
  · have hbucket := h.getD_bucket? key
    rw [hindex, KeyIndex.bucket?] at hbucket
    rw [if_neg hnull, Std.HashMap.getD_eq_getD_getElem?, hbucket]
    exact List.filter_congr fun row _ => decide_eq_decide.2
      (key?_eq_some_iff.trans (and_iff_left fun heq => hnull (Value.isNull_iff.2 heq)))

end Tree

/-! ### Answers -/

theorem answersByTree_of_hash {buckets : Std.HashMap Value Bucket}
    (hindex : k.index = .hash buckets) : k.answersByTree s column key = false := by
  rw [answersByTree, hindex]
  rfl

theorem answersByTree_of_tree (hindex : k.index = .tree buckets) :
    k.answersByTree s column key = k.isIndexed s column key := by
  rw [answersByTree, hindex]
  rfl

/-- What it means that a tree answers. -/
theorem answersByTree_iff : k.answersByTree s column key ↔
    k.index.type = .tree ∧ column = k.column ∧ key ≠ .null ∧
      ∃ c, s.columns[column]? = some c ∧ c.type.accepts key := by
  rw [answersByTree, isIndexed, Bool.and_eq_true, beq_iff_eq, Bool.and_eq_true, Bool.and_eq_true,
    beq_iff_eq, Bool.not_eq_true', ← Bool.not_eq_true, Value.isNull_iff, and_assoc,
    Option.any_eq_true]

/-- A listing in the order of a column is the stable sort, from the tree or not. -/
theorem sorted_eq (h : k.Coherent s)
    (hwide : k.column = column → ∀ row ∈ k.rows.toList, column < row.length) :
    k.sorted column = Row.sorted column k.rows.toList := by
  unfold sorted
  split
  · rfl
  · next buckets hindex =>
    split
    · next heq =>
      subst heq
      exact h.parts_eq_sorted (hwide rfl) hindex
    · rfl

variable (hfit : ∀ row ∈ k.rows.toList, row.check s = .ok ())

include hfit

/-- A comparison is answered with the rows that satisfy it, in the order of the column if a tree
answers. -/
theorem query_eq (h : k.Coherent s) (hcolumn : k.column = column → column < s.width)
    (op : Operator) (key : Value) :
    k.query s column op key =
      if k.answersByTree s column key then
        Row.sorted column (Row.filter column op key k.rows.toList)
      else Row.filter column op key k.rows.toList := by
  unfold query
  split
  · next buckets hindex =>
    rw [answersByTree_of_hash hindex, if_neg Bool.false_ne_true]
    split
    · next heq =>
      obtain ⟨rfl, rfl⟩ := heq
      exact h.queryHash_eq hfit (List.getElem?_eq_getElem (hcolumn rfl)) hindex
    · rfl
  · next buckets hindex =>
    rw [← answersByTree_of_tree hindex]
    split
    · next htree =>
      obtain ⟨-, rfl, hne, c, hc', hkey⟩ := answersByTree_iff.1 htree
      exact h.queryTree_eq hfit hc' hindex op hkey hne
    · rfl

/-- So is a range. -/
theorem queryRange_eq (h : k.Coherent s) (column : Nat) (range : ValueRange) :
    k.queryRange s column range =
      if k.answersByTree s column range.low && k.answersByTree s column range.high then
        Row.sorted column (range.filter column k.rows.toList)
      else range.filter column k.rows.toList := by
  unfold queryRange
  split
  · next buckets hindex =>
    rw [answersByTree_of_hash hindex, Bool.false_and, if_neg Bool.false_ne_true]
  · next buckets hindex =>
    rw [← answersByTree_of_tree hindex, ← answersByTree_of_tree hindex]
    split
    · next htree =>
      rw [Bool.and_eq_true] at htree
      obtain ⟨-, rfl, hlow', c, hc, hlow⟩ := answersByTree_iff.1 htree.1
      obtain ⟨-, -, hhigh', c', hc', hhigh⟩ := answersByTree_iff.1 htree.2
      rw [hc, Option.some.injEq] at hc'
      subst hc'
      exact h.between_eq hfit hc hindex hlow hlow' hhigh hhigh'
    · rfl

end Coherent

end Keyed

end RelStore
