import RelStore.Proofs.Table.Basic

/-!
# The rows that checked insertion leaves

A checked insertion stores a row only if the table finds nothing against it.  So each row of a table
was acceptable beside the rows before it (`Table.Accepted`), and that is all there is to say of what
a table refuses: primary keys are present and differ (`Table.Accepted.primaryKeys`), and rows that
the table looks for differ (`Table.Accepted.nodup_filter`).  A list refuses nothing.
-/

namespace RelStore

/-! ### Verdicts -/

theorem KeySet.verdict_eq_success_iff {s : Schema} {rows : List Row} {row : Row} :
    KeySet.verdict s rows row = .success ↔
      ∀ key, Row.primaryKey? s row = some key →
        key ≠ .null ∧ ∀ row' ∈ rows, Row.primaryKey? s row' ≠ some key := by
  unfold KeySet.verdict
  cases Row.primaryKey? s row with
  | none => simp
  | some key =>
    by_cases hnull : key = .null
    · simp [hnull]
    · by_cases hused : ∃ row' ∈ rows, Row.primaryKey? s row' = some key
      · simp only [if_neg hnull, if_pos hused, Option.some.injEq]
        obtain ⟨row', hrow', heq⟩ := hused
        exact iff_of_false (by decide) fun h => (h key rfl).2 row' hrow' heq
      · simp only [if_neg hnull, if_neg hused, Option.some.injEq, true_iff]
        rintro _ rfl
        exact ⟨hnull, fun row' hrow' heq => hused ⟨row', hrow', heq⟩⟩

theorem Layout.verdict_eq_success_iff {l : Layout} {s : Schema} {rows : List Row} {row : Row}
    (hkind : l.kind ≠ .list) :
    l.verdict s rows row = .success ↔
      ¬ (l.looksFor row ∧ row ∈ rows) ∧ KeySet.verdict s rows row = .success := by
  unfold verdict
  rw [if_neg hkind]
  split
  · next hfound => exact iff_of_false (by decide) fun h => h.1 hfound
  · next hnew => exact (and_iff_right hnew).symm

/-! ### Accepted rows -/

/-- What holds between each element and those before it holds pairwise. -/
theorem pairwise_of_split {α : Type} {R : α → α → Prop} {l : List α}
    (h : ∀ before b after, l = before ++ b :: after → ∀ a ∈ before, R a b) : l.Pairwise R := by
  rw [List.pairwise_iff_getElem]
  intro i j hi hj hij
  refine h (l.take j) l[j] (l.drop (j + 1)) ?_ l[i] ?_
  · rw [List.cons_getElem_drop_succ, List.take_append_drop]
  · exact List.mem_take_iff_getElem.2 ⟨i, by omega, rfl⟩

namespace Table

variable {t : Table}

/-- There was nothing against any row when it was stored. -/
def Accepted (t : Table) : Prop :=
  ∀ before row after, t.records = before ++ row :: after →
    t.layout.verdict t.schema before row = .success

theorem accepted_of_records_eq_nil (h : t.records = []) : t.Accepted := by
  intro before row after hsplit
  rw [h] at hsplit
  exact absurd hsplit.symm (by simp)

namespace Accepted

/-- A row to which the verdict is success may be added. -/
theorem concat (h : t.Accepted) {t' : Table} {row : Row} (hschema : t'.schema = t.schema)
    (hlayout : t'.layout = t.layout) (hrecords : t'.records = t.records ++ [row])
    (hrow : t.layout.verdict t.schema t.records row = .success) : t'.Accepted := by
  intro before row' after hsplit
  rw [hlayout, hschema]
  rw [hrecords] at hsplit
  rcases List.eq_nil_or_concat after with rfl | ⟨after, last, rfl⟩
  · obtain ⟨rfl, heq⟩ := List.append_inj' hsplit rfl
    rw [List.singleton_inj] at heq
    rwa [← heq]
  · rw [List.concat_eq_append, ← List.cons_append, ← List.append_assoc] at hsplit
    exact h before row' after (List.append_inj' hsplit rfl).1

/-- Rows for which the table looks differ. -/
theorem nodup_filter (h : t.Accepted) (hkind : t.kind ≠ .list) :
    (t.records.filter t.layout.looksFor).Nodup := by
  have hpairs : t.records.Pairwise fun row row' => t.layout.looksFor row' → row ≠ row' := by
    refine pairwise_of_split fun before row' after hsplit row hrow hlooks heq => ?_
    have hverdict := (Layout.verdict_eq_success_iff hkind).1 (h before row' after hsplit)
    rw [heq] at hrow
    exact hverdict.1 ⟨hlooks, hrow⟩
  refine (hpairs.filter _).imp_of_mem fun _ hrow' hne => ?_
  exact hne (List.mem_filter.1 hrow').2

/-- Primary keys are present and differ. -/
theorem primaryKeys (h : t.Accepted) (hkind : t.kind ≠ .list) :
    (∀ row ∈ t.records, Row.primaryKey? t.schema row ≠ some .null) ∧
      t.records.Pairwise fun row row' => ∀ key, Row.primaryKey? t.schema row' = some key →
        Row.primaryKey? t.schema row ≠ some key := by
  have hverdict : ∀ before row after, t.records = before ++ row :: after →
      KeySet.verdict t.schema before row = .success := fun before row after hsplit =>
    ((Layout.verdict_eq_success_iff hkind).1 (h before row after hsplit)).2
  constructor
  · intro row hrow heq
    obtain ⟨before, after, hsplit⟩ := List.append_of_mem hrow
    exact (KeySet.verdict_eq_success_iff.1 (hverdict before row after hsplit) .null heq).1 rfl
  · refine pairwise_of_split fun before row' after hsplit row hrow key heq => ?_
    exact (KeySet.verdict_eq_success_iff.1 (hverdict before row' after hsplit) key heq).2 row hrow

end Accepted

end Table

end RelStore
