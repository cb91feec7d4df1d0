import Mathlib.Data.List.Perm.Basic
import RelStore.Proofs.Agreement
import RelStore.Proofs.Query.Environments
import RelStore.Proofs.Query.Join
import RelStore.Query.Evaluate

/-!
# Twin tables

Two tables are twins if they have the same rows under the same header (`Table.Twin`).  They may keep
the rows in different ways, and answer in different orders; what matters is that each answers with
the rows that a scan would find (`Table.Scans`).  Two relations are twins if they have the same rows
up to their order, and else are equal (`Relation.Twin`).

A comparison over twin tables fails in the same way on both sides, or gives twin relations
(`Scope.agree_query`).
-/

namespace RelStore

/-! ### Tables and relations -/

/-- A table that answers with the rows that a scan would find, if in another order. -/
structure Table.Scans (t : Table) : Prop where
  wide : t.Wide
  query_perm : ∀ column op key,
    (t.query column op key).rows.Perm (t.records.filter (Row.satisfies column op key))
  sorted_perm : ∀ column, (t.sorted column).Perm t.records

/-- Tables with the same rows under the same header. -/
structure Table.Twin (t t' : Table) : Prop where
  header_eq : t'.toHeader = t.toHeader
  records_eq : t'.records = t.records
  scans : t.Scans
  scans' : t'.Scans

/-- Relations with the same rows in some order. -/
structure Relation.Twin (r r' : Relation) : Prop where
  name_eq : r'.name = r.name
  schema_eq : r'.schema = r.schema
  sources_eq : r'.sources = r.sources
  rows_perm : r'.rows.Perm r.rows
  wide : ∀ row ∈ r.rows, row.length = r.schema.width

theorem Table.scans_of_filled {t : Table} (h : t.Filled fun s row => row.check s = .ok ())
    (hrange : t.InRange) : t.Scans where
  wide row hrow := Row.length_eq_of_check (h.check_eq_ok row hrow)
  query_perm := h.query_perm hrange
  sorted_perm := h.sorted_perm hrange

namespace Table

/-- A join gives the pairs that two nested scans would find. -/
theorem Scans.matchingRows_perm {l r : Table} (hl : l.Scans) (hr : r.Scans) (on : JoinOn) :
    (matchingRows l r on).Perm (l.records.flatMap (r.partners on)) :=
  Table.matchingRows_perm (hl.sorted_perm on.left) (hr.query_perm on.right on.op.flip)

namespace Twin

variable {t t' u u' : Table}

theorem name_eq (h : t.Twin t') : t'.name = t.name :=
  congrArg Header.name h.header_eq

theorem schema_eq (h : t.Twin t') : t'.schema = t.schema :=
  congrArg Header.schema h.header_eq

theorem sources_eq (h : t.Twin t') : t'.sources = t.sources :=
  congrArg Header.sources h.header_eq

/-! ### Results from one table -/

theorem result (h : t.Twin t') {rows rows' : List Row} (hperm : rows'.Perm rows)
    (hsubset : ∀ row ∈ rows, row ∈ t.records) : (t.result rows).Twin (t'.result rows') where
  name_eq := h.name_eq
  schema_eq := h.schema_eq
  sources_eq := h.sources_eq
  rows_perm := hperm
  wide row hrow := h.scans.wide row (hsubset row hrow)

theorem query (h : t.Twin t') (column : Nat) (op : Operator) (key : Value) :
    (t.query column op key).Twin (t'.query column op key) := by
  have hleft := h.scans.query_perm column op key
  have hright := h.scans'.query_perm column op key
  rw [h.records_eq] at hright
  exact h.result (hright.trans hleft.symm) fun row hrow =>
    (List.mem_filter.1 (hleft.mem_iff.1 hrow)).1

theorem scanColumns (h : t.Twin t') (left : Nat) (op : Operator) (right : Nat) :
    (t.scanColumns left op right).Twin (t'.scanColumns left op right) := by
  unfold Table.scanColumns scan
  rw [h.records_eq]
  exact h.result (.refl _) fun row hrow => (List.mem_filter.1 hrow).1

/-! ### Joins -/

theorem matchingRows_perm (h : t.Twin t') (hu : u.Twin u') (on : JoinOn) :
    (matchingRows t' u' on).Perm (matchingRows t u on) := by
  have hright := h.scans'.matchingRows_perm hu.scans' on
  unfold partners at hright
  rw [h.records_eq, hu.records_eq] at hright
  exact hright.trans (h.scans.matchingRows_perm hu.scans on).symm

end Twin

theorem Twin.join {t t' u u' : Table} (h : t.Twin t') (hu : u.Twin u') (on : JoinOn) :
    (t.join u (some on)).Twin (t'.join u' (some on)) where
  name_eq := rfl
  schema_eq := by rw [Table.join, Table.join, h.schema_eq, hu.schema_eq]
  sources_eq := by rw [Table.join, Table.join, h.sources_eq, hu.sources_eq]
  rows_perm := h.matchingRows_perm hu on
  wide row hrow := by
    have hpairs := (h.scans.matchingRows_perm hu.scans on).mem_iff.1 hrow
    obtain ⟨left, hleft, hpartner⟩ := List.mem_flatMap.1 hpairs
    obtain ⟨right, hright, rfl⟩ := List.mem_map.1 hpartner
    rw [List.length_append, h.scans.wide left hleft,
      hu.scans.wide right (List.mem_filter.1 hright).1]
    exact (Schema.width_join _ _).symm

end Table

theorem Relation.Twin.product {r r' : Relation} {t t' : Table} (h : r.Twin r') (ht : t.Twin t') :
    (r.product t).Twin (r'.product t') where
  name_eq := rfl
  schema_eq := by
    simp only [Relation.product, Table.join, Table.ofRelation, h.schema_eq, ht.schema_eq]
  sources_eq := by
    simp only [Relation.product, Table.join, Table.ofRelation, h.sources_eq, ht.sources_eq]
  rows_perm := by
    have hrows : ∀ r : Relation, ∀ t : Table, (r.product t).rows =
        r.rows.flatMap fun row => t.records.map (row ++ ·) := fun _ _ => rfl
    rw [hrows, hrows, ht.records_eq]
    exact h.rows_perm.flatMap_right _
  wide row hrow := by
    obtain ⟨left, hleft, hpair⟩ := List.mem_flatMap.1 hrow
    obtain ⟨right, hright, rfl⟩ := List.mem_map.1 hpair
    rw [List.length_append, h.wide left hleft, ht.scans.wide right hright]
    exact (Schema.width_join _ _).symm

/-! ### Scopes -/

/-- Scopes of twin tables in the same order. -/
def Scope.Twin (s s' : Scope) : Prop :=
  List.Forall₂ Table.Twin s.tables s'.tables

/-- The same column of twin tables. -/
structure Scope.Place.Twin (p p' : Scope.Place) : Prop where
  table : p.table.Twin p'.table
  column_eq : p'.column = p.column

namespace Scope

variable {s s' : Scope}

theorem agree_firstTable (h : s.Twin s') : Agree Table.Twin s.firstTable s'.firstTable := by
  unfold Scope.Twin at h
  unfold firstTable
  generalize s.tables = tables at h ⊢
  generalize s'.tables = tables' at h ⊢
  cases h with
  | nil => exact .error _
  | cons ht _ => exact .ok ht

theorem agree_table (h : s.Twin s') (name : String) :
    Agree Table.Twin (s.table name) (s'.table name) := by
  have hfind : Option.Rel Table.Twin (s.tables.find? (·.name == name))
      (s'.tables.find? (·.name == name)) :=
    rel_find? h fun t t' ht => by rw [ht.name_eq]
  unfold table
  generalize s.tables.find? (·.name == name) = found at hfind ⊢
  generalize s'.tables.find? (·.name == name) = found' at hfind ⊢
  cases hfind with
  | none => exact .error _
  | some ht => exact .ok ht

theorem agree_searchIn (name : String) {found found' : Option Place} {t t' : Table}
    (hfound : Option.Rel Place.Twin found found') (ht : t.Twin t') :
    Agree (Option.Rel Place.Twin) (searchIn name found t) (searchIn name found' t') := by
  unfold searchIn
  rw [ht.schema_eq]
  split
  · cases hfound with
    | none => exact .ok (.some ⟨ht, rfl⟩)
    | some _ => exact .error _
  · exact .ok hfound
  · exact .error _

theorem agree_search (h : s.Twin s') (name : String) :
    Agree Place.Twin (s.search name) (s'.search name) := by
  have hloop : Agree (Option.Rel Place.Twin) (s.tables.foldlM (searchIn name) none)
      (s'.tables.foldlM (searchIn name) none) :=
    Agree.foldlM h .none fun _ _ _ _ ht hfound => agree_searchIn name hfound ht
  refine hloop.bind ?_
  rintro found found' hfound
  cases hfound with
  | none => exact .error _
  | some hplace => exact .ok hplace

theorem agree_resolve (h : s.Twin s') (reference : ColumnRef) :
    Agree Place.Twin (s.resolve reference) (s'.resolve reference) := by
  unfold resolve
  dsimp only
  split
  · next name _ =>
    refine (agree_table h name).bind fun t t' ht => ?_
    rw [ht.schema_eq]
    refine (Agree.refl _).bind ?_
    rintro column - rfl
    exact .ok ⟨ht, rfl⟩
  · exact agree_search h _

/-! ### Comparisons -/

theorem agree_compareConstants (h : s.Twin s') (a : Value) (op : Operator) (b : Value) :
    Agree Relation.Twin (s.compareConstants a op b) (s'.compareConstants a op b) := by
  have hresult : Agree Relation.Twin
      (do let t ← s.firstTable; return t.result (if op.holds a b then t.records else []))
      (do let t ← s'.firstTable; return t.result (if op.holds a b then t.records else [])) := by
    refine (agree_firstTable h).bind fun t t' ht => .ok ?_
    rw [ht.records_eq]
    refine ht.result (.refl _) fun row hrow => ?_
    split at hrow
    · exact hrow
    · exact absurd hrow List.not_mem_nil
  unfold compareConstants
  cases a.dataType? with
  | none => exact hresult
  | some x =>
    cases b.dataType? with
    | none => exact hresult
    | some y =>
      by_cases hkinds : x.isInt ≠ y.isInt
      · simp only [if_pos hkinds]
        exact .error _
      · simp only [if_neg hkinds]
        exact hresult

theorem agree_compareColumn (h : s.Twin s') (r : ColumnRef) (op : Operator) (v : Value) :
    Agree Relation.Twin (s.compareColumn r op v) (s'.compareColumn r op v) := by
  unfold compareColumn
  refine (agree_resolve h r).bind ?_
  rintro ⟨t, column⟩ ⟨t', column'⟩ ⟨ht, hcolumn⟩
  dsimp only at ht hcolumn ⊢
  rw [hcolumn]
  rw [ht.schema_eq]
  split
  · exact .error _
  · next c _ =>
    have hdescribe : describe t' c = describe t c := by rw [describe, describe, ht.name_eq]
    rw [hdescribe]
    split
    · exact .ok (ht.query column op v)
    · exact .error _

theorem agree_compareColumns (h : s.Twin s') (l : ColumnRef) (op : Operator) (r : ColumnRef) :
    Agree Relation.Twin (s.compareColumns l op r) (s'.compareColumns l op r) := by
  unfold compareColumns
  refine (agree_resolve h l).bind ?_
  rintro ⟨lt, lc⟩ ⟨lt', lc'⟩ ⟨hlt, hlc⟩
  refine (agree_resolve h r).bind ?_
  rintro ⟨rt, rc⟩ ⟨rt', rc'⟩ ⟨hrt, hrc⟩
  dsimp only at hlt hlc hrt hrc ⊢
  rw [hlc, hrc, hlt.schema_eq, hrt.schema_eq]
  split
  · next a b _ _ =>
    have hleft : describe lt' a = describe lt a := by rw [describe, describe, hlt.name_eq]
    have hright : describe rt' b = describe rt b := by rw [describe, describe, hrt.name_eq]
    rw [hleft, hright, hlt.name_eq, hrt.name_eq]
    split
    · exact .error _
    · split
      · exact .ok (hlt.scanColumns lc op rc)
      · exact .ok (hlt.join hrt _)
  · exact .error _

/-- A comparison over twin tables fails in the same way, or gives twin relations. -/
theorem agree_query (h : s.Twin s') (c : Condition) :
    Agree Relation.Twin (s.query c) (s'.query c) := by
  unfold query
  split
  · exact agree_compareConstants h _ _ _
  · exact agree_compareColumn h _ _ _
  · exact agree_compareColumn h _ _ _
  · exact agree_compareColumns h _ _ _
  · exact .error _

end Scope

end RelStore
