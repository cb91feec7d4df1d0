import Mathlib.Data.List.Perm.Basic
import Mathlib.Data.List.Sort
import RelStore.Proofs.Query.Join
import RelStore.Proofs.Query.Projection
import RelStore.Query.Evaluate

/-!
# Results of comparisons

`Relation.Denotes` is the invariant of query evaluation.  It relates a result to a formula and to
some tables of the scope, its parts: the columns of the result are those of the parts, one part
after the other, its sources are their names, and its rows are the answers.  Only a formula without
connectives tells how often a row occurs.

The result of each comparison denotes the comparison (`Scope.query_denotes`), be it answered by an
index, by looking at every row, or by a join.
-/

namespace RelStore

/-- Ascending names differ. -/
theorem Sources.nodup_names (a : Sources) : a.names.Nodup := by
  apply a.ascending.imp
  rintro x y hlt rfl
  have heq : compare x x = .eq := Std.ReflCmp.compare_self
  rw [heq] at hlt
  contradiction

theorem Sources.nodup_diff (a b : Sources) : (a.diff b).Nodup :=
  a.nodup_names.filter _

/-- Sets with the same names are equal. -/
theorem Sources.eq_of_mem_iff {a b : Sources} (h : ∀ name, name ∈ a ↔ name ∈ b) : a = b := by
  have : Std.Irrefl fun a b : String => compare a b = .lt :=
    ⟨fun a hlt => by simp [Std.ReflCmp.compare_self] at hlt⟩
  have : Std.Antisymm fun a b : String => compare a b = .lt :=
    ⟨fun a b hlt hgt => by simp [Std.OrientedCmp.gt_of_lt hlt] at hgt⟩
  cases a
  cases b
  congr
  exact List.Pairwise.eq_of_mem_iff ‹_› ‹_› h

theorem Relation.mem_sources_product (r : Relation) {t : Table} (h : t.sources = .single t.name)
    (name : String) : name ∈ (r.product t).sources ↔ name ∈ r.sources ∨ name = t.name := by
  have hsources : (r.product t).sources = r.sources.union t.sources := rfl
  rw [hsources, Sources.mem_union, h, Sources.mem_single]

/-- A table that a selection can read: well named, with rows that fit and indexes in range. -/
structure Table.Readable (t : Table) : Prop extends t.Named where
  filled : t.Filled fun s row => row.check s = .ok ()
  inRange : t.InRange
  sources_eq : t.sources = .single t.name

/-- A scope of readable tables. -/
def Scope.Readable (s : Scope) : Prop :=
  ∀ t ∈ s.tables, t.Readable

namespace Table.Readable

variable {t : Table}

theorem wide (h : t.Readable) : t.Wide := fun row hrow =>
  Row.length_eq_of_check (h.filled.check_eq_ok row hrow)

theorem mem_sources (h : t.Readable) (name : String) : name ∈ t.sources ↔ name = t.name := by
  rw [h.sources_eq, Sources.mem_single]

end Table.Readable

/-- The relation has the answers to the formula as its rows. -/
structure Relation.Denotes (s : Scope) (f : Formula) (parts : List Table) (r : Relation) : Prop where
  partsOf : PartsOf s.tables parts
  covered : f.Covered s.tables parts
  shows : r.schema.Shows (labelsOf parts)
  columns : r.schema.qualifiedColumns = parts.flatMap (·.schema.qualifiedColumns)
  mem_sources : ∀ name, name ∈ r.sources ↔ name ∈ parts.map (·.name)
  mem_rows : ∀ row, row ∈ r.rows ↔ row ∈ answers f parts
  perm_rows : f.IsPlain → r.rows.Perm (answers f parts)

variable {s : Scope} {f : Formula} {parts : List Table}

theorem Scope.Readable.partsOf (hs : s.Readable) (hsubset : ∀ t ∈ parts, t ∈ s.tables)
    (hnodup : (parts.map (·.name)).Nodup) : PartsOf s.tables parts where
  subset := hsubset
  nodup := hnodup
  named t ht := (hs t (hsubset t ht)).toNamed
  wide t ht := (hs t (hsubset t ht)).wide

theorem labelsOf_single (t : Table) : labelsOf [t] = t.labels := by
  simp [labelsOf]

theorem Formula.covered_columns {tables : List Table} {a b : ColumnRef} {op : Operator}
    {l l' : Label} (hl : l ∈ labelsOf parts) (ha : Means tables a l) (hl' : l' ∈ labelsOf parts)
    (hb : Means tables b l') :
    (Formula.compare (.column a) op (.column b)).Covered tables parts := by
  intro r hr
  simp only [references, Operand.references, List.cons_append, List.nil_append, List.mem_cons,
    List.not_mem_nil, or_false] at hr
  rcases hr with rfl | rfl
  · exact ⟨l, hl, ha⟩
  · exact ⟨l', hl', hb⟩

/-! ### Results from one table -/

section Single

variable (hs : s.Readable) {t : Table} (ht : t ∈ s.tables)

include hs ht

theorem Scope.Readable.partsOf_single : PartsOf s.tables [t] := by
  apply hs.partsOf
  · simpa using ht
  · simp

theorem Relation.denotes_result (hf : f.Covered s.tables [t]) {rows : List Row}
    (hrows : rows.Perm (answers f [t])) : (t.result rows).Denotes s f [t] where
  partsOf := hs.partsOf_single ht
  covered := hf
  shows := by
    rw [labelsOf_single]
    exact (hs t ht).shows
  columns := (List.append_nil _).symm
  mem_sources name := by
    rw [List.map_singleton, List.mem_singleton]
    exact (hs t ht).mem_sources name
  mem_rows row := hrows.mem_iff
  perm_rows _ := hrows

theorem Scope.Readable.within_cells {row : Row} (hrow : row ∈ t.records) :
    Env.Within s.tables (t.cells row) := by
  apply (hs.partsOf_single ht).within
  rw [environments_single]
  exact List.mem_map.2 ⟨row, hrow, rfl⟩

end Single

/-- A reference to a column of a table has the value that the table's row has there. -/
theorem Env.Within.exists_value {tables : List Table} {env : Env} (henv : env.Within tables)
    {t : Table} (ht : t.Wide) {row : Row} (hrow : row ∈ t.records) (hcells : t.cells row ⊆ env)
    {r : ColumnRef} {i : Nat} {l : Label} (hl : t.labels[i]? = some l) (hr : Means tables r l) :
    ∃ v, row[i]? = some v ∧ env.value? r = some v := by
  obtain ⟨hi, -⟩ := List.getElem?_eq_some_iff.1 hl
  have hlt : i < row.length := by
    rw [ht row hrow, ← t.length_labels]
    exact hi
  have hcell : (l, row[i]) ∈ env := by
    apply hcells
    apply List.mem_of_getElem? (i := i)
    rw [Table.cells, List.getElem?_zip_eq_some]
    exact ⟨hl, List.getElem?_eq_getElem hlt⟩
  have hlabel : l ∈ env.labels := List.mem_map.2 ⟨(l, row[i]), hcell, rfl⟩
  refine ⟨row[i], List.getElem?_eq_getElem hlt, ?_⟩
  rw [henv.value?_eq hlabel hr, (lookup_eq_some_iff henv.nodup).2 hcell]

namespace Scope

theorem firstTable_eq_ok {t : Table} (h : s.firstTable = .ok t) : t ∈ s.tables := by
  unfold firstTable at h
  split at h
  · next heq =>
    cases h
    rw [heq]
    exact List.mem_cons_self
  · contradiction

theorem compareConstants_eq_ok {a b : Value} {op : Operator} {r : Relation}
    (h : s.compareConstants a op b = .ok r) :
    ∃ t, s.firstTable = .ok t ∧ r = t.result (if op.holds a b then t.records else []) := by
  have hrest : (do
      let t ← s.firstTable
      return t.result (if op.holds a b then t.records else [])) = .ok r := by
    unfold compareConstants at h
    cases hx : a.dataType? with
    | none => simpa only [hx] using h
    | some x =>
      cases hy : b.dataType? with
      | none => simpa only [hx, hy] using h
      | some y =>
        simp only [hx, hy] at h
        by_cases htype : x.isInt ≠ y.isInt
        · rw [if_pos htype] at h
          contradiction
        · rwa [if_neg htype] at h
  obtain ⟨t, ht, h⟩ := bind_eq_ok_iff.1 hrest
  cases h
  exact ⟨t, ht, rfl⟩

theorem compareColumn_eq_ok {a : ColumnRef} {op : Operator} {v : Value} {r : Relation}
    (h : s.compareColumn a op v = .ok r) :
    ∃ place, s.resolve a = .ok place ∧ r = place.table.query place.column op v := by
  obtain ⟨⟨t, i⟩, hplace, h⟩ := bind_eq_ok_iff.1 h
  simp only at h
  split at h
  · contradiction
  · split at h
    · cases h
      exact ⟨⟨t, i⟩, hplace, rfl⟩
    · contradiction

theorem compareColumns_eq_ok {a b : ColumnRef} {op : Operator} {r : Relation}
    (h : s.compareColumns a op b = .ok r) :
    ∃ p q, s.resolve a = .ok p ∧ s.resolve b = .ok q ∧
      r = if p.table.name = q.table.name then p.table.scanColumns p.column op q.column
        else p.table.join q.table (some ⟨p.column, op, q.column⟩) := by
  obtain ⟨⟨t, i⟩, hp, h⟩ := bind_eq_ok_iff.1 h
  obtain ⟨⟨t', i'⟩, hq, h⟩ := bind_eq_ok_iff.1 h
  simp only at h
  split at h
  · split at h
    · contradiction
    · cases h
      exact ⟨_, _, hp, hq, rfl⟩
  · contradiction

/-- Two tables of the scope that have the same name are the same table. -/
theorem eq_of_name_eq {t t' : Table} (ht : t ∈ s.tables) (ht' : t' ∈ s.tables)
    (hname : t.name = t'.name) : t = t' :=
  List.inj_on_of_nodup_map s.nodup_names ht ht' hname

/-- Tables of the scope under the same names are the same tables. -/
theorem perm_of_names {ts ts' : List Table} (hts : ∀ t ∈ ts, t ∈ s.tables)
    (hnodup : (ts.map (·.name)).Nodup) (hts' : ∀ t ∈ ts', t ∈ s.tables)
    (hnodup' : (ts'.map (·.name)).Nodup)
    (hnames : ∀ name, name ∈ ts.map (·.name) ↔ name ∈ ts'.map (·.name)) : ts.Perm ts' := by
  have hmem : ∀ {ts ts' : List Table}, (∀ t ∈ ts, t ∈ s.tables) → (∀ t ∈ ts', t ∈ s.tables) →
      (∀ name, name ∈ ts.map (·.name) → name ∈ ts'.map (·.name)) → ∀ t ∈ ts, t ∈ ts' := by
    intro ts ts' hts hts' hnames t ht
    obtain ⟨t', ht', hname⟩ := List.mem_map.1 (hnames t.name (List.mem_map.2 ⟨t, ht, rfl⟩))
    rwa [eq_of_name_eq (hts t ht) (hts' t' ht') hname.symm]
  apply (List.perm_ext_iff_of_nodup hnodup.of_map hnodup'.of_map).2
  intro t
  exact ⟨hmem hts hts' (fun name => (hnames name).1) t,
    hmem hts' hts (fun name => (hnames name).2) t⟩

theorem table_name_eq_ok {t : Table} (ht : t ∈ s.tables) : s.table t.name = .ok t := by
  unfold table
  split
  · next t' hfind =>
    have hname : t'.name = t.name := by simpa using List.find?_some hfind
    rw [eq_of_name_eq (List.mem_of_find?_eq_some hfind) ht hname]
  · next hfind =>
    have hnone := List.find?_eq_none.1 hfind t ht
    simp at hnone

variable (hs : s.Readable)

include hs

theorem compareConstants_denotes {a b : Value} {op : Operator} {r : Relation}
    (h : s.compareConstants a op b = .ok r) :
    ∃ parts, r.Denotes s (.compare (.constant a) op (.constant b)) parts := by
  obtain ⟨t, hfirst, rfl⟩ := compareConstants_eq_ok h
  have ht := firstTable_eq_ok hfirst
  refine ⟨[t], Relation.denotes_result hs ht (fun r hr => absurd hr List.not_mem_nil) ?_⟩
  rw [answers_single (hs t ht).wide]
  simp only [Formula.holds, Operand.value?]
  by_cases hholds : op.holds a b <;> simp [hholds]

/-- A comparison of a column with a constant, whichever side the column is on. -/
theorem query_denotes_compare {r : ColumnRef} {place : Place} (hplace : s.resolve r = .ok place)
    {op : Operator} {v : Value} (hr : f.references = [r])
    (hholds : ∀ (env : Env) w, env.value? r = some w → f.holds env = op.holds w v) :
    (place.table.query place.column op v).Denotes s f [place.table] := by
  obtain ⟨ht, l, hl, hmeans⟩ := resolve_ok (fun t ht => (hs t ht).toNamed) hplace
  have hreadable := hs _ ht
  have hcovered : f.Covered s.tables [place.table] := by
    intro r' hr'
    rw [hr, List.mem_singleton] at hr'
    subst hr'
    rw [labelsOf_single]
    exact ⟨l, List.mem_of_getElem? hl, hmeans⟩
  apply Relation.denotes_result hs ht hcovered
  rw [answers_single hreadable.wide]
  have hfilter : place.table.records.filter (Row.satisfies place.column op v) =
      place.table.records.filter fun row => f.holds (place.table.cells row) := by
    apply List.filter_congr
    intro row hrow
    obtain ⟨w, hw, hvalue⟩ := (hs.within_cells ht hrow).exists_value hreadable.wide hrow
      (List.Subset.refl _) hl hmeans
    rw [hholds _ w hvalue, Row.satisfies, hw]
    rfl
  rw [← hfilter]
  exact hreadable.filled.query_perm hreadable.inRange place.column op v

/-! ### Two columns -/

theorem scanColumns_denotes {a b : ColumnRef} {t : Table} {i j : Nat} {op : Operator}
    (ha : s.resolve a = .ok ⟨t, i⟩) (hb : s.resolve b = .ok ⟨t, j⟩) :
    (t.scanColumns i op j).Denotes s (.compare (.column a) op (.column b)) [t] := by
  obtain ⟨ht, l, hl, hmeans⟩ := resolve_ok (fun t ht => (hs t ht).toNamed) ha
  obtain ⟨-, l', hl', hmeans'⟩ := resolve_ok (fun t ht => (hs t ht).toNamed) hb
  have hwide := (hs t ht).wide
  have hcovered : (Formula.compare (.column a) op (.column b)).Covered s.tables [t] := by
    apply Formula.covered_columns _ hmeans _ hmeans' <;> rw [labelsOf_single]
    · exact List.mem_of_getElem? hl
    · exact List.mem_of_getElem? hl'
  apply Relation.denotes_result hs ht hcovered
  rw [answers_single hwide]
  apply List.Perm.of_eq
  apply List.filter_congr
  intro row hrow
  have hwithin := hs.within_cells ht hrow
  obtain ⟨v, hv, hvalue⟩ :=
    hwithin.exists_value hwide hrow (List.Subset.refl _) hl hmeans
  obtain ⟨w, hw, hvalue'⟩ :=
    hwithin.exists_value hwide hrow (List.Subset.refl _) hl' hmeans'
  simp only [Formula.holds, Operand.value?, hv, hw, hvalue, hvalue']

theorem join_denotes {a b : ColumnRef} {t t' : Table} {i j : Nat} {op : Operator}
    (ha : s.resolve a = .ok ⟨t, i⟩) (hb : s.resolve b = .ok ⟨t', j⟩) (hname : t.name ≠ t'.name) :
    (t.join t' (some ⟨i, op, j⟩)).Denotes s (.compare (.column a) op (.column b)) [t, t'] := by
  obtain ⟨ht, l, hl, hmeans⟩ := resolve_ok (fun t ht => (hs t ht).toNamed) ha
  obtain ⟨ht', l', hl', hmeans'⟩ := resolve_ok (fun t ht => (hs t ht).toNamed) hb
  have hreadable := hs t ht
  have hreadable' := hs t' ht'
  have hlabels : labelsOf [t, t'] = t.labels ++ t'.labels := by simp [labelsOf]
  have hparts : PartsOf s.tables [t, t'] := by
    apply hs.partsOf
    · simpa using ⟨ht, ht'⟩
    · simpa using hname
  have hcovered : (Formula.compare (.column a) op (.column b)).Covered s.tables [t, t'] := by
    apply Formula.covered_columns _ hmeans _ hmeans' <;> rw [hlabels]
    · exact List.mem_append_left _ (List.mem_of_getElem? hl)
    · exact List.mem_append_right _ (List.mem_of_getElem? hl')
  have hrows : (t.join t' (some ⟨i, op, j⟩)).rows.Perm
      (answers (.compare (.column a) op (.column b)) [t, t']) := by
    rw [answers_pair hreadable.wide hreadable'.wide]
    apply (Table.matchingRows_perm (hreadable.filled.sorted_perm hreadable.inRange i)
      (hreadable'.filled.query_perm hreadable'.inRange j op.flip)).trans
    apply List.Perm.of_eq
    apply List.flatMap_congr
    intro row hrow
    refine congrArg (List.map (row ++ ·)) ?_
    apply List.filter_congr
    intro row' hrow'
    have hwithin : Env.Within s.tables (t.cells row ++ t'.cells row') := by
      apply hparts.within
      simp only [environments, List.mem_flatMap, List.mem_map]
      exact ⟨row, hrow, _, ⟨row', hrow', [], by simp, rfl⟩, by simp⟩
    obtain ⟨v, hv, hvalue⟩ := hwithin.exists_value hreadable.wide hrow
      (List.subset_append_left _ _) hl hmeans
    obtain ⟨w, hw, hvalue'⟩ := hwithin.exists_value hreadable'.wide hrow'
      (List.subset_append_right _ _) hl' hmeans'
    simp only [Formula.holds, Operand.value?, hvalue, hvalue', Row.satisfies, Table.joinKey, hv, hw,
      Option.getD_some, Option.any_some, Operator.holds_flip]
  refine ⟨hparts, hcovered, ?_, ?_, ?_, fun row => hrows.mem_iff, fun _ => hrows⟩
  · rw [hlabels]
    exact hreadable.shows.join hreadable'.shows (fun l hl => hreadable.plain_of_mem hl)
      fun l hl => hreadable'.plain_of_mem hl
  · have hschema : (t.join t' (some ⟨i, op, j⟩)).schema = t.schema.join t'.schema := rfl
    rw [hschema, Schema.qualifiedColumns_join]
    simp
  · intro name
    have hsources : (t.join t' (some ⟨i, op, j⟩)).sources = t.sources.union t'.sources := rfl
    rw [hsources, Sources.mem_union, hreadable.mem_sources, hreadable'.mem_sources]
    simp

theorem compareColumns_denotes {a b : ColumnRef} {op : Operator} {r : Relation}
    (h : s.compareColumns a op b = .ok r) :
    ∃ parts, r.Denotes s (.compare (.column a) op (.column b)) parts := by
  obtain ⟨⟨t, i⟩, ⟨t', j⟩, ha, hb, rfl⟩ := compareColumns_eq_ok h
  have ht := (resolve_ok (fun t ht => (hs t ht).toNamed) ha).1
  have ht' := (resolve_ok (fun t ht => (hs t ht).toNamed) hb).1
  by_cases hname : t.name = t'.name
  · have heq : t = t' := eq_of_name_eq ht ht' hname
    subst heq
    rw [if_pos rfl]
    exact ⟨[t], scanColumns_denotes hs ha hb⟩
  · rw [if_neg hname]
    exact ⟨[t, t'], join_denotes hs ha hb hname⟩

/-- The result of a comparison denotes it. -/
theorem query_denotes {left right : Operand} {op : Operator} {r : Relation}
    (h : s.query (.compare left op right) = .ok r) :
    ∃ parts, r.Denotes s (.compare left op right) parts := by
  cases left with
  | constant a =>
    cases right with
    | constant b => exact compareConstants_denotes hs h
    | column b =>
      obtain ⟨place, hplace, rfl⟩ := compareColumn_eq_ok h
      refine ⟨[place.table], query_denotes_compare hs hplace rfl fun env w hw => ?_⟩
      simp only [Formula.holds, Operand.value?, hw]
      exact (op.holds_flip w a).symm
  | column a =>
    cases right with
    | constant b =>
      obtain ⟨place, hplace, rfl⟩ := compareColumn_eq_ok h
      refine ⟨[place.table], query_denotes_compare hs hplace rfl fun env w hw => ?_⟩
      simp only [Formula.holds, Operand.value?, hw]
    | column b => exact compareColumns_denotes hs h

end Scope

end RelStore
