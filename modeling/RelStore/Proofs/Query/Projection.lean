import RelStore.Proofs.Except
import RelStore.Proofs.Query.Answers

/-!
# Projection

Selecting positions of a row gives the values of the labels at these positions (`Env.select_row`).
The positions that bring the columns of one schema in the order of another are those of the same
labels (`columnMapping_labels`).
-/

namespace RelStore

/-- Selecting every position gives the whole list. -/
theorem map_getElem?_range {α : Type} (l : List α) :
    (List.range l.length).map (l[·]?) = l.map some := by
  apply List.ext_getElem?
  intro i
  rw [List.getElem?_map, List.getElem?_map]
  by_cases hi : i < l.length
  · simp [hi]
  · simp [Nat.not_lt.1 hi]

namespace Env

variable {env : Env} {ls : List Label} {positions : List Nat}

theorem getElem?_row (h : env.labels.Nodup) (i : Nat) :
    env.row[i]? = env.labels[i]?.bind (env.lookup ·) := by
  rw [row, labels, List.getElem?_map, List.getElem?_map]
  cases hcell : env[i]? with
  | none => rfl
  | some cell =>
    have hmem : cell ∈ env := List.mem_of_getElem? hcell
    exact ((lookup_eq_some_iff h).2 hmem).symm

theorem project_eq_some_iff {row : Row} :
    env.project ls = some row ↔ ls.map (env.lookup ·) = row.map some := by
  rw [project]
  induction ls generalizing row with
  | nil => cases row <;> simp
  | cons l ls ih =>
    rw [List.mapM_cons, List.map_cons]
    cases hl : env.lookup l with
    | none => cases row <;> simp
    | some v =>
      cases row with
      | nil => cases ls.mapM (env.lookup ·) <;> simp
      | cons w row =>
        rw [List.map_cons, List.cons.injEq, ← ih]
        cases ls.mapM (env.lookup ·) <;> simp

/-- The labels of an environment, projected, give its row. -/
theorem project_labels (h : env.labels.Nodup) : env.project env.labels = some env.row := by
  rw [project_eq_some_iff]
  apply List.ext_getElem?
  intro i
  rw [List.getElem?_map, List.getElem?_map, getElem?_row h]
  cases hl : env.labels[i]? with
  | none => rfl
  | some l =>
    obtain ⟨v, hv⟩ := exists_lookup (List.mem_of_getElem? hl)
    simp [(lookup_eq_some_iff h).2 hv]

end Env

theorem Row.select_eq_ok {row values : Row} {positions : List Nat}
    (h : positions.map (row[·]?) = values.map some) : row.select positions = .ok values := by
  rw [select, mapM_eq_ok_iff]
  induction positions generalizing values with
  | nil => cases values <;> simp_all
  | cons i positions ih =>
    cases values with
    | nil => simp at h
    | cons v values =>
      rw [List.map_cons, List.map_cons, List.cons.injEq] at h
      rw [List.map_cons, List.map_cons, h.1, ih h.2]

/-- A row in the order of the positions, be they all in their places or not. -/
theorem Row.project_eq_select (mapping : List Nat) (row : Row) :
    Row.project mapping row = row.select mapping := by
  unfold Row.project
  split
  · next h =>
    rw [Bool.and_eq_true, isIdentity, beq_iff_eq, beq_iff_eq] at h
    symm
    apply Row.select_eq_ok
    apply List.ext_getElem?
    intro i
    rw [h.1, List.getElem?_map, List.getElem?_map]
    by_cases hi : i < row.length
    · rw [List.getElem?_range (by omega)]
      simp [hi]
    · have hnone : (List.range mapping.length)[i]? = none := by
        rw [List.getElem?_eq_none_iff, List.length_range]
        omega
      rw [hnone, List.getElem?_eq_none (by omega)]
      rfl
  · rfl

theorem exists_map_some {α β : Type} {f : α → Option β} {l : List α}
    (h : ∀ a ∈ l, ∃ b, f a = some b) : ∃ bs : List β, l.map f = bs.map some := by
  induction l with
  | nil => exact ⟨[], rfl⟩
  | cons a l ih =>
    rw [List.forall_mem_cons] at h
    obtain ⟨b, hb⟩ := h.1
    obtain ⟨bs, hbs⟩ := ih h.2
    exact ⟨b :: bs, by rw [List.map_cons, hb, hbs, List.map_cons]⟩

/-- The values at positions that the row has. -/
def Row.valuesAt (positions : List Nat) (row : Row) : Row :=
  positions.map fun i => row[i]?.getD .null

theorem Row.select_eq_valuesAt {row : Row} {positions : List Nat}
    (h : ∀ i ∈ positions, i < row.length) :
    row.select positions = .ok (row.valuesAt positions) := by
  apply Row.select_eq_ok
  rw [Row.valuesAt, List.map_map]
  refine List.map_congr_left fun i hi => ?_
  rw [Function.comp_apply, List.getElem?_eq_getElem (h i hi)]
  rfl

/-- Rows that have all positions are mapped without failure. -/
theorem Row.mapM_select_eq_ok {rows : List Row} {positions : List Nat}
    (h : ∀ row ∈ rows, ∀ i ∈ positions, i < row.length) :
    rows.mapM (·.select positions) = .ok (rows.map (Row.valuesAt positions)) :=
  mapM_eq_pure fun row hrow => Row.select_eq_valuesAt (h row hrow)

/-- Selected positions of a row have the values of the labels at these positions. -/
theorem Env.select_row {env : Env} (h : env.labels.Nodup) {ls : List Label} {positions : List Nat}
    (hpositions : positions.map (env.labels[·]?) = ls.map some) :
    ∃ row, env.row.select positions = .ok row ∧ env.project ls = some row := by
  have hvalues : positions.map (env.row[·]?) = ls.map (env.lookup ·) :=
    calc positions.map (env.row[·]?)
        = (positions.map (env.labels[·]?)).map (·.bind (env.lookup ·)) := by
          rw [List.map_map]
          exact List.map_congr_left fun i _ => getElem?_row h i
      _ = ls.map (env.lookup ·) := by
          rw [hpositions, List.map_map]
          rfl
  have hmem : ∀ l ∈ ls, ∃ v, env.lookup l = some v := by
    intro l hl
    have hsome : some l ∈ positions.map (env.labels[·]?) := by
      rw [hpositions]
      exact List.mem_map.2 ⟨l, hl, rfl⟩
    obtain ⟨i, -, hi⟩ := List.mem_map.1 hsome
    obtain ⟨v, hv⟩ := exists_lookup (List.mem_of_getElem? hi)
    exact ⟨v, (lookup_eq_some_iff h).2 hv⟩
  obtain ⟨row, hrow⟩ := exists_map_some hmem
  exact ⟨row, Row.select_eq_ok (hvalues.trans hrow), project_eq_some_iff.2 hrow⟩

/-! ### Positions -/

theorem Relation.positions_column_eq_ok {r : Relation} {ref : ColumnRef} {ps : List Nat}
    (h : r.positions (.column ref) = .ok ps) :
    ∃ i, r.schema.resolve ref.table ref.name = .ok i ∧ ps = [i] := by
  simp only [positions] at h
  cases hresolve : r.schema.resolve ref.table ref.name with
  | error e =>
    rw [hresolve] at h
    contradiction
  | ok i =>
    rw [hresolve] at h
    cases h
    exact ⟨i, rfl, rfl⟩

/-! ### Columns in another order -/

theorem Schema.position?_lt {s : Schema} {name : String} {i : Nat} (h : s.position? name = some i) :
    i < s.width := by
  obtain ⟨hlt, -⟩ := List.findIdx?_eq_some_iff_getElem.1 h
  rwa [Schema.qualifiedNames, List.length_map] at hlt

/-- A mapping has a position of the source for each column. -/
theorem columnMapping_eq_ok {onto source : Schema} {mapping : List Nat}
    (h : columnMapping onto source = .ok mapping) :
    mapping.length = onto.width ∧ ∀ i ∈ mapping, i < source.width := by
  constructor
  · have hlength := congrArg List.length (mapM_eq_ok_iff.1 h)
    rw [List.length_map, List.length_map] at hlength
    rw [← hlength, Schema.qualifiedNames, List.length_map]
    rfl
  · intro i hi
    obtain ⟨name, -, hname⟩ := (mem_of_mapM_eq_ok h).1 hi
    split at hname
    · next hposition =>
      cases hname
      exact Schema.position?_lt hposition
    · contradiction

/-- A column of the same full name is the same column. -/
theorem columnMapping_labels {onto source : Schema} {ls ls' : List Label} {mapping : List Nat}
    (honto : onto.Shows ls) (hsource : source.Shows ls') (hplain : ∀ l ∈ ls, '.' ∉ l.column.toList)
    (hplain' : ∀ l ∈ ls', '.' ∉ l.column.toList) (h : columnMapping onto source = .ok mapping) :
    mapping.map (ls'[·]?) = ls.map some := by
  rw [columnMapping, honto.qualifiedNames_eq, List.mapM_map] at h
  have hposition : ∀ l ∈ ls, ∀ i, source.position? l.text = some i → ls'[i]? = some l := by
    intro l hl i hi
    rw [Schema.position?, hsource.qualifiedNames_eq, List.findIdx?_map] at hi
    obtain ⟨hlt, htext, -⟩ := List.findIdx?_eq_some_iff_getElem.1 hi
    have heq : ls'[i] = l := by
      apply Label.eq_of_text_eq (hplain' _ (List.getElem_mem hlt)) (hplain l hl)
      simpa using htext
    rw [List.getElem?_eq_getElem hlt, heq]
  apply map_eq_of_mapM_eq_ok h
  intro l hl i hi
  simp only [Function.comp_apply] at hi
  split at hi
  · next p hp =>
    cases hi
    exact hposition l hl _ hp
  · contradiction

end RelStore
