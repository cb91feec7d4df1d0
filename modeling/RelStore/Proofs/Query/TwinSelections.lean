import RelStore.Database.Select
import RelStore.Proofs.Query.Projection
import RelStore.Proofs.Query.Twins

/-!
# Selections from twin tables

The evaluation of a condition list over twin tables fails in the same way on both sides, or gives
twin relations (`Scope.agree_evaluate`), and the selection of targets from twin relations gives the
same columns and the same rows in some order (`Relation.Twin.agree_select`).

A row can only make a selection fail by being too short, and the rows of twin relations are as long
as there are columns.  So no failure depends on the order of the rows.
-/

namespace RelStore

theorem Schema.resolve_lt {s : Schema} {table : Option String} {name : String} {i : Nat}
    (h : s.resolve table name = .ok i) : i < s.width := by
  unfold Schema.resolve at h
  dsimp only at h
  split at h
  · contradiction
  · next hfind =>
    split at h
    · contradiction
    · cases h
      exact (List.findIdx?_eq_some_iff_getElem.1 hfind).1

/-! ### Alignment -/

namespace Scope

variable {s s' : Scope} {l l' r r' : Relation}

theorem agree_extend (h : s.Twin s') (hr : r.Twin r') (names : List String) :
    Agree Relation.Twin (s.extend r names) (s'.extend r' names) :=
  Agree.foldlM_same hr fun name _ _ hr =>
    (agree_table h name).bind fun _ _ ht => .ok (hr.product ht)

theorem agree_align (h : s.Twin s') (hl : l.Twin l') (hr : r.Twin r') :
    Agree (fun p p' => p.1.Twin p'.1 ∧ p.2.Twin p'.2) (s.align l r) (s'.align l' r') := by
  unfold align
  rw [hl.sources_eq, hr.sources_eq]
  refine (agree_extend h hl _).bind fun left left' hleft => ?_
  refine (agree_extend h hr _).bind fun right right' hright => ?_
  exact .ok ⟨hleft, hright⟩

/-- Aligned operands: the left ones are twins, and the rows of the right ones are the same and as
long as the left ones. -/
structure AlignedTwin (a a' : Relation × Sources × List Row) : Prop where
  left : a.1.Twin a'.1
  sources_eq : a'.2.1 = a.2.1
  rows_perm : a'.2.2.Perm a.2.2
  wide : ∀ row ∈ a.2.2, row.length = a.1.schema.width

theorem agree_alignRows (h : s.Twin s') (hl : l.Twin l') (hr : r.Twin r') :
    Agree AlignedTwin (s.alignRows l r) (s'.alignRows l' r') := by
  unfold alignRows
  refine (agree_align h hl hr).bind ?_
  rintro ⟨left, right⟩ ⟨left', right'⟩ ⟨hleft, hright⟩
  dsimp only at hleft hright ⊢
  rw [hleft.schema_eq, hright.schema_eq, hleft.sources_eq, hright.sources_eq]
  cases hmapping : columnMapping left.schema right.schema with
  | error e => exact .error e
  | ok mapping =>
    obtain ⟨hlength, hlt⟩ := columnMapping_eq_ok hmapping
    have hrows : ∀ row ∈ right.rows, ∀ i ∈ mapping, i < row.length := by
      intro row hrow i hi
      rw [hright.wide row hrow]
      exact hlt i hi
    have hrows' : ∀ row ∈ right'.rows, ∀ i ∈ mapping, i < row.length := fun row hrow =>
      hrows row (hright.rows_perm.mem_iff.1 hrow)
    have hproject : Row.project mapping = (·.select mapping) :=
      funext (Row.project_eq_select mapping)
    simp only [hproject, bind, Except.bind, Row.mapM_select_eq_ok hrows,
      Row.mapM_select_eq_ok hrows']
    refine .ok ⟨hleft, rfl, hright.rows_perm.map _, fun row hrow => ?_⟩
    obtain ⟨row, -, rfl⟩ := List.mem_map.1 hrow
    rw [Row.valuesAt, List.length_map, hlength]

/-! ### Unions and intersections -/

theorem distinct_perm {rows rows' : List Row} (h : ∀ row, row ∈ rows' ↔ row ∈ rows) :
    (Row.distinct rows').Perm (Row.distinct rows) := by
  rw [List.perm_ext_iff_of_nodup (Row.nodup_distinct _) (Row.nodup_distinct _)]
  intro row
  rw [Row.mem_distinct, Row.mem_distinct, h]

/-- Twin relations with other rows. -/
theorem twin_withRows (h : l.Twin l') (sources : Sources)
    {rows rows' : List Row} (hperm : rows'.Perm rows)
    (hwide : ∀ row ∈ rows, row.length = l.schema.width) :
    { l with sources, rows }.Twin { l' with sources, rows := rows' } where
  name_eq := h.name_eq
  schema_eq := h.schema_eq
  sources_eq := rfl
  rows_perm := hperm
  wide := hwide

theorem agree_union (h : s.Twin s') (hl : l.Twin l') (hr : r.Twin r') :
    Agree Relation.Twin (s.union l r) (s'.union l' r') := by
  unfold union
  refine (agree_alignRows h hl hr).bind ?_
  rintro ⟨left, sources, rows⟩ ⟨left', sources', rows'⟩ ⟨hleft, hsources, hrows, hwide⟩
  dsimp only at hleft hsources hrows hwide ⊢
  rw [hsources]
  refine .ok (twin_withRows hleft sources (distinct_perm fun row => ?_) fun row hrow => ?_)
  · rw [List.mem_append, List.mem_append, hleft.rows_perm.mem_iff, hrows.mem_iff]
  · rcases List.mem_append.1 (Row.mem_distinct.1 hrow) with hrow | hrow
    · exact hleft.wide row hrow
    · exact hwide row hrow

theorem agree_intersect (h : s.Twin s') (hl : l.Twin l') (hr : r.Twin r') :
    Agree Relation.Twin (s.intersect l r) (s'.intersect l' r') := by
  unfold intersect
  refine (agree_alignRows h hl hr).bind ?_
  rintro ⟨left, sources, rows⟩ ⟨left', sources', rows'⟩ ⟨hleft, hsources, hrows, hwide⟩
  dsimp only at hleft hsources hrows hwide ⊢
  rw [hsources]
  refine .ok (twin_withRows hleft sources (distinct_perm fun row => ?_) fun row hrow => ?_)
  · simp only [List.mem_filter, Std.HashSet.contains_ofList, List.contains_iff_mem,
      hleft.rows_perm.mem_iff, hrows.mem_iff]
  · exact hleft.wide row (List.mem_filter.1 (Row.mem_distinct.1 hrow)).1

/-! ### Condition lists -/

theorem agree_step (h : s.Twin s') {stack stack' : List Relation}
    (hstack : List.Forall₂ Relation.Twin stack stack') (c : Condition) :
    Agree (List.Forall₂ Relation.Twin) (s.step stack c) (s'.step stack' c) := by
  cases c with
  | compare left op right =>
    exact (agree_query h _).bind fun _ _ hr => .ok (.cons hr hstack)
  | and =>
    rcases hstack with _ | ⟨hr, _ | ⟨hl, hrest⟩⟩
    · exact .error _
    · exact .error _
    · exact (agree_intersect h hl hr).bind fun _ _ hboth => .ok (.cons hboth hrest)
  | or =>
    rcases hstack with _ | ⟨hr, _ | ⟨hl, hrest⟩⟩
    · exact .error _
    · exact .error _
    · exact (agree_union h hl hr).bind fun _ _ heither => .ok (.cons heither hrest)

theorem agree_onlyResult (h : s.Twin s') {stack stack' : List Relation}
    (hstack : List.Forall₂ Relation.Twin stack stack') :
    Agree Relation.Twin (s.onlyResult stack) (s'.onlyResult stack') := by
  have hlength := hstack.length_eq
  rcases hstack with _ | ⟨hr, _ | ⟨hr', hrest⟩⟩
  · refine (agree_firstTable h).bind fun t t' ht => .ok ?_
    rw [ht.records_eq]
    exact ht.result (.refl _) fun _ hrow => hrow
  · exact .ok hr
  · unfold onlyResult
    dsimp only
    rw [hlength]
    exact .error _

theorem twin_complete (h : s.Twin s') (hr : r.Twin r') : (s.complete r).Twin (s'.complete r') := by
  unfold complete
  unfold Scope.Twin at h
  generalize s.tables = tables at h ⊢
  generalize s'.tables = tables' at h ⊢
  induction h generalizing r r' with
  | nil => exact hr
  | cons ht _ ih =>
    refine ih ?_
    dsimp only
    rw [ht.name_eq, hr.sources_eq]
    split
    · exact hr
    · exact hr.product ht

/-- The evaluation of conditions over twin tables fails in the same way, or gives twin relations. -/
theorem agree_evaluate (h : s.Twin s') (conditions : List Condition) :
    Agree Relation.Twin (s.evaluate conditions) (s'.evaluate conditions) := by
  unfold evaluate
  refine (Agree.foldlM_same .nil fun c _ _ hstack => agree_step h hstack c).bind ?_
  intro stack stack' hstack
  exact (agree_onlyResult h hstack).bind fun _ _ hr => .ok (twin_complete h hr)

end Scope

/-! ### Targets -/

/-- Selections with the same columns and the same rows in some order. -/
structure Selection.Twin (a a' : Selection) : Prop where
  columns_eq : a'.columns = a.columns
  rows_perm : a'.rows.Perm a.rows

theorem Relation.lt_of_mem_positions {r : Relation} {t : Target} {positions : List Nat} {i : Nat}
    (h : r.positions t = .ok positions) (hi : i ∈ positions) : i < r.schema.width := by
  cases t with
  | all =>
    cases h
    exact List.mem_range.1 hi
  | column ref =>
    obtain ⟨column, hresolve, rfl⟩ := Relation.positions_column_eq_ok h
    rw [List.mem_singleton.1 hi]
    exact Schema.resolve_lt hresolve

/-- The selection of targets from twin relations fails in the same way, or gives twin selections. -/
theorem Relation.Twin.agree_select {r r' : Relation} (h : r.Twin r') (targets : List Target) :
    Agree Selection.Twin (r.select targets) (r'.select targets) := by
  have hpositions : r'.positions = r.positions := by
    funext t
    unfold Relation.positions
    rw [h.schema_eq]
  have hheading : r'.heading = r.heading := by
    funext c
    unfold Relation.heading
    rw [h.schema_eq, h.sources_eq]
  unfold Relation.select
  rw [hpositions, hheading, h.schema_eq]
  cases hall : (if targets.isEmpty then [.all] else targets).mapM r.positions with
  | error e => exact .error e
  | ok positions =>
    have hrows : ∀ row ∈ r.rows, ∀ i ∈ positions.flatten, i < row.length := by
      intro row hrow i hi
      obtain ⟨ps, hps, hi⟩ := List.mem_flatten.1 hi
      obtain ⟨t, -, ht⟩ := (mem_of_mapM_eq_ok hall).1 hps
      rw [h.wide row hrow]
      exact Relation.lt_of_mem_positions ht hi
    have hrows' : ∀ row ∈ r'.rows, ∀ i ∈ positions.flatten, i < row.length := fun row hrow =>
      hrows row (h.rows_perm.mem_iff.1 hrow)
    simp only [bind, Except.bind, Row.mapM_select_eq_ok hrows, Row.mapM_select_eq_ok hrows']
    exact .ok ⟨rfl, h.rows_perm.map _⟩

end RelStore
