import RelStore.Proofs.Query.Results

/-!
# Provenance

Every result of a scope comes from some tables of the scope, its parts (`Relation.Over`): it has
their columns, one table after the other, their names as its sources, and rows as wide as its
schema.  A comparison gives such a result (`Scope.over_query`), and a product with a table that the
result lacks keeps it so (`Scope.Multiplied.over`).

That is all an alignment needs.  The tables that an operand lacks are found, the columns of both
operands are then the same in some order, and no row is too short; so two results can always be
aligned (`Scope.exists_aligned`), and their union and intersection are results of the scope again.
-/

namespace RelStore

/-! ### Rectangular tables -/

/-- A table with rows as wide as its schema that is its own source. -/
structure Table.Rectangular (t : Table) : Prop where
  filled : t.Filled fun s row => row.length = s.width
  sources_eq : t.sources = .single t.name

theorem Table.Rectangular.wide {t : Table} (h : t.Rectangular) : t.Wide :=
  h.filled.forall_records fun _ _ _ hrow => hrow

/-- A scope of rectangular tables. -/
def Scope.Rectangular (s : Scope) : Prop :=
  ∀ t ∈ s.tables, t.Rectangular

/-! ### Parts -/

/-- The relation comes from some tables of the scope, its parts. -/
structure Relation.Over (s : Scope) (parts : List Table) (r : Relation) : Prop where
  subset : ∀ t ∈ parts, t ∈ s.tables
  nodup : (parts.map (·.name)).Nodup
  columns : r.schema.qualifiedColumns = parts.flatMap (·.schema.qualifiedColumns)
  mem_sources : ∀ name, name ∈ r.sources ↔ name ∈ parts.map (·.name)
  wide : ∀ row ∈ r.rows, row.length = r.schema.width

/-- The rows of a table, be it a result or a table of the scope, come from some tables of the
scope. -/
structure Table.Over (s : Scope) (parts : List Table) (t : Table) : Prop where
  result : (t.result t.records).Over s parts
  coherent : t.storage.Coherent t.schema

variable {s : Scope} {parts parts' : List Table} {r r' : Relation} {t : Table}

theorem Schema.qualifiedNames_eq (s : Schema) :
    s.qualifiedNames = s.qualifiedColumns.map (·.name) := by
  rw [qualifiedNames, qualifiedColumns, List.map_map]
  rfl

theorem Schema.length_qualifiedNames (s : Schema) : s.qualifiedNames.length = s.width :=
  List.length_map _

namespace Relation.Over

theorem names (h : r.Over s parts) :
    r.schema.qualifiedNames = parts.flatMap (·.schema.qualifiedNames) := by
  rw [Schema.qualifiedNames_eq, h.columns, List.map_flatMap]
  exact List.flatMap_congr fun t _ => t.schema.qualifiedNames_eq.symm

/-- A result with other rows of the same width. -/
theorem with_rows (h : r.Over s parts) {sources : Sources}
    (hsources : ∀ name, name ∈ sources ↔ name ∈ r.sources) {rows : List Row}
    (hrows : ∀ row ∈ rows, row.length = r.schema.width) :
    Relation.Over s parts { r with sources, rows } where
  subset := h.subset
  nodup := h.nodup
  columns := h.columns
  mem_sources name := (hsources name).trans (h.mem_sources name)
  wide := hrows

theorem ofRelation (h : r.Over s parts) : (Table.ofRelation r).Over s parts where
  result := h
  coherent := trivial

/-- Two results with the same sources have the same parts. -/
theorem parts_perm (h : r.Over s parts) (h' : r'.Over s parts')
    (hsources : ∀ name, name ∈ r.sources ↔ name ∈ r'.sources) : parts.Perm parts' := by
  refine Scope.perm_of_names h.subset h.nodup h'.subset h'.nodup fun name => ?_
  rw [← h.mem_sources, ← h'.mem_sources, hsources]

end Relation.Over

/-! ### Joins -/

/-- The join of results from different tables comes from the tables of both. -/
theorem Table.Over.join {t' : Table} (h : t.Over s parts) (h' : t'.Over s parts')
    (hdisjoint : ∀ name ∈ t.sources, name ∉ t'.sources) (on : Option JoinOn) :
    (t.join t' on).Over s (parts ++ parts') where
  subset u hu := by
    rcases List.mem_append.1 hu with hu | hu
    · exact h.result.subset u hu
    · exact h'.result.subset u hu
  nodup := by
    rw [List.map_append, List.nodup_append]
    refine ⟨h.result.nodup, h'.result.nodup, ?_⟩
    rintro name hname name' hname' rfl
    have hmem : name ∈ t.sources := (h.result.mem_sources name).2 hname
    exact hdisjoint name hmem ((h'.result.mem_sources name).2 hname')
  columns := by
    have hleft : t.schema.qualifiedColumns = _ := h.result.columns
    have hright : t'.schema.qualifiedColumns = _ := h'.result.columns
    have hschema : (t.join t' on).schema = t.schema.join t'.schema := rfl
    rw [hschema, Schema.qualifiedColumns_join, hleft, hright, List.flatMap_append]
  mem_sources name := by
    have hsources : (t.join t' on).sources = t.sources.union t'.sources := rfl
    rw [hsources, Sources.mem_union, List.map_append, List.mem_append]
    exact or_congr (h.result.mem_sources name) (h'.result.mem_sources name)
  wide row hrow := by
    obtain ⟨a, ha, b, hb, rfl⟩ := Table.exists_of_mem_rows_join h.coherent h'.coherent hrow
    have hleft : a.length = t.schema.width := h.result.wide a ha
    have hright : b.length = t'.schema.width := h'.result.wide b hb
    rw [List.length_append, hleft, hright]
    exact (Schema.width_join _ _).symm

theorem Table.Rectangular.mem_sources (h : t.Rectangular) (name : String) :
    name ∈ t.sources ↔ name = t.name := by
  rw [h.sources_eq, Sources.mem_single]

/-- Rows of a table of the scope, as a result. -/
theorem Table.Rectangular.over_result (h : t.Rectangular) (ht : t ∈ s.tables) {rows : List Row}
    (hrows : rows ⊆ t.records) : (t.result rows).Over s [t] where
  subset u hu := by rwa [List.mem_singleton.1 hu]
  nodup := by simp
  columns := (List.append_nil _).symm
  mem_sources name := by
    rw [List.map_singleton, List.mem_singleton]
    exact h.mem_sources name
  wide row hrow := h.wide row (hrows hrow)

theorem Table.Rectangular.over (h : t.Rectangular) (ht : t ∈ s.tables) : t.Over s [t] where
  result := h.over_result ht (List.Subset.refl _)
  coherent := h.filled.coherent

/-! ### Products -/

namespace Scope

/-- The second result is the first, multiplied with tables of the scope that it lacks. -/
inductive Multiplied (s : Scope) : Relation → Relation → Prop
  | refl (r : Relation) : Multiplied s r r
  | product {r r' : Relation} {t : Table} (ht : t ∈ s.tables) (hnew : t.name ∉ r.sources)
      (h : Multiplied s (r.product t) r') : Multiplied s r r'

variable (hs : s.Rectangular)

include hs

theorem over_product (h : r.Over s parts) (ht : t ∈ s.tables) (hnew : t.name ∉ r.sources) :
    (r.product t).Over s (parts ++ [t]) := by
  refine h.ofRelation.join ((hs t ht).over ht) (fun name hname hname' => hnew ?_) none
  rwa [((hs t ht).mem_sources name).1 hname'] at hname

theorem Multiplied.over (h : s.Multiplied r r') (hr : r.Over s parts) :
    ∃ parts', r'.Over s parts' := by
  induction h generalizing parts with
  | refl r => exact ⟨parts, hr⟩
  | product ht hnew h ih => exact ih (over_product hs hr ht hnew)

theorem Multiplied.subset_sources (h : s.Multiplied r r') {name : String}
    (hname : name ∈ r.sources) : name ∈ r'.sources := by
  induction h with
  | refl r => exact hname
  | product ht hnew h ih =>
    exact ih ((Relation.mem_sources_product _ (hs _ ht).sources_eq name).2 (.inl hname))

/-- A product with tables under given names of the scope is found. -/
theorem exists_extend {names : List String} (hnames : ∀ name ∈ names, name ∈ s.names)
    (hnodup : names.Nodup) (hnew : ∀ name ∈ names, name ∉ r.sources) :
    ∃ r', s.extend r names = .ok r' ∧ s.Multiplied r r' ∧
      ∀ name, name ∈ r'.sources ↔ name ∈ r.sources ∨ name ∈ names := by
  induction names generalizing r with
  | nil => exact ⟨r, rfl, .refl r, by simp⟩
  | cons name names ih =>
    rw [List.forall_mem_cons] at hnames hnew
    obtain ⟨t, ht, rfl⟩ := List.mem_map.1 hnames.1
    obtain ⟨hfresh, hrest⟩ := List.nodup_cons.1 hnodup
    obtain ⟨r', hextend, hmultiplied, hsources⟩ := ih (r := r.product t) hnames.2 hrest
      fun name hname => by
        rw [r.mem_sources_product (hs t ht).sources_eq]
        rintro (hmem | rfl)
        · exact hnew.2 name hname hmem
        · exact hfresh hname
    refine ⟨r', ?_, .product ht hnew.1 hmultiplied, fun name => ?_⟩
    · rw [extend, List.foldlM_cons, table_name_eq_ok ht]
      exact hextend
    · rw [hsources, r.mem_sources_product (hs t ht).sources_eq, List.mem_cons, or_assoc]

/-! ### Alignment -/

omit hs in
/-- The columns of `source` in the order of a mapping are those of `onto`. -/
def Reorders (onto source : Schema) (mapping : List Nat) : Prop :=
  mapping.map (source.qualifiedNames[·]?) = onto.qualifiedNames.map some

omit hs in
/-- Two results that come from the same tables. -/
structure Aligned (s : Scope) (l r left right : Relation) (mapping : List Nat) : Prop where
  left_multiplied : s.Multiplied l left
  right_multiplied : s.Multiplied r right
  mem_left : ∀ name, name ∈ left.sources ↔ name ∈ l.sources ∨ name ∈ r.sources
  mem_right : ∀ name, name ∈ right.sources ↔ name ∈ l.sources ∨ name ∈ r.sources
  reorders : Reorders left.schema right.schema mapping

end Scope

/-- A mapping is found if each column is. -/
theorem exists_columnMapping {onto source : Schema}
    (h : ∀ name ∈ onto.qualifiedNames, name ∈ source.qualifiedNames) :
    ∃ mapping, columnMapping onto source = .ok mapping ∧
      Scope.Reorders onto source mapping := by
  have hposition : ∀ name ∈ onto.qualifiedNames, ∃ i, source.position? name = some i ∧
      source.qualifiedNames[i]? = some name := by
    intro name hname
    cases hfind : source.position? name with
    | none =>
      have hnot := List.findIdx?_eq_none_iff.1 hfind name (h name hname)
      simp at hnot
    | some i =>
      obtain ⟨hlt, hi, -⟩ := List.findIdx?_eq_some_iff_getElem.1 hfind
      refine ⟨i, rfl, ?_⟩
      rw [List.getElem?_eq_getElem hlt, beq_iff_eq.1 hi]
  refine ⟨onto.qualifiedNames.map fun name => (source.position? name).getD 0,
    mapM_eq_pure fun name hname => ?_, ?_⟩
  · obtain ⟨i, hi, -⟩ := hposition name hname
    rw [hi]
    rfl
  · rw [Scope.Reorders, List.map_map]
    apply List.map_congr_left
    intro name hname
    obtain ⟨i, hi, hget⟩ := hposition name hname
    rw [Function.comp_apply, hi, Option.getD_some, hget]

namespace Scope

variable {l left right : Relation} {mapping : List Nat}

namespace Reorders

variable {onto source : Schema} {row : Row}

theorem lt_of_mem (h : Reorders onto source mapping) {i : Nat} (hi : i ∈ mapping) :
    i < source.width := by
  have hmem : source.qualifiedNames[i]? ∈ onto.qualifiedNames.map some := by
    rw [← h]
    exact List.mem_map_of_mem hi
  obtain ⟨name, -, hname⟩ := List.mem_map.1 hmem
  rw [← source.length_qualifiedNames]
  exact (List.getElem?_eq_some_iff.1 hname.symm).1

theorem length_eq (h : Reorders onto source mapping) : mapping.length = onto.width := by
  have hlength := congrArg List.length h
  rwa [List.length_map, List.length_map, onto.length_qualifiedNames] at hlength

/-- Rows that are wide enough are brought in the order of the mapping. -/
theorem mapM_project (h : Reorders onto source mapping) {rows : List Row}
    (hrows : ∀ row ∈ rows, row.length = source.width) :
    rows.mapM (Row.project mapping) = .ok (rows.map (Row.valuesAt mapping)) := by
  have hselect : Row.project mapping = fun row => row.select mapping :=
    funext (Row.project_eq_select mapping)
  rw [hselect]
  apply Row.mapM_select_eq_ok
  intro row hrow i hi
  rw [hrows row hrow]
  exact h.lt_of_mem hi

theorem length_valuesAt (h : Reorders onto source mapping) (row : Row) :
    (row.valuesAt mapping).length = onto.width := by
  rw [Row.valuesAt, List.length_map, h.length_eq]

end Reorders

/-- Two results of a scope can be aligned, and the rows of the second brought in the order of the
first. -/
theorem exists_aligned (hs : s.Rectangular) (hl : l.Over s parts) (hr : r.Over s parts') :
    ∃ left right mapping, s.Aligned l r left right mapping ∧
      s.alignRows l r = .ok (left, left.sources.union right.sources,
        right.rows.map (Row.valuesAt mapping)) := by
  have hnames : ∀ {r r' : Relation} {parts : List Table}, r.Over s parts →
      ∀ name ∈ r.sources.diff r'.sources, name ∈ s.names := by
    intro r r' parts h name hname
    obtain ⟨t, ht, rfl⟩ := List.mem_map.1 ((h.mem_sources name).1 (Sources.mem_diff.1 hname).1)
    exact List.mem_map_of_mem (h.subset t ht)
  have hnew : ∀ {a b : Sources}, ∀ name ∈ a.diff b, name ∉ b :=
    fun name hname => (Sources.mem_diff.1 hname).2
  obtain ⟨left, hextend, hleft, hmem⟩ :=
    exists_extend hs (r := l) (hnames hr) (Sources.nodup_diff _ _) hnew
  obtain ⟨right, hextend', hright, hmem'⟩ :=
    exists_extend hs (r := r) (hnames hl) (Sources.nodup_diff _ _) hnew
  have hmemLeft : ∀ name, name ∈ left.sources ↔ name ∈ l.sources ∨ name ∈ r.sources := by
    intro name
    rw [hmem, Sources.mem_diff]
    tauto
  have hmemRight : ∀ name, name ∈ right.sources ↔ name ∈ l.sources ∨ name ∈ r.sources := by
    intro name
    rw [hmem', Sources.mem_diff]
    tauto
  obtain ⟨ps, hover⟩ := hleft.over hs hl
  obtain ⟨ps', hover'⟩ := hright.over hs hr
  have hperm : ps.Perm ps' :=
    hover.parts_perm hover' fun name => (hmemLeft name).trans (hmemRight name).symm
  have hcolumns : ∀ name ∈ left.schema.qualifiedNames, name ∈ right.schema.qualifiedNames := by
    intro name hname
    rw [hover.names] at hname
    rw [hover'.names]
    exact (hperm.flatMap_right _).mem_iff.1 hname
  obtain ⟨mapping, hmapping, hreorders⟩ := exists_columnMapping hcolumns
  refine ⟨left, right, mapping, ⟨hleft, hright, hmemLeft, hmemRight, hreorders⟩, ?_⟩
  have halign : s.align l r = .ok (left, right) := by
    rw [align, hextend, hextend']
    rfl
  rw [alignRows, halign]
  simp only [bind, Except.bind, hmapping, hreorders.mapM_project hover'.wide]
  rfl

/-! ### Unions and intersections -/

section SetOperations

variable (hs : s.Rectangular) (hl : l.Over s parts)

include hs hl

theorem exists_union (hr : r.Over s parts') :
    ∃ left right mapping, s.Aligned l r left right mapping ∧
      s.union l r = .ok { left with
        sources := left.sources.union right.sources
        rows := Row.distinct (left.rows ++ right.rows.map (Row.valuesAt mapping)) } := by
  obtain ⟨left, right, mapping, haligned, halign⟩ := exists_aligned hs hl hr
  refine ⟨left, right, mapping, haligned, ?_⟩
  rw [union, halign]
  rfl

theorem exists_intersect (hr : r.Over s parts') :
    ∃ left right mapping, s.Aligned l r left right mapping ∧
      s.intersect l r = .ok { left with
        sources := left.sources.union right.sources
        rows := Row.distinct (left.rows.filter
          (Std.HashSet.ofList (right.rows.map (Row.valuesAt mapping))).contains) } := by
  obtain ⟨left, right, mapping, haligned, halign⟩ := exists_aligned hs hl hr
  refine ⟨left, right, mapping, haligned, ?_⟩
  rw [intersect, halign]
  rfl

/-- Rows of aligned operands come from the tables of both. -/
theorem Aligned.over (h : s.Aligned l r left right mapping) {rows : List Row}
    (hrows : ∀ row ∈ rows, row ∈ left.rows ∨ row ∈ right.rows.map (Row.valuesAt mapping)) :
    ∃ parts, Relation.Over s parts
      { left with sources := left.sources.union right.sources, rows } := by
  obtain ⟨ps, hover⟩ := h.left_multiplied.over hs hl
  refine ⟨ps, hover.with_rows (fun name => ?_) fun row hrow => ?_⟩
  · rw [Sources.mem_union, h.mem_left, h.mem_right, or_self]
  · rcases hrows row hrow with hrow | hrow
    · exact hover.wide row hrow
    · obtain ⟨row, -, rfl⟩ := List.mem_map.1 hrow
      exact h.reorders.length_valuesAt row

theorem over_union (hr : r.Over s parts') : ∃ u parts, s.union l r = .ok u ∧ u.Over s parts := by
  obtain ⟨left, right, mapping, haligned, hunion⟩ := exists_union hs hl hr
  obtain ⟨ps, hover⟩ := haligned.over hs hl fun row hrow =>
    List.mem_append.1 (Row.mem_distinct.1 hrow)
  exact ⟨_, ps, hunion, hover⟩

theorem over_intersect (hr : r.Over s parts') :
    ∃ u parts, s.intersect l r = .ok u ∧ u.Over s parts := by
  obtain ⟨left, right, mapping, haligned, hintersect⟩ := exists_intersect hs hl hr
  obtain ⟨ps, hover⟩ := haligned.over hs hl fun row hrow =>
    .inl (List.mem_filter.1 (Row.mem_distinct.1 hrow)).1
  exact ⟨_, ps, hintersect, hover⟩

end SetOperations

/-! ### Comparisons -/

/-- A reference is resolved in a table of the scope. -/
theorem mem_of_resolve {ref : ColumnRef} {place : Place} (h : s.resolve ref = .ok place) :
    place.table ∈ s.tables := by
  unfold resolve at h
  dsimp only at h
  split at h
  · obtain ⟨t, htable, h⟩ := bind_eq_ok_iff.1 h
    obtain ⟨i, -, h⟩ := bind_eq_ok_iff.1 h
    cases h
    exact (table_eq_ok htable).1
  · obtain ⟨found, hloop, h⟩ := bind_eq_ok_iff.1 h
    have hfound : ∀ place, found = some place → place.table ∈ s.tables := by
      refine foldlM_induction (motive := fun seen (found : Option Place) =>
        ∀ place, found = some place → place.table ∈ seen) (by simp) ?_ hloop
      intro seen t rest found found' _ hseen hstep place hplace
      unfold searchIn at hstep
      split at hstep
      · split at hstep
        · contradiction
        · cases hstep
          cases hplace
          simp
      · cases hstep
        exact List.mem_append_left _ (hseen place hplace)
      · contradiction
    cases found with
    | none => contradiction
    | some place' =>
      cases h
      exact hfound _ rfl

/-- The result of a comparison comes from the tables that it speaks of. -/
theorem over_query (hs : s.Rectangular) {c : Condition} (h : s.query c = .ok r) :
    ∃ parts, r.Over s parts := by
  have hcolumn : ∀ {ref op v}, s.compareColumn ref op v = .ok r → ∃ parts, r.Over s parts := by
    intro ref op v h
    obtain ⟨place, hplace, rfl⟩ := compareColumn_eq_ok h
    have ht := mem_of_resolve hplace
    exact ⟨_, (hs _ ht).over_result ht fun row hrow =>
      (hs _ ht).filled.coherent.mem_of_mem_query hrow⟩
  cases c with
  | compare left op right =>
    cases left with
    | constant a =>
      cases right with
      | constant b =>
        obtain ⟨t, hfirst, rfl⟩ := compareConstants_eq_ok h
        have ht := firstTable_eq_ok hfirst
        refine ⟨_, (hs t ht).over_result ht ?_⟩
        split
        · exact List.Subset.refl _
        · exact List.nil_subset _
      | column b => exact hcolumn h
    | column a =>
      cases right with
      | constant b => exact hcolumn h
      | column b =>
        obtain ⟨p, q, hp, hq, rfl⟩ := compareColumns_eq_ok h
        have ht := mem_of_resolve hp
        have ht' := mem_of_resolve hq
        by_cases hname : p.table.name = q.table.name
        · rw [if_pos hname]
          exact ⟨_, (hs _ ht).over_result ht (List.filter_subset_self _)⟩
        · rw [if_neg hname]
          refine ⟨_, ((hs _ ht).over ht).join ((hs _ ht').over ht') (fun name hmem hmem' => ?_) _⟩
          rw [(hs _ ht).mem_sources] at hmem
          rw [(hs _ ht').mem_sources] at hmem'
          exact hname (hmem.symm.trans hmem')
  | and => contradiction
  | or => contradiction

end Scope

end RelStore
