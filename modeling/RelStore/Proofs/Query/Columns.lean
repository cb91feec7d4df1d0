import RelStore.Proofs.Query.Tuples

/-!
# Sources and columns

What the tables of a scope are turned into, one step of a query after the other (`Scope.Derived`),
comes from tables of the scope, and from no table twice (`Scope.Derived.over`).  So the sources of a
result say which columns it has, if not in which order (`Relation.Traced`).

Results with the same sources have the same columns, each under a name of its own.  The mapping from
one to the other is then a permutation, and the mapping the other way undoes it
(`Scope.Rearranges`).  Alignments of operands rest on that; `Scope.sources_determine_columns` says
it of all results of a scope.
-/

namespace RelStore

/-- The result comes from tables of the scope and has their columns, each under a name of its
own. -/
structure Relation.Traced (s : Scope) (r : Relation) : Prop where
  sources_subset : ∀ name ∈ r.sources, name ∈ s.names
  nodup : r.schema.qualifiedNames.Nodup
  columns_perm : r.schema.qualifiedColumns.Perm
    ((s.tables.filter (·.name ∈ r.sources)).flatMap (·.schema.qualifiedColumns))
  wide : ∀ row ∈ r.rows, row.length = r.schema.width

namespace Scope

variable {s : Scope} {parts : List Table} {r : Relation} {t : Table}

/-! ### Tables and results -/

/-- What a query works on: the tables of the scope, and what it makes of them. -/
inductive Derived (s : Scope) : Table → Prop
  | table {t : Table} (ht : t ∈ s.tables) : Derived s t
  | query {c : Condition} {r : Relation} (h : s.query c = .ok r) : Derived s (.ofRelation r)
  | join {t t' : Table} (ht : Derived s t) (ht' : Derived s t')
      (hdisjoint : ∀ name ∈ t.sources, name ∉ t'.sources) (on : Option JoinOn) :
      Derived s (.ofRelation (t.join t' on))
  | union {l r u : Relation} (hl : Derived s (.ofRelation l)) (hr : Derived s (.ofRelation r))
      (h : s.union l r = .ok u) : Derived s (.ofRelation u)
  | intersect {l r u : Relation} (hl : Derived s (.ofRelation l)) (hr : Derived s (.ofRelation r))
      (h : s.intersect l r = .ok u) : Derived s (.ofRelation u)
  | complete {r : Relation} (hr : Derived s (.ofRelation r)) :
      Derived s (.ofRelation (s.complete r))

/-- The completion multiplies a result with tables that it lacks. -/
theorem multiplied_complete (s : Scope) (r : Relation) : s.Multiplied r (s.complete r) := by
  have hfold : ∀ (tables : List Table) (r : Relation), (∀ t ∈ tables, t ∈ s.tables) →
      s.Multiplied r
        (tables.foldl (fun r t => if t.name ∈ r.sources then r else r.product t) r) := by
    intro tables
    induction tables with
    | nil => exact fun r _ => .refl r
    | cons t tables ih =>
      intro r htables
      rw [List.forall_mem_cons] at htables
      rw [List.foldl_cons]
      by_cases hmem : t.name ∈ r.sources
      · rw [if_pos hmem]
        exact ih r htables.2
      · rw [if_neg hmem]
        exact .product htables.1 hmem (ih _ htables.2)
  exact hfold s.tables r fun _ ht => ht

/-- Whatever a query makes comes from different tables of the scope. -/
theorem Derived.over (hs : s.Rectangular) (h : s.Derived t) : ∃ parts, t.Over s parts := by
  induction h with
  | table ht => exact ⟨_, (hs _ ht).over ht⟩
  | query h =>
    obtain ⟨parts, hover⟩ := over_query hs h
    exact ⟨parts, hover.ofRelation⟩
  | join ht ht' hdisjoint on iht iht' =>
    obtain ⟨parts, ht⟩ := iht
    obtain ⟨parts', ht'⟩ := iht'
    exact ⟨_, (ht.join ht' hdisjoint on).ofRelation⟩
  | union hl hr h ihl ihr =>
    obtain ⟨parts, hl⟩ := ihl
    obtain ⟨parts', hr⟩ := ihr
    obtain ⟨u, ps, hu, hover⟩ := over_union hs hl.result hr.result
    cases hu.symm.trans h
    exact ⟨ps, hover.ofRelation⟩
  | intersect hl hr h ihl ihr =>
    obtain ⟨parts, hl⟩ := ihl
    obtain ⟨parts', hr⟩ := ihr
    obtain ⟨u, ps, hu, hover⟩ := over_intersect hs hl.result hr.result
    cases hu.symm.trans h
    exact ⟨ps, hover.ofRelation⟩
  | @complete r hr ih =>
    obtain ⟨parts, hover⟩ := ih
    obtain ⟨ps, hover⟩ := (multiplied_complete s r).over hs hover.result
    exact ⟨ps, hover.ofRelation⟩

/-- A step of a condition list leaves results that are derived. -/
theorem derived_of_step {stack stack' : List Relation} {c : Condition}
    (hstack : ∀ r ∈ stack, s.Derived (.ofRelation r)) (h : s.step stack c = .ok stack') :
    ∀ r ∈ stack', s.Derived (.ofRelation r) := by
  cases c with
  | compare left op right =>
    obtain ⟨r, hquery, h⟩ := bind_eq_ok_iff.1 h
    cases h
    exact List.forall_mem_cons.2 ⟨.query hquery, hstack⟩
  | and =>
    match stack with
    | [] => contradiction
    | [_] => contradiction
    | r :: l :: rest =>
      simp only [List.forall_mem_cons] at hstack
      obtain ⟨hr, hl, hrest⟩ := hstack
      obtain ⟨u, hu, h⟩ := bind_eq_ok_iff.1 h
      cases h
      exact List.forall_mem_cons.2 ⟨.intersect hl hr hu, hrest⟩
  | or =>
    match stack with
    | [] => contradiction
    | [_] => contradiction
    | r :: l :: rest =>
      simp only [List.forall_mem_cons] at hstack
      obtain ⟨hr, hl, hrest⟩ := hstack
      obtain ⟨u, hu, h⟩ := bind_eq_ok_iff.1 h
      cases h
      exact List.forall_mem_cons.2 ⟨.union hl hr hu, hrest⟩

/-- The result of a condition list is derived. -/
theorem derived_of_evaluate {conditions : List Condition} (h : s.evaluate conditions = .ok r) :
    s.Derived (.ofRelation r) := by
  obtain ⟨stack, hrun, h⟩ := bind_eq_ok_iff.1 h
  obtain ⟨last, hlast, h⟩ := bind_eq_ok_iff.1 h
  cases h
  have hstack : ∀ r ∈ stack, s.Derived (.ofRelation r) :=
    foldlM_induction (motive := fun _ (stack : List Relation) =>
      ∀ r ∈ stack, s.Derived (.ofRelation r)) (by simp)
      (fun _ _ _ _ _ _ hstack hstep => derived_of_step hstack hstep) hrun
  refine .complete ?_
  match stack with
  | [] =>
    -- Without a condition the result is that of a comparison that always holds.
    let always : Condition := .compare (.constant (.int 1)) .eq (.constant (.int 1))
    have hquery : s.query always = .ok last := hlast
    exact .query hquery
  | [r] =>
    cases hlast
    exact hstack _ List.mem_cons_self
  | _ :: _ :: _ => contradiction

/-! ### Columns -/

/-- A result of different tables has their columns, and those are separate. -/
theorem traced_of_over (hnames : s.Separate) (h : r.Over s parts) : r.Traced s where
  sources_subset name hname := by
    obtain ⟨t, ht, rfl⟩ := List.mem_map.1 ((h.mem_sources name).1 hname)
    exact List.mem_map_of_mem (h.subset t ht)
  nodup := nodup_qualifiedNames hnames h
  columns_perm := by
    rw [h.columns]
    refine List.Perm.flatMap_right _ ?_
    refine perm_of_names h.subset h.nodup (fun t ht => (List.mem_filter.1 ht).1)
      (s.nodup_names.sublist (List.filter_sublist.map _)) fun name => ?_
    rw [← h.mem_sources]
    constructor
    · intro hname
      obtain ⟨t, ht, rfl⟩ := List.mem_map.1 ((h.mem_sources name).1 hname)
      exact List.mem_map_of_mem (List.mem_filter.2 ⟨h.subset t ht, decide_eq_true hname⟩)
    · intro hname
      obtain ⟨t, ht, rfl⟩ := List.mem_map.1 hname
      exact of_decide_eq_true (List.mem_filter.1 ht).2
  wide := h.wide

/-! ### Mappings -/

/-- The mapping brings all columns of `source` in the order of `onto`, each to the column of its
name, and the mapping back brings the rows in their former order. -/
structure Rearranges (onto source : Schema) (mapping back : List Nat) : Prop where
  eq_ok : columnMapping onto source = .ok mapping
  perm : mapping.Perm (List.range source.width)
  reorders : Reorders onto source mapping
  undone : ∀ row : Row, row.length = source.width → ∃ row', Row.project mapping row = .ok row' ∧
    row'.length = onto.width ∧ Row.project back row' = .ok row

section Rearranges

variable {onto source : Schema} {mapping back : List Nat}

/-- Columns under different names are taken from different positions, and none is left. -/
theorem Reorders.perm_range (h : Reorders onto source mapping) (hnodup : onto.qualifiedNames.Nodup)
    (hwidth : onto.width = source.width) : mapping.Perm (List.range source.width) := by
  have hmapping : mapping.Nodup := by
    refine List.Nodup.of_map (source.qualifiedNames[·]?) ?_
    rw [h]
    exact hnodup.map (Option.some_injective _)
  refine (hmapping.subperm fun i hi => ?_).perm_of_length_le ?_
  · exact List.mem_range.2 (h.lt_of_mem hi)
  · rw [List.length_range, h.length_eq, hwidth]

theorem Reorders.exists_position (h : Reorders onto source mapping) {k : Nat} {name : String}
    (hname : onto.qualifiedNames[k]? = some name) :
    ∃ i, mapping[k]? = some i ∧ source.qualifiedNames[i]? = some name := by
  have hk := congrArg (·[k]?) h
  simp only [List.getElem?_map, hname, Option.map_some, Option.map_eq_some_iff] at hk
  exact hk

/-- Where the names of the source differ, the mapping back leads to the positions that the columns
were taken from. -/
theorem Reorders.map_back (h : Reorders onto source mapping) (hback : Reorders source onto back)
    (hnodup : source.qualifiedNames.Nodup) :
    back.map (mapping[·]?) = (List.range source.width).map some := by
  apply List.ext_getElem?
  intro i
  rw [List.getElem?_map, List.getElem?_map]
  by_cases hi : i < source.width
  · have hlt : i < source.qualifiedNames.length := by rwa [source.length_qualifiedNames]
    obtain ⟨k, hk, hname⟩ := hback.exists_position (List.getElem?_eq_getElem hlt)
    obtain ⟨j, hj, hname'⟩ := h.exists_position hname
    obtain ⟨hjlt, heq⟩ := List.getElem?_eq_some_iff.1 hname'
    rw [hk, List.getElem?_range hi, Option.map_some, hj, hnodup.getElem_inj_iff.1 heq]
    rfl
  · have hlength : back.length ≤ i := by
      rw [hback.length_eq]
      exact Nat.not_lt.1 hi
    rw [List.getElem?_eq_none hlength, List.getElem?_eq_none (by simpa using hi)]
    rfl

/-- A row that is brought in another order and back is the same row. -/
theorem Reorders.valuesAt_valuesAt (h : Reorders onto source mapping)
    (hback : Reorders source onto back) (hnodup : source.qualifiedNames.Nodup) {row : Row}
    (hrow : row.length = source.width) : (row.valuesAt mapping).valuesAt back = row := by
  let value (i : Nat) : Value := row[i]?.getD .null
  have hvalues : (List.range row.length).map value = row := by
    calc (List.range row.length).map value
        = ((List.range row.length).map (row[·]?)).map (·.getD .null) := by rw [List.map_map]; rfl
      _ = row := by
        rw [map_getElem?_range, List.map_map]
        exact List.map_id row
  calc (row.valuesAt mapping).valuesAt back
      = (back.map (mapping[·]?)).map fun o => (o.map value).getD .null := by
        rw [List.map_map]
        refine List.map_congr_left fun k _ => ?_
        rw [Row.valuesAt, List.getElem?_map]
        rfl
    _ = (List.range row.length).map value := by
        rw [h.map_back hback hnodup, hrow, List.map_map]
        rfl
    _ = row := hvalues

/-- Mappings between schemas with the same columns undo each other. -/
theorem Reorders.rearranges (hmapping : columnMapping onto source = .ok mapping)
    (h : Reorders onto source mapping) (hback : Reorders source onto back)
    (hnodup : onto.qualifiedNames.Nodup) (hnodup' : source.qualifiedNames.Nodup)
    (hwidth : onto.width = source.width) : Rearranges onto source mapping back where
  eq_ok := hmapping
  perm := h.perm_range hnodup hwidth
  reorders := h
  undone row hrow := by
    refine ⟨row.valuesAt mapping, ?_, h.length_valuesAt row, ?_⟩
    · rw [Row.project_eq_select]
      refine Row.select_eq_valuesAt fun i hi => ?_
      rw [hrow]
      exact h.lt_of_mem hi
    · rw [Row.project_eq_select, Row.select_eq_valuesAt, h.valuesAt_valuesAt hback hnodup' hrow]
      intro i hi
      rw [h.length_valuesAt]
      exact hback.lt_of_mem hi

/-- Schemas with the same columns under different names are mapped to each other. -/
theorem exists_rearranges (hperm : onto.qualifiedNames.Perm source.qualifiedNames)
    (hnodup : onto.qualifiedNames.Nodup) :
    ∃ mapping back, Rearranges onto source mapping back ∧ Rearranges source onto back mapping := by
  have hnodup' : source.qualifiedNames.Nodup := hperm.nodup_iff.1 hnodup
  have hwidth : onto.width = source.width := by
    rw [← onto.length_qualifiedNames, ← source.length_qualifiedNames, hperm.length_eq]
  obtain ⟨mapping, hmapping, hreorders⟩ := exists_columnMapping fun _ => hperm.mem_iff.1
  obtain ⟨back, hback, hreorders'⟩ := exists_columnMapping fun _ => hperm.mem_iff.2
  exact ⟨mapping, back, hreorders.rearranges hmapping hreorders' hnodup hnodup' hwidth,
    hreorders'.rearranges hback hreorders hnodup' hnodup hwidth.symm⟩

end Rearranges

/-! ### Results with the same sources -/

/-- The sources of a result determine its columns.  All results of a scope come from tables of the
scope and have their columns, each once, and rows of that width; two results with the same sources
are mapped to each other by permutations of the columns, and these undo each other. -/
theorem sources_determine_columns (hs : s.Rectangular) (hnames : s.Separate) :
    (∀ r, s.Derived (.ofRelation r) → r.Traced s) ∧
    ∀ l r, s.Derived (.ofRelation l) → s.Derived (.ofRelation r) → l.sources = r.sources →
      ∃ mapping back, Rearranges l.schema r.schema mapping back ∧
        Rearranges r.schema l.schema back mapping := by
  have htraced : ∀ r, s.Derived (.ofRelation r) → r.Traced s := by
    intro r hr
    obtain ⟨parts, hover⟩ := hr.over hs
    exact traced_of_over hnames hover.result
  refine ⟨htraced, fun l r hl hr hsources => exists_rearranges ?_ (htraced l hl).nodup⟩
  have hleft := (htraced l hl).columns_perm
  rw [hsources] at hleft
  rw [Schema.qualifiedNames_eq, Schema.qualifiedNames_eq]
  exact (hleft.trans (htraced r hr).columns_perm.symm).map _

/-- The rows of two tables, in either order: the mapping swaps the halves of a row. -/
theorem sources_determine_columns_swapped :
    let a : Table := { Header.base "a" ⟨"a", [⟨"x", .int⟩, ⟨"y", .int⟩], none⟩ with
      storage := .list #[] }
    let a := (a.insertAll [[.int 1, .int 10], [.int 2, .int 20]]).2
    let s : Scope := ⟨[a, a.aliased "b"], by decide⟩
    let one : Condition := .compare (.column ⟨some "a", "x"⟩) .eq (.constant (.int 1))
    s.Rectangular ∧ s.Separate ∧ ∃ l r, s.evaluate [one] = .ok l ∧
      r = (a.aliased "b").join a none ∧ l.sources = r.sources ∧ l.Traced s ∧
      Rearranges l.schema r.schema [2, 3, 0, 1] [2, 3, 0, 1] := by
  intro empty a s one
  have ha : a.Filled fun s row => row.length = s.width := by
    refine .insertAll (.empty (?_ : Table.empty .list "a" empty.schema none [] .standard =
      .ok empty)) _ ?_
    · rfl
    · decide
  have hs : s.Rectangular :=
    List.forall_mem_cons.2 ⟨⟨ha, rfl⟩, List.forall_mem_singleton.2 ⟨ha.aliased "b", rfl⟩⟩
  have hnames : s.Separate := by
    refine separate_of_named (List.forall_mem_cons.2 ⟨⟨rfl, ?_, ?_⟩,
      List.forall_mem_singleton.2 ⟨rfl, ?_, ?_⟩⟩) <;> decide
  obtain ⟨l, hl⟩ : ∃ l, s.evaluate [one] = .ok l := ⟨_, rfl⟩
  let r := (a.aliased "b").join a none
  have hr : s.Derived (.ofRelation r) := by
    refine .join (.table (List.mem_cons_of_mem _ List.mem_cons_self)) (.table List.mem_cons_self)
      ?_ none
    decide
  have hderived := derived_of_evaluate hl
  have hsources : l.sources = r.sources := by
    cases hl
    decide
  obtain ⟨htraced, hmappings⟩ := sources_determine_columns hs hnames
  obtain ⟨mapping, back, hmapping, hback⟩ := hmappings l r hderived hr hsources
  have heq : columnMapping l.schema r.schema = .ok [2, 3, 0, 1] := by
    cases hl
    decide +kernel
  have heq' : columnMapping r.schema l.schema = .ok [2, 3, 0, 1] := by
    cases hl
    decide +kernel
  cases hmapping.eq_ok.symm.trans heq
  cases hback.eq_ok.symm.trans heq'
  exact ⟨hs, hnames, l, r, hl, rfl, hsources, htraced l hderived, hmapping⟩

/-- A table with two columns of one name, and two tables over schemas of one name: the names of the
columns repeat, and the mapping of a result to itself loses a value. -/
theorem exists_repeated_columns :
    let table (name : String) (s : Schema) (row : Row) : Table :=
      { Header.base name s with storage := .list #[row] }
    let x : Column := ⟨"x", .int⟩
    let repeated : Scope := ⟨[table "a" ⟨"a", [x, x], none⟩ [.int 1, .int 2]], by decide⟩
    let shared : Scope :=
      ⟨[table "a" ⟨"t", [x], none⟩ [.int 1], table "b" ⟨"t", [x], none⟩ [.int 2]], by decide⟩
    ∀ s ∈ [repeated, shared],
      s.Rectangular ∧ (∀ t ∈ s.tables, ∀ c ∈ t.schema.columns, '.' ∉ c.name.toList) ∧
      ∃ r, s.Derived (.ofRelation r) ∧ r.rows = [[.int 1, .int 2]] ∧
        ¬ r.schema.qualifiedNames.Nodup ∧ columnMapping r.schema r.schema = .ok [0, 0] ∧
        Row.project [0, 0] [.int 1, .int 2] = .ok [.int 1, .int 1] := by
  intro table x repeated shared
  have htable : ∀ {name s row}, row.length = s.width → (table name s row).Rectangular := by
    intro name s row hrow
    have hempty : Table.empty .list name s none [] .standard =
        .ok { Header.base name s with storage := .list #[] } := rfl
    exact ⟨(Table.Filled.empty hempty).insert row hrow, rfl⟩
  let always : Condition := .compare (.constant (.int 1)) .eq (.constant (.int 1))
  refine List.forall_mem_cons.2 ⟨⟨?_, ?_, ?_⟩, List.forall_mem_singleton.2 ⟨?_, ?_, ?_⟩⟩
  · exact List.forall_mem_singleton.2 (htable rfl)
  · decide
  · obtain ⟨r, hr⟩ : ∃ r, repeated.query always = .ok r := ⟨_, rfl⟩
    refine ⟨r, .query hr, ?_⟩
    cases hr
    refine ⟨rfl, ?_, ?_, ?_⟩ <;> decide +kernel
  · exact List.forall_mem_cons.2 ⟨htable rfl, List.forall_mem_singleton.2 (htable rfl)⟩
  · decide
  · refine ⟨_, .join (.table List.mem_cons_self)
      (.table (List.mem_cons_of_mem _ List.mem_cons_self)) ?_ none, rfl, ?_, ?_, ?_⟩ <;>
      decide +kernel

end Scope

end RelStore
