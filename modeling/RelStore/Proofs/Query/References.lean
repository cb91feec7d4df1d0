import RelStore.Proofs.Query.Evaluate

/-!
# References before and after evaluation

A reference may be resolved in the scope, as a condition does, or in the result of an evaluation, as
a target does.  Both look for the only label that the reference is a name of
(`Scope.resolve_eq_ok_iff`, `Schema.Shows.resolve_eq_ok_iff`), but they split a name at different
points: the scope at the first, a schema at the last.  A scope therefore does not find a column by
its full name if the name of the table holds a point.

`Relation.Denotes.resolve_iff` says when the two agree: a reference means a place in the scope if
and only if it means the column of that place in the result and the scope's split leaves no point in
the name of the column (`Scope.SplitsPlain`).  The columns of the result are those of the places
(`Relation.Denotes.laidOut`).
-/

namespace RelStore

namespace Label

/-- A reference with the name of a table is a full name. -/
theorem isNamed_some_iff {l : Label} {table name : String} :
    l.isNamed ⟨some table, name⟩ ↔ l.text = Schema.dotted table name := by
  rw [isNamed, toString_reference, if_pos (point_mem_dotted table name), beq_iff_eq]

theorem point_mem_text (l : Label) : '.' ∈ (toString (⟨none, l.text⟩ : ColumnRef)).toList := by
  show '.' ∈ l.text.toList
  exact point_mem_dotted l.table l.column

/-- A label is meant by its full name. -/
theorem isNamed_text (l : Label) : l.isNamed ⟨none, l.text⟩ := by
  rw [isNamed, if_pos l.point_mem_text]
  exact beq_self_eq_true l.text

end Label

/-! ### Places -/

namespace Scope

/-- The label of the column. -/
def Place.label? (p : Place) : Option Label :=
  p.table.labels[p.column]?

/-- The places of the columns of tables, one table after the other. -/
def placesOf (tables : List Table) : List Place :=
  tables.flatMap fun t => (List.range t.schema.width).map (⟨t, ·⟩)

variable {tables : List Table} {place : Place}

theorem mem_placesOf :
    place ∈ placesOf tables ↔ place.table ∈ tables ∧ place.column < place.table.schema.width := by
  simp only [placesOf, List.mem_flatMap, List.mem_map, List.mem_range]
  constructor
  · rintro ⟨t, ht, i, hi, rfl⟩
    exact ⟨ht, hi⟩
  · rintro ⟨ht, hi⟩
    exact ⟨place.table, ht, place.column, hi, rfl⟩

/-- What the tables have for each of their columns, looked up place by place. -/
theorem map_placesOf {α : Type} {g : Table → List α}
    (hg : ∀ t ∈ tables, (g t).length = t.schema.width) :
    (placesOf tables).map (fun p => (g p.table)[p.column]?) = (tables.flatMap g).map some := by
  rw [placesOf, List.map_flatMap, List.map_flatMap]
  apply List.flatMap_congr
  intro t ht
  rw [List.map_map, ← hg t ht]
  exact map_getElem?_range (g t)

theorem map_label?_placesOf (tables : List Table) :
    (placesOf tables).map Place.label? = (labelsOf tables).map some :=
  map_placesOf fun t _ => t.length_labels

theorem getElem?_labelsOf {j : Nat} {l : Label} :
    (labelsOf tables)[j]? = some l ↔
      ∃ place, (placesOf tables)[j]? = some place ∧ place.label? = some l := by
  have hlabels : (placesOf tables)[j]?.map Place.label? = (labelsOf tables)[j]?.map some := by
    rw [← List.getElem?_map, ← List.getElem?_map, map_label?_placesOf]
  constructor
  · intro hl
    rw [hl] at hlabels
    exact Option.map_eq_some_iff.1 hlabels
  · rintro ⟨place, hplace, hl⟩
    rw [hplace, Option.map_some, hl] at hlabels
    obtain ⟨l', hl', heq⟩ := Option.map_eq_some_iff.1 hlabels.symm
    rwa [Option.some.inj heq] at hl'

theorem nodup_placesOf (h : (labelsOf tables).Nodup) : (placesOf tables).Nodup := by
  refine List.Nodup.of_map Place.label? ?_
  rw [map_label?_placesOf]
  exact h.map (Option.some_injective _)

/-! ### Points in references -/

/-- Once the scope has split the reference, the name of its column holds no point. -/
def SplitsPlain (r : ColumnRef) : Prop :=
  '.' ∉ (splitReference r).name.toList

instance (r : ColumnRef) : Decidable (SplitsPlain r) :=
  inferInstanceAs (Decidable ('.' ∉ _))

variable {s : Scope} {r : ColumnRef}

/-- A name that is not split holds no point. -/
theorem splitsPlain_of_table_eq_none (h : (splitReference r).table = none) : SplitsPlain r := by
  obtain ⟨table, name⟩ := r
  cases table with
  | some table => contradiction
  | none =>
    cases hcut : Text.cutFirst? '.' name with
    | some p =>
      simp only [splitReference, hcut] at h
      contradiction
    | none =>
      simp only [SplitsPlain, splitReference, hcut]
      exact Text.not_mem_of_cutFirst? hcut

/-- A full name with one point only leaves no point in the name of the column. -/
theorem splitsPlain_of_isNamed {l : Label} (htable : '.' ∉ l.table.toList)
    (hcolumn : '.' ∉ l.column.toList) (h : l.isNamed r) : SplitsPlain r := by
  cases hsplit : splitReference r with
  | mk table name =>
    cases table with
    | none => exact splitsPlain_of_table_eq_none (by rw [hsplit])
    | some table =>
      rw [isNamed_congr (toString_splitReference r).symm, hsplit, Label.isNamed_some_iff,
        Label.text] at h
      have hcount := congrArg (fun text : String => text.toList.count '.') h
      simp only [toList_dotted, List.count_append, List.count_cons_self,
        List.count_eq_zero_of_not_mem htable, List.count_eq_zero_of_not_mem hcolumn] at hcount
      rw [SplitsPlain, hsplit, ← List.count_eq_zero]
      show name.toList.count '.' = 0
      omega

/-- The full name of a column is split where it was put together, unless the name of its table holds
a point. -/
theorem splitsPlain_dotted_iff {table name : String} (h : '.' ∉ name.toList) :
    SplitsPlain ⟨none, Schema.dotted table name⟩ ↔ '.' ∉ table.toList := by
  by_cases hpoint : '.' ∈ table.toList
  · obtain ⟨a, b, htable, ha⟩ := Text.exists_append_of_mem hpoint
    have hcut : Text.cutFirst? '.' (Schema.dotted table name) =
        some (String.ofList a, String.ofList (b ++ '.' :: name.toList)) := by
      rw [Text.cutFirst?_eq_some_iff, toList_dotted, htable]
      simpa using ha
    simp only [SplitsPlain, splitReference, hcut]
    simp [hpoint]
  · have hcut : Text.cutFirst? '.' (Schema.dotted table name) = some (table, name) :=
      Text.cutFirst?_eq_some_iff.2 ⟨toList_dotted table name, hpoint⟩
    simp only [SplitsPlain, splitReference, hcut]
    simp [h, hpoint]

/-! ### The search for a name -/

section Search

variable {name : String}

/-- The search passes over a table in which nothing is meant. -/
theorem searchIn_of_nil {t : Table} (htable : t.Named)
    (h : t.labels.filter (·.isNamed ⟨none, name⟩) = []) (found : Option Place) :
    searchIn name found t = .ok found := by
  obtain ⟨missing, hmissing⟩ := htable.shows.resolve_notFound_iff.2 h
  simp only [searchIn, hmissing]

theorem foldlM_searchIn_of_nil (htables : ∀ t ∈ tables, t.Named)
    (h : (labelsOf tables).filter (·.isNamed ⟨none, name⟩) = []) (found : Option Place) :
    tables.foldlM (searchIn name) found = .ok found := by
  induction tables with
  | nil => rfl
  | cons t tables ih =>
    rw [List.forall_mem_cons] at htables
    rw [labelsOf, List.flatMap_cons, List.filter_append, List.append_eq_nil_iff] at h
    rw [List.foldlM_cons, searchIn_of_nil htables.1 h.1]
    exact ih htables.2 h.2

/-- The search finds what is meant by a name. -/
theorem foldlM_searchIn_of_means (htables : ∀ t ∈ tables, t.Named)
    (hplace : place.table ∈ tables) {l : Label} (hl : place.label? = some l)
    (hmeans : Means tables ⟨none, name⟩ l) :
    tables.foldlM (searchIn name) none = .ok (some place) := by
  have hmem : l ∈ place.table.labels := List.mem_of_getElem? hl
  have hlabel : l.isNamed ⟨none, name⟩ :=
    (hmeans.isNamed_iff (List.mem_flatMap.2 ⟨_, hplace, hmem⟩)).2 rfl
  induction tables with
  | nil => exact absurd hplace List.not_mem_nil
  | cons t tables ih =>
    rw [List.forall_mem_cons] at htables
    rw [Means, labelsOf, List.flatMap_cons, List.filter_append, List.append_eq_singleton_iff]
      at hmeans
    rcases hmeans with ⟨hnil, hmeans⟩ | ⟨hown, hnil⟩
    · have hne : place.table ≠ t := by
        rintro rfl
        exact List.filter_eq_nil_iff.1 hnil l hmem hlabel
      rw [List.foldlM_cons, searchIn_of_nil htables.1 hnil]
      exact ih htables.2 ((List.mem_cons.1 hplace).resolve_left hne) hmeans
    · have hnot : place.table ∉ tables := by
        intro hplace
        exact List.filter_eq_nil_iff.1 hnil l (List.mem_flatMap.2 ⟨_, hplace, hmem⟩) hlabel
      obtain rfl := (List.mem_cons.1 hplace).resolve_right hnot
      have hshows := htables.1.shows.resolve_eq_ok_iff (r := ⟨none, name⟩) (i := place.column)
      have hfirst : searchIn name none place.table = .ok (some place) := by
        simp only [searchIn, hshows.2 ⟨l, hl, hown⟩]
        rfl
      rw [List.foldlM_cons, hfirst]
      exact foldlM_searchIn_of_nil htables.2 hnil (some place)

end Search

/-! ### References in the scope -/

theorem means_congr {r r' : ColumnRef} (h : toString r = toString r') (l : Label) :
    Means tables r l ↔ Means tables r' l := by
  rw [Means, Means, filter_isNamed_congr h]

/-- What is meant in the scope is meant in the only table that has it. -/
theorem labels_filter_of_means {t : Table} (htable : t.Named) (ht : t ∈ tables) {l : Label}
    (hl : l ∈ t.labels) (h : Means tables r l) : t.labels.filter (·.isNamed r) = [l] :=
  filter_eq_singleton_of_nodup htable.nodup_labels hl fun _ hl' =>
    h.isNamed_iff (List.mem_flatMap.2 ⟨t, ht, hl'⟩)

/-- With the name of its table, a column is found by a name that holds no point only. -/
theorem plain_of_resolve {t : Table} (h : t.Named) {name : String} {i : Nat}
    (hresolve : t.schema.resolve (some t.name) name = .ok i) : '.' ∉ name.toList := by
  have hshows := h.shows.resolve_eq_ok_iff (r := ⟨some t.name, name⟩) (i := i)
  obtain ⟨l, hl, hfilter⟩ := hshows.1 hresolve
  have hnamed : l ∈ t.labels.filter (·.isNamed ⟨some t.name, name⟩) := by
    rw [hfilter]
    exact List.mem_singleton_self l
  obtain ⟨hmem, hnamed⟩ := List.mem_filter.1 hnamed
  rw [Label.isNamed_some_iff, Label.text, table_of_mem_labels hmem, dotted_right_inj] at hnamed
  rw [← hnamed]
  exact h.plain_of_mem hmem

theorem splitsPlain_of_resolve (hs : ∀ t ∈ s.tables, t.Named) (h : s.resolve r = .ok place) :
    SplitsPlain r := by
  cases htable : (splitReference r).table with
  | none => exact splitsPlain_of_table_eq_none htable
  | some name =>
    simp only [resolve, htable] at h
    obtain ⟨t, ht, h⟩ := bind_eq_ok_iff.1 h
    obtain ⟨i, hresolve, -⟩ := bind_eq_ok_iff.1 h
    obtain ⟨hmem, rfl⟩ := table_eq_ok ht
    exact plain_of_resolve (hs t hmem) hresolve

/-- The scope resolves the references that are the name of exactly one label, as long as no point is
left in the name of the column. -/
theorem resolve_eq_ok_iff (hs : ∀ t ∈ s.tables, t.Named) :
    s.resolve r = .ok place ↔
      SplitsPlain r ∧ place.table ∈ s.tables ∧ ∃ l, place.label? = some l ∧ Means s.tables r l := by
  constructor
  · intro h
    exact ⟨splitsPlain_of_resolve hs h, resolve_ok hs h⟩
  · rintro ⟨hsplit, htable, l, hl, hmeans⟩
    have hmem : l ∈ place.table.labels := List.mem_of_getElem? hl
    rw [means_congr (toString_splitReference r).symm] at hmeans
    rw [SplitsPlain] at hsplit
    simp only [resolve]
    generalize splitReference r = r' at hmeans hsplit ⊢
    obtain ⟨table, name⟩ := r'
    cases table with
    | none => exact bind_eq_ok_iff.2 ⟨_, foldlM_searchIn_of_means hs htable hl hmeans, rfl⟩
    | some table =>
      have hnamed := hs _ htable
      have hlabel : l.isNamed ⟨some table, name⟩ :=
        (hmeans.isNamed_iff (List.mem_flatMap.2 ⟨_, htable, hmem⟩)).2 rfl
      obtain rfl : l = ⟨table, name⟩ :=
        Label.eq_of_text_eq (hnamed.plain_of_mem hmem) hsplit (Label.isNamed_some_iff.1 hlabel)
      obtain rfl : table = place.table.name := table_of_mem_labels hmem
      have hown := labels_filter_of_means hnamed htable hmem hmeans
      have hresolve := hnamed.shows.resolve_eq_ok_iff.2 ⟨_, hl, hown⟩
      refine bind_eq_ok_iff.2 ⟨place.table, table_name_eq_ok htable, ?_⟩
      exact bind_eq_ok_iff.2 ⟨place.column, hresolve, rfl⟩

end Scope

/-! ### References in a result -/

/-- The row of an environment is put together from one stored row of each table. -/
theorem exists_pick {tables : List Table} (hnames : (tables.map (·.name)).Nodup) {env : Env}
    (hwide : ∀ t ∈ tables, t.Wide) (henv : env ∈ environments tables) :
    ∃ pick : String → Row, (∀ t ∈ tables, pick t.name ∈ t.records) ∧
      env.row = tables.flatMap fun t => pick t.name := by
  induction tables generalizing env with
  | nil =>
    obtain rfl := List.mem_singleton.1 henv
    exact ⟨fun _ => [], fun _ ht => absurd ht List.not_mem_nil, rfl⟩
  | cons t tables ih =>
    obtain ⟨hnew, hnames⟩ := List.nodup_cons.1 hnames
    rw [List.forall_mem_cons] at hwide
    simp only [environments, List.mem_flatMap, List.mem_map] at henv
    obtain ⟨row, hrow, rest, hrest, rfl⟩ := henv
    obtain ⟨pick, hpick, hrestrow⟩ := ih hnames hwide.2 hrest
    have hother : ∀ t' ∈ tables, Function.update pick t.name row t'.name = pick t'.name := by
      intro t' ht'
      refine Function.update_of_ne ?_ _ _
      intro hname
      exact hnew (List.mem_map.2 ⟨t', ht', hname⟩)
    refine ⟨Function.update pick t.name row, List.forall_mem_cons.2 ⟨?_, fun t' ht' => ?_⟩, ?_⟩
    · rwa [Function.update_self]
    · rw [hother t' ht']
      exact hpick t' ht'
    · have hcells := hwide.1.row_cells hrow
      rw [List.flatMap_cons, Function.update_self, List.flatMap_congr hother, ← hrestrow]
      rw [Env.row] at hcells ⊢
      rw [List.map_append, hcells]
      rfl

namespace Relation

/-- The columns of the relation are those at the places, in their order, and the places are all
there are in the scope.  Each row is put together from one stored row of every table. -/
structure LaidOut (s : Scope) (places : List Scope.Place) (r : Relation) : Prop where
  nodup : places.Nodup
  mem_places : ∀ place,
    place ∈ places ↔ place.table ∈ s.tables ∧ place.column < place.table.schema.width
  columns : r.schema.qualifiedColumns.map some =
    places.map fun p => p.table.schema.qualifiedColumns[p.column]?
  rows : ∀ row ∈ r.rows, ∃ pick : String → Row, (∀ t ∈ s.tables, pick t.name ∈ t.records) ∧
    row.map some = places.map fun p => (pick p.table.name)[p.column]?

namespace Denotes

variable {s : Scope} {f : Formula} {parts : List Table} {r : Relation}

theorem laidOut (h : r.Denotes s f parts) (hperm : parts.Perm s.tables) :
    r.LaidOut s (Scope.placesOf parts) where
  nodup := Scope.nodup_placesOf h.partsOf.nodup_labels
  mem_places place := by rw [Scope.mem_placesOf, hperm.mem_iff]
  columns := by
    rw [h.columns]
    exact (Scope.map_placesOf (g := (·.schema.qualifiedColumns)) fun t _ => List.length_map _).symm
  rows row hrow := by
    obtain ⟨env, henv, -, rfl⟩ := mem_answers.1 ((h.mem_rows row).1 hrow)
    obtain ⟨pick, hpick, hrow⟩ := exists_pick h.partsOf.nodup h.partsOf.wide henv
    refine ⟨pick, fun t ht => hpick t (hperm.mem_iff.2 ht), ?_⟩
    rw [hrow]
    refine (Scope.map_placesOf (g := fun t => pick t.name) ?_).symm
    intro t ht
    exact h.partsOf.wide t ht _ (hpick t ht)

/-- The scope and the result resolve the same references, to the same columns, as long as no point
is left in the name of the column when the scope has split the reference. -/
theorem resolve_iff (h : r.Denotes s f parts) (hperm : parts.Perm s.tables)
    (hs : ∀ t ∈ s.tables, t.Named) {ref : ColumnRef} {place : Scope.Place} :
    s.resolve ref = .ok place ↔ Scope.SplitsPlain ref ∧
      ∃ j, r.schema.resolve ref.table ref.name = .ok j ∧
        (Scope.placesOf parts)[j]? = some place := by
  rw [Scope.resolve_eq_ok_iff hs]
  apply and_congr_right
  intro _
  constructor
  · rintro ⟨htable, l, hl, hmeans⟩
    have hlt : place.column < place.table.schema.width := by
      rw [← Table.length_labels]
      exact (List.getElem?_eq_some_iff.1 hl).1
    have hmem : place ∈ Scope.placesOf parts :=
      Scope.mem_placesOf.2 ⟨hperm.mem_iff.2 htable, hlt⟩
    obtain ⟨j, hj⟩ := List.mem_iff_getElem?.1 hmem
    have hlabel := Scope.getElem?_labelsOf.2 ⟨place, hj, hl⟩
    exact ⟨j, h.shows.resolve_eq_ok_iff.2 ⟨l, hlabel, (means_perm hperm).2 hmeans⟩, hj⟩
  · rintro ⟨j, hresolve, hj⟩
    obtain ⟨l, hlabel, hmeans⟩ := h.shows.resolve_eq_ok_iff.1 hresolve
    obtain ⟨place', hj', hl⟩ := Scope.getElem?_labelsOf.1 hlabel
    obtain rfl : place' = place := Option.some.inj (hj'.symm.trans hj)
    have hmem := Scope.mem_placesOf.1 (List.mem_of_getElem? hj)
    exact ⟨hperm.mem_iff.1 hmem.1, l, hl, (means_perm hperm).1 hmeans⟩

/-- What a column of the result is labelled with is the label of its place. -/
theorem exists_place (h : r.Denotes s f parts) {j : Nat} {l : Label}
    (hl : (labelsOf parts)[j]? = some l) :
    ∃ place, (Scope.placesOf parts)[j]? = some place ∧ l.table = place.table.name ∧
      '.' ∉ l.column.toList := by
  obtain ⟨place, hj, hlabel⟩ := Scope.getElem?_labelsOf.1 hl
  exact ⟨place, hj, table_of_mem_labels (List.mem_of_getElem? hlabel),
    h.plain (List.mem_of_getElem? hl)⟩

/-- The scope resolves what the result resolves to a column of a table without a point in its
name. -/
theorem resolve_of_plain (h : r.Denotes s f parts) (hperm : parts.Perm s.tables)
    (hs : ∀ t ∈ s.tables, t.Named) {ref : ColumnRef} {j : Nat}
    (hresolve : r.schema.resolve ref.table ref.name = .ok j) :
    ∃ place, (Scope.placesOf parts)[j]? = some place ∧
      ('.' ∉ place.table.name.toList → s.resolve ref = .ok place) := by
  obtain ⟨l, hl, hmeans⟩ := h.shows.resolve_eq_ok_iff.1 hresolve
  obtain ⟨place, hj, htable, hcolumn⟩ := h.exists_place hl
  refine ⟨place, hj, fun hplain => (h.resolve_iff hperm hs).2 ⟨?_, j, hresolve, hj⟩⟩
  rw [← htable] at hplain
  refine Scope.splitsPlain_of_isNamed hplain hcolumn ?_
  exact (Means.isNamed_iff hmeans (List.mem_of_getElem? hl)).2 rfl

/-- The result resolves the qualified name of a column to that column.  The scope resolves it to the
place of the column, unless the name of the table holds a point. -/
theorem resolve_qualified (h : r.Denotes s f parts) (hperm : parts.Perm s.tables)
    (hs : ∀ t ∈ s.tables, t.Named) {j : Nat} {name : String}
    (hname : r.schema.qualifiedNames[j]? = some name) :
    r.schema.resolve none name = .ok j ∧
      ∀ place, s.resolve ⟨none, name⟩ = .ok place ↔
        (Scope.placesOf parts)[j]? = some place ∧ '.' ∉ place.table.name.toList := by
  rw [h.shows.qualifiedNames_eq, List.getElem?_map] at hname
  obtain ⟨l, hl, rfl⟩ := Option.map_eq_some_iff.1 hname
  obtain ⟨place, hj, htable, hcolumn⟩ := h.exists_place hl
  have hresolve : r.schema.resolve none l.text = .ok j := by
    have hmeans : Means parts ⟨none, l.text⟩ l :=
      filter_isNamed_of_point h.partsOf.named h.partsOf.nodup l.point_mem_text
        (List.mem_of_getElem? hl) l.isNamed_text
    have hshows := h.shows.resolve_eq_ok_iff (r := ⟨none, l.text⟩) (i := j)
    exact hshows.2 ⟨l, hl, hmeans⟩
  have hsplit : Scope.SplitsPlain ⟨none, l.text⟩ ↔ '.' ∉ place.table.name.toList := by
    rw [Label.text, Scope.splitsPlain_dotted_iff hcolumn, htable]
  refine ⟨hresolve, fun place' => ?_⟩
  rw [h.resolve_iff hperm hs, hsplit]
  constructor
  · rintro ⟨hplain, j', hj', hplace'⟩
    obtain rfl : j = j' := Except.ok.inj (hresolve.symm.trans hj')
    obtain rfl : place = place' := Option.some.inj (hj.symm.trans hplace')
    exact ⟨hj, hplain⟩
  · rintro ⟨hplace', hplain⟩
    obtain rfl : place = place' := Option.some.inj (hj.symm.trans hplace')
    exact ⟨hplain, j, hresolve, hj⟩

end Denotes

end Relation

end RelStore
