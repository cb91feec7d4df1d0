import RelStore.Proofs.Query.Meaning
import RelStore.Proofs.Text.Cut

/-!
# What references mean

The names of base columns hold no point, so the last point of a full name is the one between the
names of the table and of the column.  `Schema.Shows` relates the columns of a schema, be it that of
a table or of a join, to labels.  A schema resolves the references that are the name of exactly one
label (`Schema.Shows.resolve_eq_ok_iff`).
-/

namespace RelStore

/-! ### Full names -/

theorem toList_dotted (table name : String) :
    (Schema.dotted table name).toList = table.toList ++ '.' :: name.toList := by
  simp [Schema.dotted, toString]

theorem point_mem_dotted (table name : String) : '.' ∈ (Schema.dotted table name).toList := by
  rw [toList_dotted]
  simp

theorem dotted_right_inj {table name name' : String} :
    Schema.dotted table name = Schema.dotted table name' ↔ name = name' := by
  rw [← String.toList_inj, toList_dotted, toList_dotted, List.append_cancel_left_eq,
    List.cons.injEq, String.toList_inj, and_iff_right rfl]

theorem toString_reference (table name : String) :
    toString (⟨some table, name⟩ : ColumnRef) = Schema.dotted table name := rfl

theorem cutLast?_dotted {table name : String} (h : '.' ∉ name.toList) :
    Text.cutLast? '.' (Schema.dotted table name) = some (table, name) :=
  Text.cutLast?_eq_some_iff.2 ⟨toList_dotted table name, h⟩

theorem eq_dotted_of_cutFirst? {s table name : String}
    (h : Text.cutFirst? '.' s = some (table, name)) : s = Schema.dotted table name := by
  rw [← String.toList_inj, toList_dotted]
  exact (Text.cutFirst?_eq_some_iff.1 h).1

theorem eq_dotted_of_cutLast? {s table name : String}
    (h : Text.cutLast? '.' s = some (table, name)) : s = Schema.dotted table name := by
  rw [← String.toList_inj, toList_dotted]
  exact (Text.cutLast?_eq_some_iff.1 h).1

theorem exists_cutLast? {s : String} (h : '.' ∈ s.toList) :
    ∃ table name, Text.cutLast? '.' s = some (table, name) := by
  have hreverse : '.' ∈ s.toList.reverse := List.mem_reverse.2 h
  obtain ⟨a, b, hs, ha⟩ := Text.exists_append_of_mem hreverse
  refine ⟨String.ofList b.reverse, String.ofList a.reverse, Text.cutLast?_eq_some_iff.2 ⟨?_, ?_⟩⟩
  · rw [List.reverse_eq_iff] at hs
    simpa using hs
  · simpa using ha

/-- Without points in the names of columns, full names are different. -/
theorem Label.eq_of_text_eq {l l' : Label} (h : '.' ∉ l.column.toList)
    (h' : '.' ∉ l'.column.toList) (heq : l.text = l'.text) : l = l' := by
  obtain ⟨table, column⟩ := l
  obtain ⟨table', column'⟩ := l'
  have hcut : Text.cutLast? '.' (Schema.dotted table column) = _ := cutLast?_dotted h
  have hcut' : Text.cutLast? '.' (Schema.dotted table' column') = _ := cutLast?_dotted h'
  rw [show Schema.dotted table column = Schema.dotted table' column' from heq, hcut'] at hcut
  obtain ⟨rfl, rfl⟩ := Prod.mk.inj (Option.some.inj hcut)
  rfl

namespace Column

theorem localName_of_point {c : Column} {table name : String} (h : '.' ∉ name.toList)
    (hc : c.name = Schema.dotted table name) : c.localName = name := by
  rw [localName, hc, cutLast?_dotted h]

theorem localName_eq_name {c : Column} (h : '.' ∉ c.name.toList) : c.localName = c.name := by
  rw [localName, Text.cutLast?_eq_none h]

end Column

/-! ### Schemas and labels -/

namespace Schema

/-- The columns of the schema are the labelled ones, in order. -/
def Shows (s : Schema) (labels : List Label) : Prop :=
  s.columns.map (fun c => (s.qualified c, c.localName)) = labels.map fun l => (l.text, l.column)

variable {s s' : Schema} {labels labels' : List Label}

theorem Shows.length_eq (h : s.Shows labels) : s.width = labels.length := by
  have hlength := congrArg List.length h
  rwa [List.length_map, List.length_map] at hlength

theorem Shows.qualifiedNames_eq (h : s.Shows labels) : s.qualifiedNames = labels.map (·.text) := by
  have hfst := congrArg (List.map Prod.fst) h
  rwa [List.map_map, List.map_map] at hfst

theorem Shows.localNames_eq (h : s.Shows labels) :
    s.columns.map (·.localName) = labels.map (·.column) := by
  have hsnd := congrArg (List.map Prod.snd) h
  rwa [List.map_map, List.map_map] at hsnd

theorem qualified_of_plain {c : Column} (h : '.' ∉ c.name.toList) :
    s.qualified c = dotted s.table c.name := by
  have hnot : ¬ c.isQualified := by
    rw [Column.isQualified, List.contains_iff_mem]
    exact h
  rw [qualified, if_neg hnot]

/-- A qualified name is kept by a join. -/
theorem qualified_of_point {c : Column} (h : '.' ∈ c.name.toList) : s.qualified c = c.name := by
  have hqualified : c.isQualified := by
    rw [Column.isQualified, List.contains_iff_mem]
    exact h
  rw [qualified, if_pos hqualified]

/-- A column under its qualified name keeps this name in any schema. -/
theorem qualified_qualified (s s' : Schema) (c : Column) :
    s'.qualified { c with name := s.qualified c } = s.qualified c := by
  apply qualified_of_point
  by_cases hpoint : '.' ∈ c.name.toList
  · show '.' ∈ (s.qualified c).toList
    rwa [qualified_of_point hpoint]
  · show '.' ∈ (s.qualified c).toList
    rw [qualified_of_plain hpoint]
    exact point_mem_dotted s.table c.name

/-- A join has the columns of both sides under their qualified names, and these are the names by
which it qualifies them. -/
theorem qualifiedColumns_join (s s' : Schema) :
    (s.join s').qualifiedColumns = s.qualifiedColumns ++ s'.qualifiedColumns := by
  have hkept : ∀ t : Schema, t.qualifiedColumns.map
      (fun c => { c with name := (s.join s').qualified c }) = t.qualifiedColumns := by
    intro t
    rw [qualifiedColumns, List.map_map]
    apply List.map_congr_left
    intro c _
    rw [Function.comp_apply, qualified_qualified]
  have hcolumns : (s.join s').columns = s.qualifiedColumns ++ s'.qualifiedColumns := rfl
  rw [qualifiedColumns, hcolumns, List.map_append, hkept, hkept]

theorem shows_table {t : Table} (htable : t.schema.table = t.name)
    (hplain : ∀ c ∈ t.schema.columns, '.' ∉ c.name.toList) : t.schema.Shows t.labels := by
  rw [Shows, Table.labels, List.map_map]
  apply List.map_congr_left
  intro c hc
  rw [qualified_of_plain (hplain c hc), Column.localName_eq_name (hplain c hc), htable]
  rfl

/-- The columns under their full names stand for the same labels in any schema. -/
theorem Shows.qualifiedColumns (h : s.Shows labels)
    (hplain : ∀ l ∈ labels, '.' ∉ l.column.toList) (s' : Schema) :
    s.qualifiedColumns.map (fun c => (s'.qualified c, c.localName)) =
      labels.map fun l => (l.text, l.column) := by
  rw [← h, Schema.qualifiedColumns, List.map_map]
  apply List.map_congr_left
  intro c hc
  have hmem : (s.qualified c, c.localName) ∈ labels.map fun l => (l.text, l.column) := by
    rw [← h]
    exact List.mem_map.2 ⟨c, hc, rfl⟩
  obtain ⟨l, hl, heq⟩ := List.mem_map.1 hmem
  obtain ⟨htext, hlocal⟩ := Prod.mk.inj heq
  have hname : s.qualified c = dotted l.table l.column := htext.symm
  let c' : Column := { c with name := s.qualified c }
  have hlocalName : c'.localName = c.localName := by
    rw [← hlocal]
    exact Column.localName_of_point (hplain l hl) hname
  show (s'.qualified c', c'.localName) = _
  rw [s.qualified_qualified s' c, hlocalName]

theorem Shows.join (h : s.Shows labels) (h' : s'.Shows labels')
    (hplain : ∀ l ∈ labels, '.' ∉ l.column.toList)
    (hplain' : ∀ l ∈ labels', '.' ∉ l.column.toList) :
    (s.join s').Shows (labels ++ labels') := by
  have hcolumns : (s.join s').columns = s.qualifiedColumns ++ s'.qualifiedColumns := rfl
  rw [Shows, hcolumns, List.map_append, List.map_append, h.qualifiedColumns hplain,
    h'.qualifiedColumns hplain']

/-! ### References in a schema -/

/-- A search whose hit is not repeated finds the only element. -/
theorem filter_eq_singleton_iff {α : Type} {p : α → Bool} {l : List α} {i : Nat} :
    l.findIdx? p = some i ∧ (l.drop (i + 1)).any p = false ↔
      ∃ a, l[i]? = some a ∧ l.filter p = [a] := by
  induction l generalizing i with
  | nil => simp
  | cons a l ih =>
    rw [List.findIdx?_cons]
    by_cases ha : p a
    · rw [if_pos ha, List.filter_cons_of_pos ha]
      constructor
      · rintro ⟨hi, hany⟩
        cases hi
        have hnil : l.filter p = [] := by
          rw [List.filter_eq_nil_iff]
          simpa using hany
        exact ⟨a, rfl, by rw [hnil]⟩
      · rintro ⟨b, hb, hfilter⟩
        obtain ⟨rfl, hnil⟩ := List.cons.inj hfilter
        rw [List.filter_eq_nil_iff] at hnil
        cases i with
        | zero => exact ⟨rfl, by simpa using hnil⟩
        | succ i => exact absurd ha (hnil a (List.mem_of_getElem? hb))
    · rw [if_neg ha, List.filter_cons_of_neg ha, Option.map_eq_some_iff]
      constructor
      · rintro ⟨⟨j, hj, rfl⟩, hany⟩
        exact ih.1 ⟨hj, hany⟩
      · rintro ⟨b, hb, hfilter⟩
        cases i with
        | zero =>
          cases hb
          have hmem : a ∈ l.filter p := by
            rw [hfilter]
            exact List.mem_singleton_self a
          exact absurd (List.mem_filter.1 hmem).2 ha
        | succ i =>
          obtain ⟨hfind, hany⟩ := ih.2 ⟨b, hb, hfilter⟩
          exact ⟨⟨i, hfind, rfl⟩, hany⟩

/-- Whether a reference means the column with a full and an own name. -/
def isMeant (r : ColumnRef) (names : String × String) : Bool :=
  if '.' ∈ (toString r).toList then names.1 == toString r else names.2 == toString r

theorem isNamed_eq (s : Schema) (r : ColumnRef) (c : Column) :
    s.isNamed (splitReference r.table r.name).1 (splitReference r.table r.name).2 c =
      isMeant r (s.qualified c, c.localName) := by
  obtain ⟨table, name⟩ := r
  cases table with
  | some table =>
    rw [isMeant, toString_reference, if_pos (point_mem_dotted table name)]
    rfl
  | none =>
    have htext : toString (⟨none, name⟩ : ColumnRef) = name := rfl
    rw [isMeant, htext]
    by_cases hpoint : '.' ∈ name.toList
    · obtain ⟨table, own, hcut⟩ := exists_cutLast? hpoint
      have hname := eq_dotted_of_cutLast? hcut
      simp only [splitReference, hcut, isNamed]
      rw [if_pos hpoint, hname]
    · simp only [splitReference, Text.cutLast?_eq_none hpoint, isNamed]
      rw [if_neg hpoint]

/-- A schema resolves a reference among the labels of its columns. -/
theorem Shows.resolve_eq (h : s.Shows labels) (r : ColumnRef) :
    ∃ missing repeated, s.resolve r.table r.name =
      match labels.findIdx? (·.isNamed r) with
      | none => .error (.columnNotFound missing)
      | some i =>
        if (labels.drop (i + 1)).any (·.isNamed r) then .error (.ambiguousColumn repeated)
        else .ok i := by
  have hnamed : s.isNamed (splitReference r.table r.name).1 (splitReference r.table r.name).2 =
      isMeant r ∘ fun c => (s.qualified c, c.localName) := funext fun c => s.isNamed_eq r c
  have hlabel : (fun l : Label => l.isNamed r) = isMeant r ∘ fun l => (l.text, l.column) := rfl
  have hfind : s.columns.findIdx? (isMeant r ∘ fun c => (s.qualified c, c.localName)) =
      labels.findIdx? (·.isNamed r) := by
    rw [hlabel, ← List.findIdx?_map, ← List.findIdx?_map, h]
  have hany : ∀ i, (s.columns.drop i).any (isMeant r ∘ fun c => (s.qualified c, c.localName)) =
      (labels.drop i).any (·.isNamed r) := by
    intro i
    rw [hlabel, ← List.any_map, ← List.any_map, List.map_drop, List.map_drop, h]
  let short := splitReference r.table r.name
  refine ⟨short.1.elim short.2 (dotted · short.2), short.2, ?_⟩
  simp only [Schema.resolve, hnamed, hfind, hany]
  rfl

/-- A schema resolves the references that are the name of exactly one label. -/
theorem Shows.resolve_eq_ok_iff (h : s.Shows labels) {r : ColumnRef} {i : Nat} :
    s.resolve r.table r.name = .ok i ↔
      ∃ l, labels[i]? = some l ∧ labels.filter (·.isNamed r) = [l] := by
  obtain ⟨missing, repeated, heq⟩ := h.resolve_eq r
  rw [heq, ← filter_eq_singleton_iff]
  cases labels.findIdx? (·.isNamed r) with
  | none => simp
  | some j =>
    by_cases hany : (labels.drop (j + 1)).any (·.isNamed r)
    · simp only [if_pos hany]
      constructor
      · intro hok
        contradiction
      · rintro ⟨hj, hnot⟩
        cases hj
        rw [hany] at hnot
        contradiction
    · simp only [if_neg hany]
      constructor
      · intro hok
        cases hok
        exact ⟨rfl, by simpa only [Bool.not_eq_true] using hany⟩
      · rintro ⟨hj, -⟩
        cases hj
        rfl

/-- The references that find no column are the name of no label. -/
theorem Shows.resolve_notFound_iff (h : s.Shows labels) {r : ColumnRef} :
    (∃ name, s.resolve r.table r.name = .error (.columnNotFound name)) ↔
      labels.filter (·.isNamed r) = [] := by
  obtain ⟨missing, repeated, heq⟩ := h.resolve_eq r
  have hnil : labels.filter (·.isNamed r) = [] ↔ labels.findIdx? (·.isNamed r) = none := by
    rw [List.filter_eq_nil_iff, List.findIdx?_eq_none_iff]
    simp only [Bool.not_eq_true]
  rw [heq, hnil]
  cases labels.findIdx? (·.isNamed r) with
  | none => simp
  | some i => by_cases hany : (labels.drop (i + 1)).any (·.isNamed r) <;> simp [hany]

end Schema

end RelStore
