import RelStore.Proofs.Declaration
import RelStore.Proofs.Table.Storage
import RelStore.Table.Basic

/-!
# Tables filled by insertion

`Table.Filled p t` says how a table comes about: it is made without rows, or lists the rows of a
relation, and rows that satisfy `p` are inserted, one by one or several at once, possibly under
another name.  Such a table is coherent (`Table.Filled.coherent`), and so it answers from its rows.

`Table.Filled.access_eq_scan` is the main result: whatever index answers, a comparison and a range
give the rows that satisfy them.  They come in the order of their insertion, or in the order of the
column if a tree answers.
-/

namespace RelStore

namespace Table

/-- The kind of the table and the columns of its indexes. -/
def layout (t : Table) : Layout :=
  t.storage.layout

/-- The columns of the indexes are columns of the table. -/
def InRange (t : Table) : Prop :=
  t.layout.InRange t.schema

/-- Whether there is a tree on a column that answers comparisons with a key. -/
def answersByTree (t : Table) (column : Nat) (key : Value) : Bool :=
  (t.kind == .tree && t.keyColumn? == some column || t.declarations.contains ⟨column, .tree⟩) &&
    !key.isNull && t.schema.columns[column]?.any (·.type.accepts key)

/-! ### Tables without rows -/

/-- The layout of a table that is made without rows. -/
def layoutOf (kind : TableKind) (schema : Schema) (keyColumn : Option Nat)
    (declarations : List Declaration) : Layout where
  kind
  keyColumn := if kind.hasSingleKey then some ((keyColumn.or schema.primaryKey).getD 0) else none
  declarations := if kind = .multi then Declaration.effective declarations else []

/-- A table without rows has what it is asked to have. -/
structure IsEmpty (t : Table) (kind : TableKind) (name : String) (schema : Schema)
    (keyColumn : Option Nat) (declarations : List Declaration) : Prop where
  header_eq : t.toHeader = Header.base name schema
  coherent : t.storage.Coherent schema
  records_eq : t.records = []
  layout_eq : t.layout = layoutOf kind schema keyColumn declarations

variable {kind : TableKind} {name : String} {schema : Schema} {keyColumn : Option Nat}
  {declarations : List Declaration} {shape : Shape} {t : Table}

theorem isEmpty_of_empty (h : empty kind name schema keyColumn declarations shape = .ok t) :
    t.IsEmpty kind name schema keyColumn declarations := by
  cases kind with
  | set =>
    cases h
    exact ⟨rfl, Distinct.coherent_empty schema, rfl, rfl⟩
  | hash =>
    cases h
    exact ⟨rfl, Keyed.coherent_hash schema _, rfl, rfl⟩
  | tree =>
    cases h
    exact ⟨rfl, Keyed.coherent_tree schema _ shape, rfl, rfl⟩
  | list =>
    cases h
    exact ⟨rfl, trivial, rfl, rfl⟩
  | multi =>
    simp only [empty] at h
    cases hout : Declaration.outOfRange? schema.width declarations with
    | some d => simp [hout, bind, Except.bind, throw, throwThe, MonadExceptOf.throw] at h
    | none =>
      cases hm : MultiKeyed.ofDeclarations? shape (Declaration.effective declarations) with
      | none => simp [hout, hm, bind, Except.bind, throw, throwThe, MonadExceptOf.throw] at h
      | some m =>
        simp [hout, hm, bind, Except.bind, pure, Except.pure] at h
        subst h
        obtain ⟨hcoherent, hdeclarations, hrows⟩ := MultiKeyed.coherent_ofDeclarations? schema
          (Declaration.nodup_effective declarations)
          (fun _ => Declaration.index_ne_none_of_mem_effective) hm
        refine ⟨rfl, hcoherent, ?_, ?_⟩
        · rw [records, Storage.records, Storage.rowArray, hrows]
        · simp [layout, Storage.layout, layoutOf, Storage.kind, Storage.keyColumn?,
            Storage.declarations, hdeclarations, TableKind.hasSingleKey]

/-- Only a table with several indexes may fail to be made. -/
theorem exists_empty (kind : TableKind) (name : String) (schema : Schema) (keyColumn : Option Nat)
    (shape : Shape)
    (hmulti : kind = .multi → Declaration.effective declarations ≠ [] ∧
      Declaration.outOfRange? schema.width declarations = none) :
    ∃ t, empty kind name schema keyColumn declarations shape = .ok t := by
  cases kind with
  | set => exact ⟨_, rfl⟩
  | hash => exact ⟨_, rfl⟩
  | tree => exact ⟨_, rfl⟩
  | list => exact ⟨_, rfl⟩
  | multi =>
    obtain ⟨hne, hout⟩ := hmulti rfl
    obtain ⟨d, ds, heffective⟩ := List.exists_cons_of_ne_nil hne
    simp only [empty, hout, heffective, MultiKeyed.ofDeclarations?]
    exact ⟨_, rfl⟩

/-! ### Filled tables -/

/-- The tables that come about by insertion of rows that satisfy `p` under the table's schema. -/
inductive Filled (p : Schema → Row → Prop) : Table → Prop
  | empty {kind : TableKind} {name : String} {schema : Schema} {keyColumn : Option Nat}
      {declarations : List Declaration} {shape : Shape} {t : Table}
      (h : Table.empty kind name schema keyColumn declarations shape = .ok t) : Filled p t
  | ofRelation (r : Relation) (h : ∀ row ∈ r.rows, p r.schema row) : Filled p (Table.ofRelation r)
  | insert {t : Table} (ht : Filled p t) (row : Row) (h : p t.schema row) :
      Filled p (t.insert row).2
  | insertAll {t : Table} (ht : Filled p t) (rows : List Row) (h : ∀ row ∈ rows, p t.schema row) :
      Filled p (t.insertAll rows).2
  | aliased {t : Table} (ht : Filled p t) (name : String) : Filled p (t.aliased name)

/-- An insertion adds the row at the end, unless the table is an alias. -/
theorem insert_eq (t : Table) (row : Row) :
    (t.insert row).2 = { t with
      storage := if t.isAlias then t.storage else t.storage.insert t.schema row } := by
  unfold insert
  split <;> rfl

theorem insertAll_eq (t : Table) (rows : List Row) :
    (t.insertAll rows).2 = { t with
      storage := if t.isAlias then t.storage else t.storage.insertAll t.schema rows } := by
  unfold insertAll
  split <;> rfl

/-- A table that is no alias stores each row that it is given, after the others. -/
theorem insert_stores (h : t.isAlias = false) (row : Row) :
    (t.insert row).1 = true ∧ (t.insert row).2.toHeader = t.toHeader ∧
      (t.insert row).2.layout = t.layout ∧ (t.insert row).2.records = t.records ++ [row] := by
  have hext := t.storage.extends_insert t.schema row
  have hinsert : t.insert row = (true, { t with storage := t.storage.insert t.schema row }) := by
    rw [insert, h]
    rfl
  rw [hinsert]
  exact ⟨rfl, rfl, hext.layout_eq, hext.records_eq⟩

theorem insertAll_stores (h : t.isAlias = false) (rows : List Row) :
    (t.insertAll rows).1 = rows.length ∧ (t.insertAll rows).2.toHeader = t.toHeader ∧
      (t.insertAll rows).2.layout = t.layout ∧
      (t.insertAll rows).2.records = t.records ++ rows := by
  have hext := t.storage.extends_insertAll t.schema rows
  have hinsert : t.insertAll rows =
      (rows.length, { t with storage := t.storage.insertAll t.schema rows }) := by
    rw [insertAll, h]
    rfl
  rw [hinsert]
  exact ⟨rfl, rfl, hext.layout_eq, hext.records_eq⟩

/-- An insertion keeps a table coherent, whatever the row is. -/
theorem coherent_insert (h : t.storage.Coherent t.schema) (row : Row) :
    (t.insert row).2.storage.Coherent t.schema := by
  rw [insert_eq]
  split
  · exact h
  · exact h.insert row

theorem coherent_insertAll (h : t.storage.Coherent t.schema) (rows : List Row) :
    (t.insertAll rows).2.storage.Coherent t.schema := by
  rw [insertAll_eq]
  split
  · exact h
  · exact h.insertAll rows

namespace Filled

variable {p : Schema → Row → Prop}

/-- A filled table is coherent. -/
theorem coherent (h : t.Filled p) : t.storage.Coherent t.schema := by
  induction h with
  | empty h =>
    have hempty := isEmpty_of_empty h
    rw [hempty.header_eq]
    exact hempty.coherent
  | ofRelation r h => trivial
  | @insert t ht row h ih =>
    have hschema : (t.insert row).2.schema = t.schema := by rw [insert_eq]
    rw [hschema]
    exact coherent_insert ih row
  | @insertAll t ht rows h ih =>
    have hschema : (t.insertAll rows).2.schema = t.schema := by rw [insertAll_eq]
    rw [hschema]
    exact coherent_insertAll ih rows
  | aliased ht name ih => exact ih.renamed name

/-- What holds of all rows that are inserted, whatever the name of the table, holds of all rows. -/
theorem forall_records (hp : ∀ s name row, p s row → p (s.renamed name) row) (h : t.Filled p) :
    ∀ row ∈ t.records, p t.schema row := by
  induction h with
  | empty h =>
    rw [(isEmpty_of_empty h).records_eq]
    exact fun _ hrow => absurd hrow List.not_mem_nil
  | ofRelation r h => exact h
  | @insert t ht row h ih =>
    rw [insert_eq]
    split
    · exact ih
    · intro row' hrow'
      rw [records, (t.storage.extends_insert t.schema row).records_eq] at hrow'
      rcases List.mem_append.1 hrow' with hrow' | hrow'
      · exact ih row' hrow'
      · rwa [List.mem_singleton.1 hrow']
  | @insertAll t ht rows h ih =>
    rw [insertAll_eq]
    split
    · exact ih
    · intro row' hrow'
      rw [records, (t.storage.extends_insertAll t.schema rows).records_eq] at hrow'
      rcases List.mem_append.1 hrow' with hrow' | hrow'
      · exact ih row' hrow'
      · exact h row' hrow'
  | aliased ht name ih => exact fun row hrow => hp _ name row (ih row hrow)

section Fitting

variable (h : t.Filled fun s row => row.check s = .ok ())

include h

theorem check_eq_ok : ∀ row ∈ t.records, row.check t.schema = .ok () :=
  h.forall_records fun _ _ _ hrow => hrow

section Column

variable {column : Nat} (hcolumn : t.layout.Indexes column → column < t.schema.width)

include hcolumn

/-- A table is listed in the order of a column, unless it has an index on a column out of range. -/
theorem sorted_eq : t.sorted column = Row.sorted column t.records :=
  h.coherent.sorted_eq_of_lt hcolumn fun row hrow => Row.length_eq_of_check (h.check_eq_ok row hrow)

theorem query_perm_of_lt (op : Operator) (key : Value) :
    (t.query column op key).rows.Perm (t.records.filter (Row.satisfies column op key)) := by
  have hquery : (t.query column op key).rows = _ :=
    h.coherent.query_eq_of_lt h.check_eq_ok hcolumn op key
  rw [hquery]
  split
  · exact List.mergeSort_perm _ _
  · exact .refl _

end Column

theorem sorted_perm (hrange : t.InRange) (column : Nat) : (t.sorted column).Perm t.records := by
  rw [h.sorted_eq hrange.lt_of_indexes]
  exact List.mergeSort_perm _ _

theorem query_perm (hrange : t.InRange) (column : Nat) (op : Operator) (key : Value) :
    (t.query column op key).rows.Perm (t.records.filter (Row.satisfies column op key)) :=
  h.query_perm_of_lt hrange.lt_of_indexes op key

end Fitting

/-- An indexed access gives the rows that a scan gives: those that satisfy the comparison or lie in
the range, in the order of their insertion, or of the column if a tree answers. -/
theorem access_eq_scan (h : t.Filled fun s row => row.check s = .ok ()) (hrange : t.InRange)
    (column : Nat) :
    (∀ op key, (t.query column op key).rows =
      let found := t.records.filter (Row.satisfies column op key)
      if t.answersByTree column key then Row.sorted column found else found) ∧
    ∀ range : ValueRange, (t.queryRange column range).rows =
      let found := t.records.filter fun row =>
        Row.satisfies column (.ofLower range.lowInclusive) range.low row &&
          Row.satisfies column (.ofUpper range.highInclusive) range.high row
      if t.answersByTree column range.low && t.answersByTree column range.high then
        Row.sorted column found
      else found := by
  have hfit := h.check_eq_ok
  refine ⟨fun op key => h.coherent.query_eq hfit hrange column op key, fun range => ?_⟩
  apply (h.coherent.queryRange_eq hfit column range).trans
  rw [ValueRange.filter_eq]
  rfl

/-- A tree on the first column, with an absent key and one that is there twice. -/
theorem access_eq_scan_tree :
    let s : Schema := ⟨"t", [⟨"k", .int⟩, ⟨"v", .varchar 3⟩], none⟩
    let t : Table := { Header.base "t" s with storage := .keyed (.tree 0 .standard) }
    let t := (t.insertAll [[.int 2, .text "a"], [.null, .text "b"], [.int 1, .null]]).2
    let t := (t.insert [.int 2, .text "c"]).2
    (∀ row ∈ t.records, row.check s = .ok ()) ∧ t.InRange ∧
      (t.query 0 .ne (.int 1)).rows = Row.sorted 0
        [[.int 2, .text "a"], [.null, .text "b"], [.int 2, .text "c"]] ∧
      (t.query 0 .ne (.text "1")).rows = t.records := by
  intro s t t' t''
  have hfilled : t''.Filled fun s row => row.check s = .ok () := by
    refine .insert (.insertAll (.empty (?_ : Table.empty .tree "t" s none [] .standard = .ok t)) _
      ?_) _ ?_
    · rfl
    · decide
    · decide
  have hrange : t''.InRange := ⟨by decide, by decide⟩
  have haccess := hfilled.access_eq_scan hrange 0
  refine ⟨by decide, hrange, ?_, ?_⟩
  · exact haccess.1 .ne (.int 1)
  · exact haccess.1 .ne (.text "1")

end Filled

end Table

end RelStore
