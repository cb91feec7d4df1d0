import RelStore.Proofs.Table.Query
import RelStore.Table.Storage

/-!
# Answers of storages

`Storage.Coherent` extends the coherence of storages with one key to all storages: what a storage
keeps beside its rows is read off the rows, and the parts of a storage with several indexes hold the
same rows.  A coherent storage gives every answer from its rows and its `Layout`, that is its kind
and the columns of its indexes: which rows it refuses (`Storage.Coherent.check_eq`), which rows
satisfy a comparison (`Storage.Coherent.query_eq`, `Storage.Coherent.queryRange_eq`) and how the
rows are listed (`Storage.Coherent.sorted_eq`).  Where there are indexes one part with one key
answers requests for a column (`Storage.part?`), and it answers for all rows
(`Storage.Coherent.answersFor`).
-/

namespace RelStore

/-! ### Layouts -/

/-- The kind of a storage and the columns of its indexes. -/
structure Layout where
  kind : TableKind
  keyColumn : Option Nat
  declarations : List Declaration
deriving DecidableEq

namespace Layout

/-- Whether there is a tree on a column. -/
def hasTree (l : Layout) (column : Nat) : Bool :=
  (l.kind == .tree && l.keyColumn == some column) || l.declarations.contains ⟨column, .tree⟩

/-- Whether a tree answers comparisons of a column with a key. -/
def answersByTree (l : Layout) (s : Schema) (column : Nat) (key : Value) : Bool :=
  l.hasTree column && !key.isNull && s.columns[column]?.any (·.type.accepts key)

/-- Whether the row has a value at the column that is not absent. -/
def isPresent (row : Row) (column : Nat) : Bool :=
  (row[column]?.filter (!·.isNull)).isSome

/-- Whether a stored row that is equal to the row would be found: an index only finds it if the row
has a key. -/
def looksFor (l : Layout) (row : Row) : Bool :=
  match l.kind with
  | .set => true
  | .hash | .tree => l.keyColumn.any (isPresent row)
  | .multi => l.declarations.any fun d => isPresent row d.column
  | .list => false

/-- The verdict on a row beside stored rows. -/
def verdict (l : Layout) (s : Schema) (rows : List Row) (row : Row) : Verdict :=
  if l.kind = .list then .success
  else if l.looksFor row ∧ row ∈ rows then .duplicateRow
  else KeySet.verdict s rows row

/-- The columns of the indexes are columns of the schema. -/
structure InRange (s : Schema) (l : Layout) : Prop where
  keyColumn_lt : ∀ column ∈ l.keyColumn, column < s.width
  declarations_lt : ∀ d ∈ l.declarations, d.column < s.width

/-- Whether there is an index on a column. -/
def Indexes (l : Layout) (column : Nat) : Prop :=
  l.keyColumn = some column ∨ ∃ d ∈ l.declarations, d.column = column

theorem InRange.lt_of_indexes {s : Schema} {l : Layout} (h : l.InRange s) {column : Nat} :
    l.Indexes column → column < s.width := by
  rintro (hkey | ⟨d, hd, rfl⟩)
  · exact h.keyColumn_lt column hkey
  · exact h.declarations_lt d hd

end Layout

/-- The kind of the storage and the columns of its indexes. -/
def Storage.layout (st : Storage) : Layout where
  kind := st.kind
  keyColumn := st.keyColumn?
  declarations := st.declarations

/-! ### Distinct rows -/

namespace Distinct

/-- The sets agree with the rows. -/
structure Coherent (s : Schema) (d : Distinct) : Prop where
  mem_members : ∀ row, row ∈ d.members ↔ row ∈ d.rows.toList
  covers : KeySet.Covers s d.primaryKeys d.rows.toList

variable {s : Schema} {d : Distinct}

theorem coherent_empty (s : Schema) : ({} : Distinct).Coherent s where
  mem_members row := by simp
  covers := KeySet.covers_empty s

theorem Coherent.insert (h : d.Coherent s) (row : Row) : (d.insert s row).Coherent s where
  mem_members row' := by
    simp only [Distinct.insert, Array.toList_push]
    rw [Std.HashSet.mem_insert, beq_iff_eq, h.mem_members, List.mem_append, List.mem_singleton,
      or_comm, eq_comm]
  covers := by
    simp only [Distinct.insert, Array.toList_push]
    exact h.covers.insertOf row

theorem Coherent.check_eq (h : d.Coherent s) (row : Row) :
    d.check s row =
      if row ∈ d.rows.toList then .duplicateRow else KeySet.verdict s d.rows.toList row := by
  rw [check, h.covers.check_eq]
  exact if_congr (Std.HashSet.contains_iff_mem.trans (h.mem_members row)) rfl rfl

end Distinct

/-! ### Several indexes -/

namespace MultiKeyed

/-- Each part is coherent, all hold the same rows, and no two have their index on one column. -/
structure Coherent (s : Schema) (m : MultiKeyed) : Prop where
  coherent_part : ∀ k ∈ m.parts, k.Coherent s
  rows_eq : ∀ k ∈ m.parts, k.rows.toList = m.first.rows.toList
  nodup_columns : (m.parts.map (·.column)).Nodup

variable {s : Schema} {m : MultiKeyed}

theorem first_mem_parts (m : MultiKeyed) : m.first ∈ m.parts :=
  List.mem_cons_self

theorem parts_insert (m : MultiKeyed) (s : Schema) (row : Row) :
    (m.insert s row).parts = m.parts.map (·.insert s row) :=
  rfl

theorem Coherent.insert (h : m.Coherent s) (row : Row) : (m.insert s row).Coherent s where
  coherent_part k' hk' := by
    rw [parts_insert] at hk'
    obtain ⟨k, hk, rfl⟩ := List.mem_map.1 hk'
    exact (h.coherent_part k hk).insert row
  rows_eq k' hk' := by
    rw [parts_insert] at hk'
    obtain ⟨k, hk, rfl⟩ := List.mem_map.1 hk'
    have hfirst := (Keyed.extends_insert m.first s row).rows_eq
    rw [(Keyed.extends_insert k s row).rows_eq, h.rows_eq k hk]
    exact hfirst.symm
  nodup_columns := by
    have hcolumns : (m.parts.map (·.insert s row)).map (·.column) = m.parts.map (·.column) := by
      rw [List.map_map]
      exact List.map_congr_left fun k _ => (Keyed.extends_insert k s row).column_eq
    rw [parts_insert, hcolumns]
    exact h.nodup_columns

theorem declarations_insert (m : MultiKeyed) (s : Schema) (row : Row) :
    (m.insert s row).declarations = m.declarations := by
  rw [declarations, parts_insert, List.map_map]
  apply List.map_congr_left
  intro k _
  have hext := Keyed.extends_insert k s row
  rw [Function.comp_apply, hext.column_eq, hext.type_eq]

theorem coherent_part (s : Schema) (shape : Shape) (d : Declaration) :
    (part shape d).Coherent s ∧ (part shape d).column = d.column ∧ (part shape d).rows = #[] := by
  unfold part
  split
  · exact ⟨Keyed.coherent_hash s d.column, rfl, rfl⟩
  · exact ⟨Keyed.coherent_tree s d.column shape, rfl, rfl⟩

theorem declaration_part (shape : Shape) {d : Declaration} (hd : d.index ≠ .none) :
    (⟨(part shape d).column, (part shape d).index.type⟩ : Declaration) = d := by
  obtain ⟨column, index⟩ := d
  cases index with
  | none => exact absurd rfl hd
  | hash => rfl
  | tree => rfl

/-- A storage without rows is coherent and has the declarations that it is made by. -/
theorem coherent_ofDeclarations? (s : Schema) {shape : Shape} {declarations : List Declaration}
    (hnodup : (declarations.map (·.column)).Nodup) (hindex : ∀ d ∈ declarations, d.index ≠ .none)
    (hm : ofDeclarations? shape declarations = some m) :
    m.Coherent s ∧ m.declarations = declarations ∧ m.first.rows = #[] := by
  cases declarations with
  | nil => exact absurd hm (by simp [ofDeclarations?])
  | cons d ds =>
    obtain rfl : ⟨part shape d, ds.map (part shape)⟩ = m := Option.some.inj hm
    have hparts : (⟨part shape d, ds.map (part shape)⟩ : MultiKeyed).parts =
        (d :: ds).map (part shape) := rfl
    refine ⟨⟨fun k hk => ?_, fun k hk => ?_, ?_⟩, ?_, (coherent_part s shape d).2.2⟩
    · rw [hparts] at hk
      obtain ⟨d, -, rfl⟩ := List.mem_map.1 hk
      exact (coherent_part s shape d).1
    · rw [hparts] at hk
      obtain ⟨d, -, rfl⟩ := List.mem_map.1 hk
      rw [(coherent_part s shape d).2.2, (coherent_part s shape _).2.2]
    · have hcolumns : (d :: ds).map ((·.column) ∘ part shape) = (d :: ds).map (·.column) :=
        List.map_congr_left fun d _ => (coherent_part s shape d).2.1
      rwa [hparts, List.map_map, hcolumns]
    · rw [declarations, hparts, List.map_map]
      apply (List.map_congr_left fun d hd => declaration_part shape (hindex d hd)).trans
      exact List.map_id _

/-! ### Answers of several indexes -/

/-- A row is refused as equal if any part looks for it; the parts agree on its primary key. -/
theorem Coherent.check_eq (h : m.Coherent s) (row : Row) :
    m.check s row =
      if (∃ k ∈ m.parts, (k.key? row).isSome) ∧ row ∈ m.first.rows.toList then .duplicateRow
      else KeySet.verdict s m.first.rows.toList row := by
  have hpart : ∀ k ∈ m.parts, k.check s row =
      if (k.key? row).isSome ∧ row ∈ m.first.rows.toList then .duplicateRow
      else KeySet.verdict s m.first.rows.toList row := by
    intro k hk
    rw [(h.coherent_part k hk).check_eq, h.rows_eq k hk]
  have hverdict : KeySet.verdict s m.first.rows.toList row ≠ .duplicateRow := by
    unfold KeySet.verdict
    split
    · decide
    · split
      · decide
      · split <;> decide
  have hdup : (m.parts.map (·.check s row)).contains .duplicateRow ↔
      (∃ k ∈ m.parts, (k.key? row).isSome) ∧ row ∈ m.first.rows.toList := by
    rw [List.contains_iff_mem, List.mem_map]
    constructor
    · rintro ⟨k, hk, hcheck⟩
      rw [hpart k hk] at hcheck
      split at hcheck
      · next hfound => exact ⟨⟨k, hk, hfound.1⟩, hfound.2⟩
      · exact absurd hcheck hverdict
    · rintro ⟨⟨k, hk, hkey⟩, hrow⟩
      exact ⟨k, hk, by rw [hpart k hk, if_pos ⟨hkey, hrow⟩]⟩
  unfold MultiKeyed.check
  simp only
  split
  · next hcontains => rw [if_pos (hdup.1 hcontains)]
  · next hcontains =>
    have hnot := fun hfound => hcontains (hdup.2 hfound)
    have hall : ∀ k ∈ m.parts, k.check s row = KeySet.verdict s m.first.rows.toList row := by
      intro k hk
      rw [hpart k hk, if_neg fun hfound => hnot ⟨⟨k, hk, hfound.1⟩, hfound.2⟩]
    rw [if_neg hnot, List.map_congr_left hall]
    by_cases hsuccess : KeySet.verdict s m.first.rows.toList row = .success
    · simp [hsuccess]
    · simp [parts, hsuccess]

/-- Where a part has its index on a column it is the only one. -/
theorem Coherent.route_eq (h : m.Coherent s) {k : Keyed} (hk : k ∈ m.parts) :
    m.route k.column = k := by
  unfold route
  cases hfind : m.parts.find? (·.column == k.column) with
  | none => exact absurd (List.find?_eq_none.1 hfind k hk) (by simp)
  | some k' =>
    have hcolumn : k'.column = k.column := by simpa using List.find?_some hfind
    exact List.inj_on_of_nodup_map h.nodup_columns (List.mem_of_find?_eq_some hfind) hk hcolumn

/-- The part that a request for a column is handed to. -/
theorem route_mem (m : MultiKeyed) (column : Nat) : m.route column ∈ m.parts := by
  unfold route
  cases hfind : m.parts.find? (·.column == column) with
  | none => exact m.first_mem_parts
  | some k => exact List.mem_of_find?_eq_some hfind

end MultiKeyed

namespace Storage

variable {s : Schema} {st : Storage} {m : MultiKeyed}

/-! ### Coherent storages -/

/-- What the storage keeps beside its rows agrees with them. -/
def Coherent (s : Schema) : Storage → Prop
  | set d => d.Coherent s
  | keyed k => k.Coherent s
  | multi m => m.Coherent s
  | list _ => True

theorem hasSingleKey_iff (st : Storage) : st.kind.hasSingleKey = st.keyColumn?.isSome := by
  cases st with
  | keyed k => cases hindex : k.index <;> simp [kind, hindex, keyColumn?, TableKind.hasSingleKey]
  | _ => rfl

/-- Rows are added and nothing else changes. -/
structure Extends (st : Storage) (rows : List Row) (st' : Storage) : Prop where
  layout_eq : st'.layout = st.layout
  records_eq : st'.records = st.records ++ rows

theorem Extends.trans {st' st'' : Storage} {rows rows' : List Row} (h : st.Extends rows st')
    (h' : st'.Extends rows' st'') : st.Extends (rows ++ rows') st'' where
  layout_eq := h'.layout_eq.trans h.layout_eq
  records_eq := by rw [h'.records_eq, h.records_eq, List.append_assoc]

theorem Extends.refl (st : Storage) : st.Extends [] st where
  layout_eq := rfl
  records_eq := (List.append_nil _).symm

/-- The schema matters for its primary key only. -/
theorem Coherent.renamed (h : st.Coherent s) (name : String) : st.Coherent (s.renamed name) := by
  cases st with
  | set d => exact ⟨h.mem_members, h.covers⟩
  | keyed k => exact Keyed.Coherent.renamed h name
  | multi m => exact ⟨fun k hk => (h.coherent_part k hk).renamed name, h.rows_eq, h.nodup_columns⟩
  | list rows => trivial

theorem layout_keyed_of_extends {k k' : Keyed} {rows : List Row} (h : k.Extends rows k') :
    (keyed k').layout = (keyed k).layout := by
  have hkind : (keyed k').kind = (keyed k).kind := by
    have htype := h.type_eq
    simp only [kind]
    cases hk : k.index <;> cases hk' : k'.index <;> simp [hk, hk', KeyIndex.type] at htype ⊢
  simp only [layout, hkind, keyColumn?, h.column_eq, declarations]

theorem extends_insert (st : Storage) (s : Schema) (row : Row) :
    st.Extends [row] (st.insert s row) := by
  cases st with
  | set d => exact ⟨rfl, Array.toList_push⟩
  | keyed k =>
    have hext := Keyed.extends_insert k s row
    exact ⟨layout_keyed_of_extends hext, hext.rows_eq⟩
  | multi m =>
    refine ⟨?_, (Keyed.extends_insert m.first s row).rows_eq⟩
    simp only [Storage.insert, layout, kind, keyColumn?, declarations, m.declarations_insert]
  | list rows => exact ⟨rfl, Array.toList_push⟩

theorem extends_foldl_insert (st : Storage) (s : Schema) (rows : List Row) :
    st.Extends rows (rows.foldl (·.insert s ·) st) := by
  induction rows generalizing st with
  | nil => exact .refl st
  | cons row rows ih => exact (st.extends_insert s row).trans (ih (st.insert s row))

theorem extends_insertAll (st : Storage) (s : Schema) (rows : List Row) :
    st.Extends rows (st.insertAll s rows) := by
  cases st with
  | keyed k =>
    have hext := Keyed.extends_insertAll k s rows
    exact ⟨layout_keyed_of_extends hext, hext.rows_eq⟩
  | set d => exact extends_foldl_insert _ s rows
  | multi m => exact extends_foldl_insert _ s rows
  | list l => exact extends_foldl_insert _ s rows

theorem Coherent.insert (h : st.Coherent s) (row : Row) : (st.insert s row).Coherent s := by
  cases st with
  | set d => exact Distinct.Coherent.insert h row
  | keyed k => exact Keyed.Coherent.insert h row
  | multi m => exact MultiKeyed.Coherent.insert h row
  | list rows => trivial

theorem Coherent.foldl_insert (h : st.Coherent s) (rows : List Row) :
    (rows.foldl (·.insert s ·) st).Coherent s :=
  List.foldlRecOn rows _ h fun _ hst row _ => hst.insert row

theorem Coherent.insertAll (h : st.Coherent s) (rows : List Row) :
    (st.insertAll s rows).Coherent s := by
  cases st with
  | keyed k => exact Keyed.Coherent.insertAll h rows
  | set d => exact h.foldl_insert rows
  | multi m => exact h.foldl_insert rows
  | list l => exact h.foldl_insert rows

/-! ### Answers -/

theorem Coherent.check_eq (h : st.Coherent s) (row : Row) :
    st.check s row = st.layout.verdict s st.records row := by
  cases st with
  | set d =>
    apply (Distinct.Coherent.check_eq h row).trans
    have hlist : (set d).layout.kind ≠ .list := by simp [layout, kind]
    rw [Layout.verdict, if_neg hlist]
    exact if_congr (and_iff_right rfl).symm rfl rfl
  | keyed k =>
    apply (Keyed.Coherent.check_eq h row).trans
    have hlist : (keyed k).layout.kind ≠ .list := by
      simp only [layout, kind]
      cases k.index <;> simp
    have hlooks : (keyed k).layout.looksFor row = (k.key? row).isSome := by
      simp only [layout, kind, Layout.looksFor]
      cases k.index <;> rfl
    rw [Layout.verdict, if_neg hlist, hlooks]
    rfl
  | multi m =>
    apply (MultiKeyed.Coherent.check_eq h row).trans
    have hlooks : (multi m).layout.looksFor row ↔ ∃ k ∈ m.parts, (k.key? row).isSome := by
      rw [Layout.looksFor]
      simp only [layout, kind, declarations, MultiKeyed.declarations, List.any_map,
        List.any_eq_true]
      rfl
    have hlist : (multi m).layout.kind ≠ .list := by simp [layout, kind]
    rw [Layout.verdict, if_neg hlist]
    exact if_congr (and_congr_left' hlooks.symm) rfl rfl
  | list rows => rfl

theorem hasTree_keyed (k : Keyed) (column : Nat) :
    (keyed k).layout.hasTree column = (k.index.type == .tree && k.column == column) := by
  simp only [layout, kind, Layout.hasTree, keyColumn?, declarations]
  cases k.index with
  | hash buckets => rfl
  | tree buckets => simp [KeyIndex.type]

theorem hasTree_multi (h : Coherent s (multi m)) (column : Nat) :
    (multi m).layout.hasTree column =
      ((m.route column).index.type == .tree && (m.route column).column == column) := by
  rw [Bool.eq_iff_iff, Bool.and_eq_true, beq_iff_eq, beq_iff_eq]
  have hcontains : (multi m).layout.hasTree column ↔
      ∃ k ∈ m.parts, k.column = column ∧ k.index.type = .tree := by
    simp [layout, kind, Layout.hasTree, declarations, MultiKeyed.declarations]
  rw [hcontains]
  constructor
  · rintro ⟨k, hk, rfl, htype⟩
    rw [MultiKeyed.Coherent.route_eq h hk]
    exact ⟨htype, rfl⟩
  · rintro ⟨htype, hcolumn⟩
    exact ⟨_, m.route_mem column, hcolumn, htype⟩

/-! ### Parts -/

/-- The part with one key that answers requests for a column. -/
def part? (st : Storage) (column : Nat) : Option Keyed :=
  match st with
  | keyed k => some k
  | multi m => some (m.route column)
  | _ => none

variable {column : Nat} {k : Keyed}

/-- A part that answers requests for a column: it holds the rows of the storage, and has a tree on
the column if the storage does. -/
structure AnswersFor (s : Schema) (st : Storage) (column : Nat) (k : Keyed) : Prop where
  coherent : k.Coherent s
  rows_eq : k.rows.toList = st.records
  indexes : k.column = column → st.layout.Indexes column
  hasTree_eq : st.layout.hasTree column = (k.index.type == .tree && k.column == column)

theorem Coherent.answersFor (h : st.Coherent s) (hk : st.part? column = some k) :
    AnswersFor s st column k := by
  cases st with
  | keyed k =>
    cases hk
    exact ⟨h, rfl, fun heq => .inl (congrArg some heq), hasTree_keyed k column⟩
  | multi m =>
    cases hk
    have hmem := m.route_mem column
    exact ⟨h.coherent_part _ hmem, h.rows_eq _ hmem,
      fun heq => .inr ⟨_, List.mem_map_of_mem hmem, heq⟩, hasTree_multi h column⟩
  | _ => contradiction

theorem AnswersFor.answersByTree_eq (h : AnswersFor s st column k) (key : Value) :
    st.layout.answersByTree s column key = k.answersByTree s column key := by
  rw [Layout.answersByTree, h.hasTree_eq, Keyed.answersByTree, Keyed.isIndexed,
    BEq.comm (a := k.column)]
  simp only [Bool.and_assoc]

theorem answersByTree_of_part?_eq_none (hk : st.part? column = none) (key : Value) :
    st.layout.answersByTree s column key = false := by
  cases st with
  | set d => rfl
  | list rows => rfl
  | _ => contradiction

theorem sorted_eq_part? (st : Storage) (column : Nat) :
    st.sorted column =
      ((st.part? column).map (·.sorted column)).getD (Row.sorted column st.records) := by
  cases st <;> rfl

theorem query_eq_part? (st : Storage) (s : Schema) (column : Nat) (op : Operator) (key : Value) :
    st.query s column op key =
      ((st.part? column).map (·.query s column op key)).getD
        (Row.filter column op key st.records) := by
  cases st <;> rfl

theorem queryRange_eq_part? (st : Storage) (s : Schema) (column : Nat) (range : ValueRange) :
    st.queryRange s column range =
      ((st.part? column).map (·.queryRange s column range)).getD
        (range.filter column st.records) := by
  cases st <;> rfl

/-! ### Listings and queries -/

/-- An answer holds stored rows only. -/
theorem Coherent.mem_of_mem_query (h : st.Coherent s) {op : Operator} {key : Value} {row : Row}
    (hrow : row ∈ st.query s column op key) : row ∈ st.records := by
  rw [query_eq_part?] at hrow
  cases hk : st.part? column with
  | none =>
    rw [hk] at hrow
    exact (List.mem_filter.1 hrow).1
  | some k =>
    rw [hk] at hrow
    have hpart := h.answersFor hk
    rw [← hpart.rows_eq]
    exact hpart.coherent.mem_of_mem_query hrow

theorem Coherent.mem_of_mem_sorted (h : st.Coherent s) {row : Row}
    (hrow : row ∈ st.sorted column) : row ∈ st.records := by
  rw [sorted_eq_part?] at hrow
  cases hk : st.part? column with
  | none =>
    rw [hk] at hrow
    exact (List.mergeSort_perm _ _).mem_iff.1 hrow
  | some k =>
    rw [hk] at hrow
    have hpart := h.answersFor hk
    rw [← hpart.rows_eq]
    exact hpart.coherent.mem_of_mem_sorted hrow

/-- A listing in the order of a column is the stable sort, unless the column is indexed and out of
range. -/
theorem Coherent.sorted_eq_of_lt (h : st.Coherent s)
    (hcolumn : st.layout.Indexes column → column < s.width)
    (hwide : ∀ row ∈ st.records, row.length = s.width) :
    st.sorted column = Row.sorted column st.records := by
  rw [sorted_eq_part?]
  cases hk : st.part? column with
  | none => rfl
  | some k =>
    have hpart := h.answersFor hk
    rw [← hpart.rows_eq] at hwide ⊢
    refine hpart.coherent.sorted_eq fun heq row hrow => ?_
    rw [hwide row hrow]
    exact hcolumn (hpart.indexes heq)

theorem Coherent.sorted_eq (h : st.Coherent s) (hrange : st.layout.InRange s)
    (hwide : ∀ row ∈ st.records, row.length = s.width) (column : Nat) :
    st.sorted column = Row.sorted column st.records :=
  h.sorted_eq_of_lt hrange.lt_of_indexes hwide

variable (hfit : ∀ row ∈ st.records, row.check s = .ok ())

include hfit

/-- A comparison is answered with the rows that satisfy it, in the order of the column if a tree
answers. -/
theorem Coherent.query_eq_of_lt (h : st.Coherent s)
    (hcolumn : st.layout.Indexes column → column < s.width) (op : Operator) (key : Value) :
    st.query s column op key =
      if st.layout.answersByTree s column key then
        Row.sorted column (Row.filter column op key st.records)
      else Row.filter column op key st.records := by
  rw [query_eq_part?]
  cases hk : st.part? column with
  | none =>
    rw [answersByTree_of_part?_eq_none hk]
    rfl
  | some k =>
    have hpart := h.answersFor hk
    rw [← hpart.rows_eq] at hfit ⊢
    rw [hpart.answersByTree_eq]
    exact hpart.coherent.query_eq hfit (fun heq => hcolumn (hpart.indexes heq)) op key

theorem Coherent.query_eq (h : st.Coherent s) (hrange : st.layout.InRange s) (column : Nat)
    (op : Operator) (key : Value) :
    st.query s column op key =
      if st.layout.answersByTree s column key then
        Row.sorted column (Row.filter column op key st.records)
      else Row.filter column op key st.records :=
  h.query_eq_of_lt hfit hrange.lt_of_indexes op key

/-- So is a range, wherever the indexes are. -/
theorem Coherent.queryRange_eq (h : st.Coherent s) (column : Nat) (range : ValueRange) :
    st.queryRange s column range =
      if st.layout.answersByTree s column range.low && st.layout.answersByTree s column range.high
      then Row.sorted column (range.filter column st.records)
      else range.filter column st.records := by
  rw [queryRange_eq_part?]
  cases hk : st.part? column with
  | none =>
    rw [answersByTree_of_part?_eq_none hk, Bool.false_and]
    rfl
  | some k =>
    have hpart := h.answersFor hk
    rw [← hpart.rows_eq] at hfit ⊢
    rw [hpart.answersByTree_eq, hpart.answersByTree_eq]
    exact hpart.coherent.queryRange_eq hfit column range

end Storage

end RelStore
