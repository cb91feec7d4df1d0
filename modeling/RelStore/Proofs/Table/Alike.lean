import RelStore.Proofs.Agreement
import RelStore.Proofs.Table.Basic

/-!
# Tables that answer alike

`Table.Alike t t'` says that no question tells `t` from `t'`: not their rows, the number of their
keys, a check, a listing or a query.  `Table.Filled.insertAll_alike` is the main result: a table into
which rows are inserted at once and a table into which they are inserted one by one are alike, and
stay so under any further insertions.

A tree that is loaded with rows has other nodes than one that has grown with them.  What the tables
share is their layout and their rows, and that they are coherent (`Table.SameRows`).  Every
insertion keeps that, and every answer follows from it (`Storage.Coherent.sameAnswers`): the index of
a coherent storage has for each key the rows with that key, so that two of them have the same
buckets (`Keyed.Coherent.sameParts`), and the entries of a tree are determined by its look-ups.
-/

namespace RelStore

/-! ### Indexes with the same buckets -/

namespace KeyIndex

/-- Two indexes of one type with the same buckets, whatever the nodes of trees are. -/
inductive SameBuckets : KeyIndex → KeyIndex → Prop
  | hash {buckets buckets' : Std.HashMap Value Bucket}
      (hget : ∀ key : Value, buckets[key]? = buckets'[key]?) :
      SameBuckets (.hash buckets) (.hash buckets')
  | tree {buckets buckets' : BTree Value Bucket} (hsound : buckets.Sound)
      (hsound' : buckets'.Sound) (hlist : buckets.toList = buckets'.toList) :
      SameBuckets (.tree buckets) (.tree buckets')

variable {index index' : KeyIndex}

theorem sameBuckets_of_bucket?_eq (htype : index.type = index'.type) (hsound : index.Sound)
    (hsound' : index'.Sound) (hget : ∀ key, index.bucket? key = index'.bucket? key) :
    index.SameBuckets index' := by
  cases index with
  | hash buckets =>
    cases index' with
    | hash buckets' => exact .hash hget
    | tree buckets' => exact absurd htype IndexType.noConfusion
  | tree buckets =>
    cases index' with
    | hash buckets' => exact absurd htype IndexType.noConfusion
    | tree buckets' =>
      have hagrees : buckets.Agrees buckets'.get? := ⟨hsound, hget⟩
      exact .tree hsound hsound' (hagrees.toList_eq ⟨hsound', fun _ => rfl⟩)

theorem SameBuckets.size_eq (h : index.SameBuckets index') : index.size = index'.size := by
  cases h with
  | hash hget => exact (Std.HashMap.Equiv.of_forall_getElem?_eq hget).size_eq
  | tree hsound hsound' hlist =>
    exact hsound.size_eq_length.trans
      ((congrArg List.length hlist).trans hsound'.size_eq_length.symm)

end KeyIndex

/-! ### Storages with one key -/

namespace Keyed

/-- Two storages that differ in the nodes of their indexes and in the set of primary keys at most. -/
structure SameParts (k k' : Keyed) : Prop where
  column_eq : k.column = k'.column
  index_same : k.index.SameBuckets k'.index
  rows_eq : k.rows = k'.rows
  unkeyed_eq : k.unkeyed = k'.unkeyed

variable {s : Schema} {k k' : Keyed}

/-- The index and the rows without a key are read off the rows. -/
theorem Coherent.sameParts (h : k.Coherent s) (h' : k'.Coherent s) (hcolumn : k.column = k'.column)
    (htype : k.index.type = k'.index.type) (hrows : k.rows = k'.rows) : k.SameParts k' where
  column_eq := hcolumn
  index_same := by
    refine KeyIndex.sameBuckets_of_bucket?_eq htype h.sound h'.sound fun key => ?_
    rw [h.bucket?_eq, h'.bucket?_eq, rowsAt, rowsAt, hrows, key?_congr hcolumn]
  rows_eq := hrows
  unkeyed_eq := by
    rw [← Array.toList_inj, h.unkeyed_eq, h'.unkeyed_eq, hrows, key?_congr hcolumn]

namespace SameParts

variable (h : k.SameParts k')

include h

theorem isIndexed_eq (s : Schema) (column : Nat) (key : Value) :
    k.isIndexed s column key = k'.isIndexed s column key := by
  rw [isIndexed, isIndexed, h.column_eq]

theorem sorted_eq (column : Nat) : k.sorted column = k'.sorted column := by
  have hindex := h.index_same
  unfold sorted
  rw [h.column_eq, h.rows_eq, h.unkeyed_eq]
  generalize k.index = index, k'.index = index' at hindex
  cases hindex with
  | hash hget => rfl
  | tree hsound hsound' hlist => simp only [hlist]

omit h in
/-- A tree answers a comparison from its entries and the rows without a key. -/
theorem queryTree_eq (hunkeyed : k.unkeyed = k'.unkeyed) {buckets buckets' : BTree Value Bucket}
    (hsound : buckets.Sound) (hsound' : buckets'.Sound) (hlist : buckets.toList = buckets'.toList)
    (op : Operator) (key : Value) :
    k.queryTree buckets op key = k'.queryTree buckets' op key := by
  have hbetween : ∀ lower upper, buckets.between lower upper = buckets'.between lower upper := by
    intro lower upper
    rw [hsound.between_eq, hsound'.between_eq, hlist]
  cases op with
  | eq => simp only [queryTree, hsound.get?_eq, hsound'.get?_eq, hlist]
  | ne => simp only [queryTree, BTree.below, BTree.above, hbetween, hunkeyed]
  | _ =>
    simp only [queryTree, BTree.below, BTree.upTo, BTree.above, BTree.startingAt, hbetween]

theorem query_eq (s : Schema) (column : Nat) (op : Operator) (key : Value) :
    k.query s column op key = k'.query s column op key := by
  have hindex := h.index_same
  unfold query
  rw [h.isIndexed_eq, h.column_eq, h.rows_eq]
  generalize k.index = index, k'.index = index' at hindex
  cases hindex with
  | hash hget =>
    simp only [queryHash, h.unkeyed_eq, Std.HashMap.getD_eq_getD_getElem?, hget]
  | tree hsound hsound' hlist =>
    simp only [queryTree_eq h.unkeyed_eq hsound hsound' hlist]

theorem queryRange_eq (s : Schema) (column : Nat) (range : ValueRange) :
    k.queryRange s column range = k'.queryRange s column range := by
  have hindex := h.index_same
  unfold queryRange
  rw [h.isIndexed_eq, h.isIndexed_eq, h.rows_eq]
  generalize k.index = index, k'.index = index' at hindex
  cases hindex with
  | hash hget => rfl
  | tree hsound hsound' hlist => simp only [hsound.between_eq, hsound'.between_eq, hlist]

end SameParts

end Keyed

/-! ### Storages -/

namespace MultiKeyed

variable {s : Schema} {m m' : MultiKeyed}

/-- Storages with the same declarations and rows have parts that differ in their nodes at most. -/
theorem Coherent.forall₂_sameParts (h : m.Coherent s) (h' : m'.Coherent s)
    (hdeclarations : m.declarations = m'.declarations) (hrows : m.first.rows = m'.first.rows) :
    List.Forall₂ Keyed.SameParts m.parts m'.parts := by
  have hmap : List.Forall₂ Eq m.declarations m'.declarations := by
    rw [List.forall₂_eq_eq_eq, hdeclarations]
  have hsame := List.forall₂_map_right_iff.1 (List.forall₂_map_left_iff.1 hmap)
  rw [List.forall₂_iff_zip] at hsame ⊢
  refine ⟨hsame.1, fun {k k'} hmem => ?_⟩
  obtain ⟨hk, hk'⟩ := List.of_mem_zip hmem
  obtain ⟨hcolumn, htype⟩ := Declaration.mk.inj (hsame.2 hmem)
  refine (h.coherent_part k hk).sameParts (h'.coherent_part k' hk') hcolumn htype ?_
  rw [← Array.toList_inj, h.rows_eq k hk, h'.rows_eq k' hk', hrows]

theorem sameParts_route (h : List.Forall₂ Keyed.SameParts m.parts m'.parts) (column : Nat) :
    (m.route column).SameParts (m'.route column) := by
  have hfind : Option.Rel Keyed.SameParts (m.parts.find? (·.column == column))
      (m'.parts.find? (·.column == column)) :=
    rel_find? h fun k k' hk => by rw [hk.column_eq]
  exact rel_getD hfind (List.forall₂_cons.1 h).1

end MultiKeyed

namespace Storage

variable {s : Schema} {st st' : Storage}

/-- The number of keys of the only index. -/
def keyCount? : Storage → Option Nat
  | keyed k => some k.index.size
  | _ => none

/-- The layout and the rows decide which part answers, but for its nodes. -/
theorem Coherent.rel_part? (h : st.Coherent s) (h' : st'.Coherent s)
    (hlayout : st.layout = st'.layout) (hrecords : st.records = st'.records) (column : Nat) :
    Option.Rel Keyed.SameParts (st.part? column) (st'.part? column) := by
  have hrows : st.rowArray = st'.rowArray := Array.toList_inj.1 hrecords
  cases st with
  | set d =>
    cases st' with
    | keyed k' => simp [layout, keyColumn?] at hlayout
    | multi m' => simp [layout, kind] at hlayout
    | _ => exact .none
  | keyed k =>
    cases st' with
    | keyed k' =>
      obtain ⟨hkind, hcolumn, -⟩ := Layout.mk.inj hlayout
      have htype : k.index.type = k'.index.type := by
        simp only [kind] at hkind
        cases hk : k.index <;> cases hk' : k'.index <;> simp [hk, hk', KeyIndex.type] at hkind ⊢
      exact .some (Keyed.Coherent.sameParts h h' (Option.some.inj hcolumn) htype hrows)
    | _ => simp [layout, keyColumn?] at hlayout
  | multi m =>
    cases st' with
    | keyed k' => simp [layout, keyColumn?] at hlayout
    | multi m' =>
      have hparts := MultiKeyed.Coherent.forall₂_sameParts h h'
        (congrArg Layout.declarations hlayout) hrows
      exact .some (MultiKeyed.sameParts_route hparts column)
    | _ => simp [layout, kind] at hlayout
  | list rows =>
    cases st' with
    | keyed k' => simp [layout, keyColumn?] at hlayout
    | multi m' => simp [layout, kind] at hlayout
    | _ => exact .none

theorem keyCount?_eq_part? (st : Storage) :
    st.keyCount? = st.layout.keyColumn.bind fun column => (st.part? column).map (·.index.size) := by
  cases st <;> rfl

/-- What two storages answer alike. -/
structure SameAnswers (s : Schema) (st st' : Storage) : Prop where
  keyCount?_eq : st.keyCount? = st'.keyCount?
  check_eq : ∀ row, st.check s row = st'.check s row
  sorted_eq : ∀ column, st.sorted column = st'.sorted column
  query_eq : ∀ column op key, st.query s column op key = st'.query s column op key
  queryRange_eq : ∀ column range, st.queryRange s column range = st'.queryRange s column range

/-- The layout and the rows decide every answer, whatever the rows are. -/
theorem Coherent.sameAnswers (h : st.Coherent s) (h' : st'.Coherent s)
    (hlayout : st.layout = st'.layout) (hrecords : st.records = st'.records) :
    SameAnswers s st st' := by
  have hpart := h.rel_part? h' hlayout hrecords
  constructor
  · rw [keyCount?_eq_part?, keyCount?_eq_part?, hlayout]
    refine congrArg (Option.bind _) (funext fun column => ?_)
    exact map_eq_of_option_rel (hpart column) fun _ _ hk => hk.index_same.size_eq
  · intro row
    rw [h.check_eq, h'.check_eq, hlayout, hrecords]
  · intro column
    rw [sorted_eq_part?, sorted_eq_part?, hrecords,
      map_eq_of_option_rel (hpart column) fun _ _ hk => hk.sorted_eq column]
  · intro column op key
    rw [query_eq_part?, query_eq_part?, hrecords,
      map_eq_of_option_rel (hpart column) fun _ _ hk => hk.query_eq s column op key]
  · intro column range
    rw [queryRange_eq_part?, queryRange_eq_part?, hrecords,
      map_eq_of_option_rel (hpart column) fun _ _ hk => hk.queryRange_eq s column range]

end Storage

/-! ### Tables -/

namespace Table

variable {p : Schema → Row → Prop} {t t' : Table}

/-- The number of keys of the only index. -/
def keyCount? (t : Table) : Option Nat :=
  t.storage.keyCount?

/-- What tables answer alike. -/
structure Alike (t t' : Table) : Prop where
  header_eq : t.toHeader = t'.toHeader
  kind_eq : t.kind = t'.kind
  keyColumn?_eq : t.keyColumn? = t'.keyColumn?
  declarations_eq : t.declarations = t'.declarations
  records_eq : t.records = t'.records
  size_eq : t.size = t'.size
  keyCount?_eq : t.keyCount? = t'.keyCount?
  check_eq : ∀ row, t.check row = t'.check row
  sorted_eq : ∀ column, t.sorted column = t'.sorted column
  query_eq : ∀ column op key, t.query column op key = t'.query column op key
  queryRange_eq : ∀ column range, t.queryRange column range = t'.queryRange column range

/-- Two coherent tables with one layout and the same rows, whatever they keep beside. -/
structure SameRows (t t' : Table) : Prop where
  header_eq : t.toHeader = t'.toHeader
  layout_eq : t.layout = t'.layout
  records_eq : t.records = t'.records
  coherent_left : t.storage.Coherent t.schema
  coherent_right : t'.storage.Coherent t.schema

theorem SameRows.alike (h : t.SameRows t') : t.Alike t' := by
  have hanswers := h.coherent_left.sameAnswers h.coherent_right h.layout_eq h.records_eq
  have hrows : t.storage.rowArray = t'.storage.rowArray := Array.toList_inj.1 h.records_eq
  constructor
  · exact h.header_eq
  · exact congrArg Layout.kind h.layout_eq
  · exact congrArg Layout.keyColumn h.layout_eq
  · exact congrArg Layout.declarations h.layout_eq
  · exact h.records_eq
  · exact congrArg Array.size hrows
  · exact hanswers.keyCount?_eq
  · intro row
    rw [check, check, ← h.header_eq]
    exact hanswers.check_eq row
  · exact hanswers.sorted_eq
  · intro column op key
    rw [query, query, result, result, ← h.header_eq, hanswers.query_eq]
  · intro column range
    rw [queryRange, queryRange, result, result, ← h.header_eq, hanswers.queryRange_eq]

/-- The same rows may be added to both storages, each in its own way. -/
theorem SameRows.extend (h : t.SameRows t') {rows : List Row} {st st' : Storage}
    (hext : t.storage.Extends rows st) (hext' : t'.storage.Extends rows st')
    (hcoherent : st.Coherent t.schema) (hcoherent' : st'.Coherent t.schema) :
    ({ t with storage := st } : Table).SameRows { t' with storage := st' } where
  header_eq := h.header_eq
  layout_eq := hext.layout_eq.trans (h.layout_eq.trans hext'.layout_eq.symm)
  records_eq := by
    rw [records, hext.records_eq, records, hext'.records_eq]
    exact congrArg (· ++ rows) h.records_eq
  coherent_left := hcoherent
  coherent_right := hcoherent'

theorem Filled.sameRows (h : t.Filled p) : t.SameRows t :=
  ⟨rfl, rfl, rfl, h.coherent, h.coherent⟩

/-! ### Further insertions -/

/-- An insertion of one row or of several at once. -/
inductive Addition where
  | one (row : Row)
  | many (rows : List Row)

/-- The table after an insertion, with the number of rows that were stored. -/
def add (t : Table) : Addition → Nat × Table
  | .one row => ((t.insert row).1.toNat, (t.insert row).2)
  | .many rows => t.insertAll rows

/-- Each insertion stores as many rows on both sides, and leaves the same rows. -/
theorem SameRows.add (h : t.SameRows t') (a : Addition) :
    (t.add a).1 = (t'.add a).1 ∧ (t.add a).2.SameRows (t'.add a).2 := by
  obtain ⟨header, st⟩ := t
  obtain ⟨header', st'⟩ := t'
  obtain rfl : header = header' := h.header_eq
  cases a with
  | one row =>
    simp only [Table.add, insert]
    split
    · exact ⟨rfl, h⟩
    · exact ⟨rfl, h.extend (st.extends_insert _ row) (st'.extends_insert _ row)
        (h.coherent_left.insert row) (h.coherent_right.insert row)⟩
  | many rows =>
    simp only [Table.add, insertAll]
    split
    · exact ⟨rfl, h⟩
    · exact ⟨rfl, h.extend (st.extends_insertAll _ rows) (st'.extends_insertAll _ rows)
        (h.coherent_left.insertAll rows) (h.coherent_right.insertAll rows)⟩

/-! ### Insertion at once and one by one -/

/-- Rows that are inserted one by one; an alias refuses each. -/
theorem foldl_insert_eq (t : Table) (rows : List Row) :
    rows.foldl (fun t row => (t.insert row).2) t = { t with
      storage := if t.isAlias then t.storage else rows.foldl (·.insert t.schema ·) t.storage } := by
  induction rows generalizing t with
  | nil => simp
  | cons row rows ih =>
    rw [List.foldl_cons, ih, insert_eq]
    cases halias : t.isAlias <;> simp

/-- The rows are the same, though a tree that is loaded has other nodes than one that has grown. -/
theorem Filled.sameRows_insertAll (h : t.Filled p) (rows : List Row) :
    (t.insertAll rows).2.SameRows (rows.foldl (fun t row => (t.insert row).2) t) := by
  rw [insertAll_eq, foldl_insert_eq]
  split
  · exact h.sameRows
  · exact h.sameRows.extend (t.storage.extends_insertAll _ rows)
      (t.storage.extends_foldl_insert _ rows) (h.coherent.insertAll rows)
      (h.coherent.foldl_insert rows)

/-- Inserting rows at once is the same as inserting them one by one: the two tables are alike, and
after any further insertions they have stored as many rows and are still alike.  All rows are
stored, unless the table is an alias, which stores none either way. -/
theorem Filled.insertAll_alike (h : t.Filled p) (rows : List Row) (later : List Addition) :
    let bulk := t.insertAll rows
    let single := rows.foldl (fun t row => (t.insert row).2) t
    (t.isAlias = false → bulk.1 = rows.length ∧ bulk.2.records = t.records ++ rows) ∧
      (t.isAlias → bulk = (0, t) ∧ single = t) ∧
      bulk.2.Alike single ∧
      (replay add bulk.2 later).1 = (replay add single later).1 ∧
      (replay add bulk.2 later).2.Alike (replay add single later).2 := by
  intro bulk single
  have hsame : bulk.2.SameRows single := h.sameRows_insertAll rows
  obtain ⟨hcounts, hlast⟩ := replay_related (fun _ _ a h => h.add a) hsame later
  refine ⟨fun hbase => ?_, fun halias => ⟨if_pos halias, ?_⟩, hsame.alike, hcounts, hlast.alike⟩
  · obtain ⟨hcount, -, -, hrecords⟩ := insertAll_stores hbase rows
    exact ⟨hcount, hrecords⟩
  · simp only [single, foldl_insert_eq, halias, if_true]

/-- An alias of a table does not store the row that it is given. -/
theorem insertAll_refused :
    let s : Schema := ⟨"t", [⟨"k", .int⟩], none⟩
    let t : Table := { Header.base "t" s with storage := .keyed (.tree 0 .standard) }
    let rows : List Row := [[.int 1]]
    (t.aliased "a").Filled (fun _ _ => True) ∧ (t.aliased "a").kind = .tree ∧
      ((t.aliased "a").insertAll rows).1 ≠ rows.length := by
  intro s t rows
  refine ⟨.aliased (.empty (?_ : Table.empty .tree "t" s none [] .standard = .ok t)) _, ?_, ?_⟩
  · rfl
  · rfl
  · decide

/-- A tree whose nodes hold three entries is loaded with eight rows: one without a key, one without
any value, and two with the key of another. -/
theorem insertAll_alike_loaded :
    let s : Schema := ⟨"t", [⟨"id", .int⟩, ⟨"k", .int⟩], some 0⟩
    let t : Table := { Header.base "t" s with storage := .keyed (.tree 1 (.ofSizes 3 3)) }
    let rows : List Row := [[.int 1, .int 5], [.int 2, .null], [.int 1, .int 4], [],
      [.int 3, .int 5], [.int 4, .text "a"], [.null, .int 5, .int 0], [.int 6, .int 1]]
    let bulk := t.insertAll rows
    let single := rows.foldl (fun t row => (t.insert row).2) t
    let later : List Addition := [.one [.int 7, .int 4], .many [[.int 8], [.int 9, .int 2]]]
    t.Filled (fun _ _ => True) ∧ bulk.1 = 8 ∧ bulk.2.keyCount? = some 4 ∧ bulk.2.Alike single ∧
      bulk.2.sorted 1 = [[.int 2, .null], [], [.int 6, .int 1], [.int 1, .int 4], [.int 1, .int 5],
        [.int 3, .int 5], [.null, .int 5, .int 0], [.int 4, .text "a"]] ∧
      (replay add bulk.2 later).1 = [1, 2] ∧
      (replay add bulk.2 later).2.Alike (replay add single later).2 := by
  intro s t rows bulk single later
  have hfilled : t.Filled fun _ _ => True := by
    refine .empty (?_ : Table.empty .tree "t" s (some 1) [] (.ofSizes 3 3) = .ok t)
    rfl
  obtain ⟨hbase, -, halike, -, hlater⟩ := hfilled.insertAll_alike rows later
  -- The kernel evaluates the tree that has grown, which answers for the loaded one.
  have hcount : single.keyCount? = some 4 := by decide +kernel
  have hsorted : single.sorted 1 = [[.int 2, .null], [], [.int 6, .int 1], [.int 1, .int 4],
      [.int 1, .int 5], [.int 3, .int 5], [.null, .int 5, .int 0], [.int 4, .text "a"]] := by
    decide +kernel
  exact ⟨hfilled, (hbase rfl).1, halike.keyCount?_eq.trans hcount, halike,
    (halike.sorted_eq 1).trans hsorted, by decide +kernel, hlater⟩

end Table

end RelStore
