import RelStore.Proofs.Table.Basic
import RelStore.Table.Shelf

/-!
# Tables on a shelf

A handle shows the storage in its cell under its own header (`Shelf.table?_eq_some_iff`).  Tables
with one storage give the same answers whatever their names are (`Table.mirrors_of_renamed`).  A new
cell does not disturb the handles on the old ones, and a changed cell is seen through the handles on
it and through no others (`Shelf.table?_set`).
-/

namespace RelStore

/-! ### What tables show -/

/-- A table that gives every answer of another one, under its own header. -/
structure Table.Mirrors (view base : Table) : Prop where
  records_eq : view.records = base.records
  size_eq : view.size = base.size
  sorted_eq : ∀ column, view.sorted column = base.sorted column
  check_eq : ∀ row, view.check row = base.check row
  query_eq : ∀ column op key,
    view.query column op key = view.result (base.query column op key).rows
  queryRange_eq : ∀ column range,
    view.queryRange column range = view.result (base.queryRange column range).rows

/-- The name of a table does not matter for its answers. -/
theorem Table.mirrors_of_renamed {view base : Table} (hstorage : view.storage = base.storage)
    (hschema : view.schema = base.schema.renamed view.schema.table) : view.Mirrors base where
  records_eq := congrArg Storage.records hstorage
  size_eq := congrArg Storage.size hstorage
  sorted_eq column := congrArg (·.sorted column) hstorage
  check_eq row := by
    rw [Table.check, hschema, hstorage]
    rfl
  query_eq column op key := by
    rw [Table.query, hschema, hstorage]
    rfl
  queryRange_eq column range := by
    rw [Table.queryRange, hschema, hstorage]
    rfl

/-- An insertion that an alias refuses. -/
structure Table.Inserts {α : Type} (insert : Table → α × Table) (rows : List Row)
    (done refused : α) : Prop where
  alias_eq : ∀ t, t.isAlias → insert t = (refused, t)
  base_eq : ∀ t, t.isAlias = false →
    (insert t).1 = done ∧ (insert t).2.records = t.records ++ rows

theorem Table.inserts_insert (row : Row) : Table.Inserts (·.insert row) [row] true false where
  alias_eq _ h := if_pos h
  base_eq _ h :=
    have hstores := Table.insert_stores h row
    ⟨hstores.1, hstores.2.2.2⟩

theorem Table.inserts_insertAll (rows : List Row) :
    Table.Inserts (·.insertAll rows) rows rows.length 0 where
  alias_eq _ h := if_pos h
  base_eq _ h :=
    have hstores := Table.insertAll_stores h rows
    ⟨hstores.1, hstores.2.2.2⟩

/-! ### Shelves -/

namespace Shelf

variable {α : Type} {s : Shelf} {h g : Handle} {t : Table}

theorem exists_table? (hlt : h.cell < s.cells.size) : ∃ t, s.table? h = some t :=
  ⟨_, congrArg (Option.map _) (Array.getElem?_eq_getElem hlt)⟩

theorem cell_lt_of_table? (ht : s.table? h = some t) : h.cell < s.cells.size := by
  obtain ⟨storage, hcell, -⟩ := Option.map_eq_some_iff.1 ht
  exact (Array.getElem?_eq_some_iff.1 hcell).1

theorem table?_eq_some_iff :
    s.table? h = some t ↔ s.cells[h.cell]? = some t.storage ∧ t.toHeader = h.toHeader := by
  rw [table?, Option.map_eq_some_iff]
  constructor
  · rintro ⟨storage, hcell, rfl⟩
    exact ⟨hcell, rfl⟩
  · rintro ⟨hcell, hheader⟩
    exact ⟨t.storage, hcell, by rw [← hheader]⟩

theorem table?_place_of_lt (t : Table) (hlt : h.cell < s.cells.size) :
    (s.place t).2.table? h = s.table? h := by
  rw [table?, place, Array.getElem?_push, if_neg (Nat.ne_of_lt hlt)]
  rfl

theorem table?_place_self (s : Shelf) (t : Table) : (s.place t).2.table? (s.place t).1 = some t :=
  table?_eq_some_iff.2 ⟨Array.getElem?_push_size, rfl⟩

theorem update_eq (insert : Table → α × Table) (ht : s.table? g = some t) :
    s.update g insert =
      some ((insert t).1, ⟨s.cells.setIfInBounds g.cell (insert t).2.storage⟩) := by
  rw [update, ht]
  rfl

/-- A changed cell is seen through the handles on it, and through no others. -/
theorem table?_set (ht : s.table? h = some t) (cell : Nat) (storage : Storage) :
    (⟨s.cells.setIfInBounds cell storage⟩ : Shelf).table? h =
      some (if cell = h.cell then { t with storage } else t) := by
  obtain ⟨hcell, hheader⟩ := table?_eq_some_iff.1 ht
  have hlt := cell_lt_of_table? ht
  rw [table?_eq_some_iff, Array.getElem?_setIfInBounds]
  split
  · next heq => exact ⟨if_pos (heq ▸ hlt), hheader⟩
  · exact ⟨hcell, hheader⟩

/-- A handle shows the rows that it showed before, and then some others. -/
def Gains (s : Shelf) (h : Handle) (view : Table) (rows : List Row) : Prop :=
  ∃ view', s.table? h = some view' ∧ view'.toHeader = view.toHeader ∧
    view'.records = view.records ++ rows

theorem gains_nil (ht : s.table? h = some t) : s.Gains h t [] :=
  ⟨t, ht, rfl, (List.append_nil _).symm⟩

end Shelf

end RelStore
