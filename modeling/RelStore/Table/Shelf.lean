import RelStore.Table.Basic

/-!
# Shared tables

A shelf holds storages in numbered cells.  A handle is a header together with a cell, so that a
table and its aliases are handles on one cell: what is inserted through the table is seen at once
through all of them.  `Shelf.table?` is the table that a handle stands for at the moment.
`Shelf.snapshot` copies a cell, after which the copy and the rest go their own ways.

A table has one cell also if it has an index on each of several columns.  Each of its parts has rows
and an index of its own, which an alias shares part by part; but a row goes into all parts or none
(`MultiKeyed.insert`), and only through the table, so that the parts share together what one cell
shares.
-/

namespace RelStore

/-- A name for the rows in a cell of a shelf. -/
structure Handle extends Header where
  cell : Nat
deriving DecidableEq, Inhabited

/-- Another name for the rows of a handle. -/
def Handle.aliased (h : Handle) (name : String) : Handle where
  toHeader := h.toHeader.aliased name
  cell := h.cell

/-- Storages that handles share. -/
structure Shelf where
  cells : Array Storage := #[]
deriving Inhabited

namespace Shelf

/-- The table that a handle stands for. -/
def table? (s : Shelf) (h : Handle) : Option Table :=
  s.cells[h.cell]?.map fun storage => { h.toHeader with storage }

/-- Puts a table's storage into a new cell. -/
def place (s : Shelf) (t : Table) : Handle × Shelf :=
  ({ t.toHeader with cell := s.cells.size }, { cells := s.cells.push t.storage })

/-- Changes the table that a handle stands for, with a result. -/
def update {α : Type} (s : Shelf) (h : Handle) (f : Table → α × Table) : Option (α × Shelf) :=
  (s.table? h).map fun t =>
    let (a, t) := f t
    (a, { cells := s.cells.setIfInBounds h.cell t.storage })

/-- Inserts a row through a handle. -/
def insert (s : Shelf) (h : Handle) (row : Row) : Option (Bool × Shelf) :=
  s.update h (·.insert row)

/-- Inserts rows through a handle. -/
def insertAll (s : Shelf) (h : Handle) (rows : List Row) : Option (Nat × Shelf) :=
  s.update h (·.insertAll rows)

/-- Copies the rows of a handle into a new cell, under the same name. -/
def snapshot (s : Shelf) (h : Handle) : Option (Handle × Shelf) :=
  (s.table? h).map fun t => s.place { t with isAlias := false }

end Shelf

end RelStore
