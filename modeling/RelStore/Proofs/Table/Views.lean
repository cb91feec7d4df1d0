import RelStore.Proofs.BTree.Map
import RelStore.Proofs.Table.Shelf

/-!
# Aliases and copies of tables

`Desk` is a shelf together with the handles that were given out on it.  `TableAction` lists what can
be done with them: making a table, giving it another name, inserting through a handle, copying a
table and taking its rows.  `Desk.replay_seen` says what one sees through a handle after any
sequence of actions.

A cell of the shelf has one handle that is no alias, the base of all handles on the cell, and only
an insertion through the base changes the cell (`Desk.Valid`, `Desk.Effect.gains`).  So an alias
always shows the rows of its base, and a copy, which has a cell of its own, only gets the rows that
are inserted through itself.
-/

namespace RelStore

/-! ### Actions -/

/-- An action on tables that are numbered as they come. -/
inductive TableAction where
  /-- Makes a table without rows. -/
  | create (kind : TableKind) (name : String) (schema : Schema) (keyColumn : Option Nat)
      (declarations : List Declaration) (shape : Shape)
  /-- Makes a list of the rows of a relation. -/
  | list (r : Relation)
  /-- Gives a table another name. -/
  | aliased (i : Nat) (name : String)
  | insert (i : Nat) (row : Row)
  | insertAll (i : Nat) (rows : List Row)
  /-- Copies a table. -/
  | copy (i : Nat)
  /-- Takes the rows of a table, and gives the table up. -/
  | intoRows (i : Nat)

namespace TableAction

/-- The rows that an action inserts through a handle. -/
def rowsFor : TableAction → Nat → List Row
  | insert i row, b => if i = b then [row] else []
  | insertAll i rows, b => if i = b then rows else []
  | _, _ => []

/-- Whether an action gives a table up. -/
def takes : TableAction → Nat → Bool
  | intoRows i, b => i == b
  | _, _ => false

end TableAction

/-- What an action answers. -/
inductive TableAnswer where
  | made
  | failed (e : Error)
  | stored (success : Bool)
  | count (stored : Nat)
  | rows (rows : List Row)
  /-- There is no table of the number, or it was given up. -/
  | missing

/-- A shelf with the handles on it. -/
structure Desk where
  shelf : Shelf := {}
  /-- The handles in the order in which they were given out. -/
  handles : List Handle := []
  /-- The numbers of the tables that were given up. -/
  spent : List Nat := []

namespace Desk

/-- The handle of a number, unless it was given up. -/
def handle? (d : Desk) (i : Nat) : Option Handle :=
  if i ∈ d.spent then none else d.handles[i]?

/-- Gives out a handle on a shelf. -/
def add (d : Desk) (made : Handle × Shelf) : Desk :=
  { d with shelf := made.2, handles := d.handles ++ [made.1] }

/-- Changes the shelf by an insertion through a handle. -/
def write {α : Type} (d : Desk) (i : Nat) (insert : Shelf → Handle → Option (α × Shelf))
    (answer : α → TableAnswer) : TableAnswer × Desk :=
  match (d.handle? i).bind (insert d.shelf) with
  | some (a, shelf) => (answer a, { d with shelf })
  | none => (.missing, d)

/-- The answer to an action, and the desk after it. -/
def act (d : Desk) : TableAction → TableAnswer × Desk
  | .create kind name schema keyColumn declarations shape =>
    match Table.empty kind name schema keyColumn declarations shape with
    | .ok t => (.made, d.add (d.shelf.place t))
    | .error e => (.failed e, d)
  | .list r => (.made, d.add (d.shelf.place (.ofRelation r)))
  | .aliased i name =>
    match d.handle? i with
    | some h => (.made, d.add (h.aliased name, d.shelf))
    | none => (.missing, d)
  | .insert i row => d.write i (·.insert · row) .stored
  | .insertAll i rows => d.write i (·.insertAll · rows) .count
  | .copy i =>
    match (d.handle? i).bind d.shelf.snapshot with
    | some made => (.made, d.add made)
    | none => (.missing, d)
  | .intoRows i =>
    match (d.handle? i).bind d.shelf.table? with
    | some t => (.rows t.records, { d with spent := i :: d.spent })
    | none => (.missing, d)

/-- The rows that actions insert through a handle before it is given up. -/
def inserted (d : Desk) (b : Nat) (actions : List TableAction) : List Row :=
  if b ∈ d.spent then []
  else (actions.takeWhile fun a => !a.takes b).flatMap (·.rowsFor b)

end Desk

namespace Desk

/-! ### Bases -/

/-- A handle and the one that rows are inserted through for it. -/
structure IsBase (d : Desk) (b : Nat) (base h : Handle) : Prop where
  handle_eq : d.handles[b]? = some base
  not_alias : base.isAlias = false
  cell_eq : base.cell = h.cell
  schema_eq : h.schema = base.schema.renamed h.schema.table

/-- Every handle has exactly one base, and every alias its own name. -/
structure Valid (d : Desk) : Prop where
  cell_lt : ∀ h ∈ d.handles, h.cell < d.shelf.cells.size
  exists_base : ∀ h ∈ d.handles, ∃ b base, d.IsBase b base h
  base_unique : ∀ {b b' : Nat} {base base' : Handle}, d.handles[b]? = some base →
    d.handles[b']? = some base' → base.isAlias = false → base'.isAlias = false →
      base.cell = base'.cell → b = b'
  named : ∀ h ∈ d.handles, h.isAlias → h.schema.table = h.name ∧ h.sources = .single h.name
  spent_lt : ∀ i ∈ d.spent, i < d.handles.length

variable {α : Type} {d : Desk} {i b : Nat} {h g base : Handle} {view : Table}

theorem handle?_eq_some_iff : d.handle? i = some h ↔ i ∉ d.spent ∧ d.handles[i]? = some h := by
  unfold handle?
  split
  · next hspent => simp [hspent]
  · next hspent => simp [hspent]

theorem handles_add_eq_some_iff {made : Handle × Shelf} :
    (d.add made).handles[i]? = some h ↔
      d.handles[i]? = some h ∨ i = d.handles.length ∧ made.1 = h := by
  rw [add, List.getElem?_append]
  split
  · next hlt => simp [Nat.ne_of_lt hlt]
  · next hge =>
    have hnone : d.handles[i]? = none := List.getElem?_eq_none (Nat.le_of_not_lt hge)
    rw [hnone, List.getElem?_singleton]
    split <;> simp <;> omega

/-- A base remains one as long as its handle does. -/
theorem IsBase.of_handles {d' : Desk} (hb : d.IsBase b base h) (hbase : d'.handles[b]? = some base) :
    d'.IsBase b base h :=
  ⟨hbase, hb.not_alias, hb.cell_eq, hb.schema_eq⟩

theorem IsBase.add (hb : d.IsBase b base h) (made : Handle × Shelf) :
    (d.add made).IsBase b base h :=
  hb.of_handles (handles_add_eq_some_iff.2 (.inl hb.handle_eq))

theorem valid_empty : ({} : Desk).Valid where
  cell_lt _ h := absurd h List.not_mem_nil
  exists_base _ h := absurd h List.not_mem_nil
  base_unique h := absurd h (by simp)
  named _ h := absurd h List.not_mem_nil
  spent_lt _ h := absurd h List.not_mem_nil

namespace Valid

/-- A new handle is the last. -/
theorem handle?_add (hd : d.Valid) (made : Handle × Shelf) :
    (d.add made).handle? d.handles.length = some made.1 := by
  refine handle?_eq_some_iff.2 ⟨fun hspent => ?_, List.getElem?_concat_length⟩
  exact Nat.lt_irrefl _ (hd.spent_lt _ hspent)

/-- A new table has a cell of its own. -/
theorem add_place (hd : d.Valid) {t : Table} (ht : t.isAlias = false) :
    (d.add (d.shelf.place t)).Valid := by
  have hsize : (d.add (d.shelf.place t)).shelf.cells.size = d.shelf.cells.size + 1 :=
    Array.size_push _
  -- No handle was on the new cell.
  have hnew : ∀ {b : Nat} {base : Handle}, d.handles[b]? = some base →
      base.cell ≠ (d.shelf.place t).1.cell :=
    fun hb => Nat.ne_of_lt (hd.cell_lt _ (List.mem_of_getElem? hb))
  constructor
  · rw [hsize]
    refine List.forall_mem_append.2 ⟨fun h hh => Nat.lt_succ_of_lt (hd.cell_lt h hh), ?_⟩
    exact List.forall_mem_singleton.2 (Nat.lt_succ_self _)
  · refine List.forall_mem_append.2 ⟨fun h hh => ?_, List.forall_mem_singleton.2 ?_⟩
    · obtain ⟨b, base, hb⟩ := hd.exists_base h hh
      exact ⟨b, base, hb.add _⟩
    · exact ⟨d.handles.length, _, handles_add_eq_some_iff.2 (.inr ⟨rfl, rfl⟩), ht, rfl, rfl⟩
  · intro b b' base base' hb hb' hbase hbase' hcell
    rw [handles_add_eq_some_iff] at hb hb'
    rcases hb with hb | ⟨rfl, rfl⟩
    · rcases hb' with hb' | ⟨rfl, rfl⟩
      · exact hd.base_unique hb hb' hbase hbase' hcell
      · exact absurd hcell (hnew hb)
    · rcases hb' with hb' | ⟨rfl, -⟩
      · exact absurd hcell.symm (hnew hb')
      · rfl
  · refine List.forall_mem_append.2 ⟨hd.named, List.forall_mem_singleton.2 fun halias => ?_⟩
    exact absurd (ht.symm.trans halias) Bool.false_ne_true
  · intro i hi
    rw [add, List.length_append]
    exact Nat.lt_succ_of_lt (hd.spent_lt i hi)

/-- An alias has the base of the handle that it is made of. -/
theorem isBase_aliased (hb : d.IsBase b base h) (name : String) :
    (d.add (h.aliased name, d.shelf)).IsBase b base (h.aliased name) where
  handle_eq := handles_add_eq_some_iff.2 (.inl hb.handle_eq)
  not_alias := hb.not_alias
  cell_eq := hb.cell_eq
  schema_eq := congrArg (·.renamed name) hb.schema_eq

theorem add_aliased (hd : d.Valid) (hmem : h ∈ d.handles) (name : String) :
    (d.add (h.aliased name, d.shelf)).Valid := by
  constructor
  · exact List.forall_mem_append.2 ⟨hd.cell_lt, List.forall_mem_singleton.2 (hd.cell_lt h hmem)⟩
  · refine List.forall_mem_append.2 ⟨fun g hg => ?_, List.forall_mem_singleton.2 ?_⟩
    · obtain ⟨b, base, hb⟩ := hd.exists_base g hg
      exact ⟨b, base, hb.add _⟩
    · obtain ⟨b, base, hb⟩ := hd.exists_base h hmem
      exact ⟨b, base, isBase_aliased hb name⟩
  · intro b b' base base' hb hb' hbase hbase' hcell
    -- The new handle is an alias, so that both bases were there before.
    have hold : ∀ {b : Nat} {base : Handle},
        (d.add (h.aliased name, d.shelf)).handles[b]? = some base → base.isAlias = false →
          d.handles[b]? = some base := by
      intro b base hb hbase
      rcases handles_add_eq_some_iff.1 hb with hb | ⟨-, rfl⟩
      · exact hb
      · exact absurd hbase.symm Bool.false_ne_true
    exact hd.base_unique (hold hb hbase) (hold hb' hbase') hbase hbase' hcell
  · exact List.forall_mem_append.2 ⟨hd.named, List.forall_mem_singleton.2 fun _ => ⟨rfl, rfl⟩⟩
  · intro i hi
    rw [add, List.length_append]
    exact Nat.lt_succ_of_lt (hd.spent_lt i hi)

/-- An insertion adds no cell and no handle. -/
theorem of_cells (hd : d.Valid) {shelf : Shelf} (hsize : shelf.cells.size = d.shelf.cells.size) :
    ({ d with shelf } : Desk).Valid where
  cell_lt h hh := hsize.symm ▸ hd.cell_lt h hh
  exists_base h hh := by
    obtain ⟨b, base, hb⟩ := hd.exists_base h hh
    exact ⟨b, base, hb.of_handles hb.handle_eq⟩
  base_unique := hd.base_unique
  named := hd.named
  spent_lt := hd.spent_lt

end Valid

/-! ### Insertions -/

variable {insert : Table → α × Table} {rows : List Row} {done refused : α}
  {answer : α → TableAnswer}

@[simp] theorem handles_write (d : Desk) (i : Nat) (f : Shelf → Handle → Option (α × Shelf)) :
    (d.write i f answer).2.handles = d.handles := by
  unfold write
  split <;> rfl

@[simp] theorem spent_write (d : Desk) (i : Nat) (f : Shelf → Handle → Option (α × Shelf)) :
    (d.write i f answer).2.spent = d.spent := by
  unfold write
  split <;> rfl

theorem write_missing (hg : d.handle? i = none) :
    d.write i (·.update · insert) answer = (.missing, d) := by
  rw [write, hg]
  rfl

/-- An insertion through a handle changes the cell of the handle. -/
theorem write_eq (insert : Table → α × Table) (answer : α → TableAnswer) (hg : d.handle? i = some g)
    (ht : d.shelf.table? g = some view) :
    d.write i (·.update · insert) answer = (answer (insert view).1,
      { d with shelf := ⟨d.shelf.cells.setIfInBounds g.cell (insert view).2.storage⟩ }) := by
  simp only [write, hg, Option.bind_some, Shelf.update_eq insert ht]

/-- An alias refuses, and nothing changes. -/
theorem write_alias (hi : Table.Inserts insert rows done refused) (hg : d.handle? i = some g)
    (ht : d.shelf.table? g = some view) (halias : g.isAlias) :
    d.write i (·.update · insert) answer = (answer refused, d) := by
  obtain ⟨hcell, hheader⟩ := Shelf.table?_eq_some_iff.1 ht
  have hview : view.isAlias := (congrArg Header.isAlias hheader).trans halias
  obtain ⟨hlt, hget⟩ := Array.getElem?_eq_some_iff.1 hcell
  have hset : d.shelf.cells.setIfInBounds g.cell view.storage = d.shelf.cells := by
    rw [← hget, Array.setIfInBounds_def, dif_pos hlt, Array.set_getElem_self]
  rw [write_eq insert answer hg ht, hi.alias_eq view hview, hset]

/-- A base stores the rows, and they are seen through the handles on its cell. -/
theorem write_base (answer : α → TableAnswer) (hi : Table.Inserts insert rows done refused)
    (hg : d.handle? i = some g) (ht : d.shelf.table? g = some view) (hbase : g.isAlias = false) :
    ∃ storage : Storage, storage.records = view.records ++ rows ∧
      d.write i (·.update · insert) answer =
        (answer done, { d with shelf := ⟨d.shelf.cells.setIfInBounds g.cell storage⟩ }) := by
  have hheader := (Shelf.table?_eq_some_iff.1 ht).2
  have hview : view.isAlias = false := (congrArg Header.isAlias hheader).trans hbase
  obtain ⟨hdone, hrecords⟩ := hi.base_eq view hview
  exact ⟨_, hrecords, by rw [write_eq insert answer hg ht, hdone]⟩

namespace Valid

theorem exists_table? (hd : d.Valid) (hh : d.handle? i = some h) :
    ∃ view, d.shelf.table? h = some view :=
  Shelf.exists_table? (hd.cell_lt h (List.mem_of_getElem? (handle?_eq_some_iff.1 hh).2))

theorem write (hd : d.Valid) (hi : Table.Inserts insert rows done refused) :
    (d.write i (·.update · insert) answer).2.Valid := by
  cases hg : d.handle? i with
  | none => rwa [write_missing hg]
  | some g =>
    obtain ⟨view, ht⟩ := hd.exists_table? hg
    cases halias : g.isAlias with
    | true => rwa [write_alias hi hg ht halias]
    | false =>
      obtain ⟨storage, -, hwrite⟩ := write_base answer hi hg ht halias
      rw [hwrite]
      exact hd.of_cells Array.size_setIfInBounds

/-- An insertion is seen through the handles that it is made through the base of. -/
theorem gains_write (hd : d.Valid) (hi : Table.Inserts insert rows done refused)
    (hb : d.IsBase b base h) (ht : d.shelf.table? h = some view) :
    (d.write i (·.update · insert) answer).2.shelf.Gains h view
      (if b ∈ d.spent then [] else if i = b then rows else []) := by
  have hnone : d.handle? i = none → b ∈ d.spent ∨ i ≠ b := by
    intro hg
    by_contra hnot
    obtain ⟨hspent, rfl⟩ := not_or.1 hnot |>.imp_right Decidable.not_not.1
    rw [handle?_eq_some_iff.2 ⟨hspent, hb.handle_eq⟩] at hg
    contradiction
  cases hg : d.handle? i with
  | none =>
    rw [write_missing hg]
    rcases hnone hg with hspent | hne
    · rw [if_pos hspent]
      exact Shelf.gains_nil ht
    · rw [if_neg hne, ite_self]
      exact Shelf.gains_nil ht
  | some g =>
    obtain ⟨hfree, hhandle⟩ := handle?_eq_some_iff.1 hg
    obtain ⟨t, hgt⟩ := hd.exists_table? hg
    cases halias : g.isAlias with
    | true =>
      have hne : i ≠ b := by
        rintro rfl
        rw [Option.some.inj (hhandle.symm.trans hb.handle_eq), hb.not_alias] at halias
        contradiction
      rw [write_alias hi hg hgt halias, if_neg hne, ite_self]
      exact Shelf.gains_nil ht
    | false =>
      obtain ⟨storage, hrecords, hwrite⟩ := write_base answer hi hg hgt halias
      have hview := Shelf.table?_set ht g.cell storage
      rw [hwrite]
      by_cases heq : i = b
      · subst heq
        obtain rfl := Option.some.inj (hhandle.symm.trans hb.handle_eq)
        rw [if_pos hb.cell_eq] at hview
        rw [if_neg hfree, if_pos rfl]
        refine ⟨_, hview, rfl, ?_⟩
        -- The base and the handle are on one cell, and so show the same rows.
        have hsame := (Shelf.table?_eq_some_iff.1 hgt).1
        rw [hb.cell_eq, (Shelf.table?_eq_some_iff.1 ht).1] at hsame
        exact hrecords.trans (congrArg (Storage.records · ++ rows) (Option.some.inj hsame).symm)
      · have hcell : g.cell ≠ h.cell := fun hcell => heq <|
          hd.base_unique hhandle hb.handle_eq halias hb.not_alias (hcell.trans hb.cell_eq.symm)
        rw [if_neg hcell] at hview
        rw [if_neg heq, ite_self]
        exact Shelf.gains_nil hview

end Valid

/-! ### Single actions -/

/-- What an action does to a desk. -/
inductive Effect (d : Desk) : TableAction → Desk → Prop
  | nothing {a : TableAction} (hrows : a.rowsFor = fun _ => []) (htakes : a.takes = fun _ => false) :
      Effect d a d
  | place {a : TableAction} (hrows : a.rowsFor = fun _ => []) (htakes : a.takes = fun _ => false)
      {t : Table} (ht : t.isAlias = false) : Effect d a (d.add (d.shelf.place t))
  | aliased {i : Nat} {h : Handle} (hh : d.handle? i = some h) (name : String) :
      Effect d (.aliased i name) (d.add (h.aliased name, d.shelf))
  | write {a : TableAction} {i : Nat} {rows : List Row}
      (hrows : a.rowsFor = fun b => if i = b then rows else []) (htakes : a.takes = fun _ => false)
      {α : Type} {insert : Table → α × Table} {done refused : α}
      (hi : Table.Inserts insert rows done refused) (answer : α → TableAnswer) :
      Effect d a (d.write i (·.update · insert) answer).2
  | missing {i : Nat} (hh : d.handle? i = none) : Effect d (.intoRows i) d
  | spend {i : Nat} {h : Handle} (hh : d.handle? i = some h) :
      Effect d (.intoRows i) { d with spent := i :: d.spent }

theorem Valid.effect_act (hd : d.Valid) (a : TableAction) : d.Effect a (d.act a).2 := by
  cases a with
  | create kind name schema keyColumn declarations shape =>
    simp only [act]
    split
    · next t hmake =>
      have halias : t.isAlias = false := by
        rw [(Table.isEmpty_of_empty hmake).header_eq]
        rfl
      exact .place rfl rfl halias
    · exact .nothing rfl rfl
  | list r => exact .place rfl rfl rfl
  | aliased i name =>
    simp only [act]
    split
    · next h hh => exact .aliased hh name
    · exact .nothing rfl rfl
  | insert i row => exact .write rfl rfl (Table.inserts_insert row) .stored
  | insertAll i rows => exact .write rfl rfl (Table.inserts_insertAll rows) .count
  | copy i =>
    simp only [act]
    split
    · next made hmade =>
      obtain ⟨h, -, hcopy⟩ := Option.bind_eq_some_iff.1 hmade
      obtain ⟨t, -, rfl⟩ := Option.map_eq_some_iff.1 hcopy
      exact .place rfl rfl rfl
    · exact .nothing rfl rfl
  | intoRows i =>
    simp only [act]
    cases hh : d.handle? i with
    | none => exact .missing hh
    | some h =>
      obtain ⟨view, ht⟩ := hd.exists_table? hh
      rw [Option.bind_some, ht]
      exact .spend hh

namespace Effect

variable {d' : Desk} {a : TableAction}

theorem valid (he : d.Effect a d') (hd : d.Valid) : d'.Valid := by
  cases he with
  | nothing => exact hd
  | place _ _ ht => exact hd.add_place ht
  | aliased hh name => exact hd.add_aliased (List.mem_of_getElem? (handle?_eq_some_iff.1 hh).2) name
  | write _ _ hi answer => exact hd.write hi
  | missing => exact hd
  | spend hh =>
    refine ⟨hd.cell_lt, fun h hh => ?_, hd.base_unique, hd.named, ?_⟩
    · obtain ⟨b, base, hb⟩ := hd.exists_base h hh
      exact ⟨b, base, hb.of_handles hb.handle_eq⟩
    · have hhandle := (handle?_eq_some_iff.1 hh).2
      exact List.forall_mem_cons.2 ⟨(List.getElem?_eq_some_iff.1 hhandle).1, hd.spent_lt⟩

/-- Handles are only added. -/
theorem handles_eq (he : d.Effect a d') (hh : d.handles[i]? = some h) : d'.handles[i]? = some h := by
  cases he with
  | nothing => exact hh
  | place => exact handles_add_eq_some_iff.2 (.inl hh)
  | aliased => exact handles_add_eq_some_iff.2 (.inl hh)
  | write => rwa [handles_write]
  | missing => exact hh
  | spend => exact hh

theorem mem_spent_iff (he : d.Effect a d') (hb : d.handles[b]? = some base) :
    b ∈ d'.spent ↔ b ∈ d.spent ∨ a.takes b := by
  cases he with
  | nothing _ htakes => simp [htakes]
  | place _ htakes => simp [htakes, add]
  | aliased => simp [TableAction.takes, add]
  | write _ htakes => simp [htakes]
  | @missing i hh =>
    refine (or_iff_left_of_imp fun htakes => ?_).symm
    obtain rfl : i = b := eq_of_beq htakes
    by_contra hspent
    rw [handle?_eq_some_iff.2 ⟨hspent, hb⟩] at hh
    contradiction
  | @spend i => simp [TableAction.takes, or_comm, eq_comm (a := i)]

/-- Through a handle one sees after an action what one saw before, and the rows that the action
inserts through its base. -/
theorem gains (he : d.Effect a d') (hd : d.Valid) (hb : d.IsBase b base h)
    (ht : d.shelf.table? h = some view) :
    d'.shelf.Gains h view (if b ∈ d.spent then [] else a.rowsFor b) := by
  cases he with
  | nothing hrows =>
    rw [hrows, ite_self]
    exact Shelf.gains_nil ht
  | place hrows =>
    rw [hrows, ite_self]
    exact Shelf.gains_nil ((Shelf.table?_place_of_lt _ (Shelf.cell_lt_of_table? ht)).trans ht)
  | aliased =>
    simp only [TableAction.rowsFor, ite_self]
    exact Shelf.gains_nil ht
  | write hrows _ hi answer =>
    rw [hrows]
    exact hd.gains_write hi hb ht
  | missing =>
    simp only [TableAction.rowsFor, ite_self]
    exact Shelf.gains_nil ht
  | spend =>
    simp only [TableAction.rowsFor, ite_self]
    exact Shelf.gains_nil ht

theorem inserted_cons (he : d.Effect a d') (hb : d.handles[b]? = some base)
    (actions : List TableAction) :
    d.inserted b (a :: actions) =
      (if b ∈ d.spent then [] else a.rowsFor b) ++ d'.inserted b actions := by
  have hspent := he.mem_spent_iff hb
  have hrows : a.takes b → a.rowsFor b = [] := by
    cases a with
    | intoRows i => exact fun _ => rfl
    | _ => exact fun h => absurd h Bool.false_ne_true
  by_cases hgone : b ∈ d.spent
  · simp [inserted, hgone, hspent]
  · by_cases htakes : a.takes b
    · simp [inserted, hgone, hspent, htakes, hrows htakes]
    · simp [inserted, hgone, hspent, htakes]

end Effect

/-! ### Runs -/

namespace Valid

theorem act (hd : d.Valid) (a : TableAction) : (d.act a).2.Valid :=
  (hd.effect_act a).valid hd

/-- Through a handle one sees after any actions what one saw before, and the rows that the actions
inserted through its base. -/
theorem gains_replay (hd : d.Valid) (hb : d.IsBase b base h) (hh : d.handles[i]? = some h)
    (ht : d.shelf.table? h = some view) (actions : List TableAction) :
    (replay Desk.act d actions).2.handles[i]? = some h ∧
      (replay Desk.act d actions).2.shelf.Gains h view (d.inserted b actions) := by
  induction actions generalizing d view with
  | nil =>
    have hnil : d.inserted b [] = [] := ite_self _
    rw [hnil]
    exact ⟨hh, Shelf.gains_nil ht⟩
  | cons a actions ih =>
    have he := hd.effect_act a
    obtain ⟨view', ht', hheader, hrecords⟩ := he.gains hd hb ht
    have hb' : (d.act a).2.IsBase b base h := hb.of_handles (he.handles_eq hb.handle_eq)
    obtain ⟨hlast, view'', ht'', hheader', hrecords'⟩ := ih (he.valid hd) hb' (he.handles_eq hh) ht'
    refine ⟨hlast, view'', ht'', hheader'.trans hheader, ?_⟩
    rw [he.inserted_cons hb.handle_eq, hrecords', hrecords, List.append_assoc]

end Valid

/-- What one sees through a handle, and what can be done with it. -/
structure Seen (d : Desk) (i b : Nat) (base h : Handle) (view table : Table) : Prop where
  /-- The handle shows what its base shows, under its own name. -/
  header_eq : view.toHeader = h.toHeader
  mirrors : view.Mirrors table
  isAlias_iff : h.isAlias ↔ i ≠ b
  named : h.isAlias → view.schema.table = view.name ∧ view.sources = .single view.name
  /-- Nothing changes by an insertion through an alias. -/
  insert_alias : h.isAlias → ∀ row, d.act (.insert i row) = (.stored false, d)
  insertAll_alias : h.isAlias → ∀ rows, d.act (.insertAll i rows) = (.count 0, d)
  insert_base : h.isAlias = false → ∀ row, (d.act (.insert i row)).1 = .stored true
  insertAll_base : h.isAlias = false → ∀ rows,
    (d.act (.insertAll i rows)).1 = .count rows.length
  /-- Another name is an alias of the same base. -/
  aliased : ∀ name, ∃ other : Handle,
    (d.act (.aliased i name)).2.handle? d.handles.length = some other ∧
      other.isAlias ∧ other.name = name ∧ (d.act (.aliased i name)).2.IsBase b base other
  /-- A copy is a base with the same rows. -/
  copy : ∃ copied : Handle, (d.act (.copy i)).2.handle? d.handles.length = some copied ∧
    (d.act (.copy i)).2.shelf.table? copied = some { view with isAlias := false }
  intoRows : (d.act (.intoRows i)).1 = .rows view.records ∧
    (d.act (.intoRows i)).2.shelf = d.shelf ∧
    ∀ j, j ≠ i → (d.act (.intoRows i)).2.handle? j = d.handle? j
  /-- The rows that come later are those that are inserted through the base. -/
  later : ∀ actions, (replay act d actions).2.handles[i]? = some h ∧
    (replay act d actions).2.shelf.Gains h view (d.inserted b actions)

theorem Valid.seen (hd : d.Valid) (hi : d.handle? i = some h) : ∃ b base view table,
    d.IsBase b base h ∧ d.shelf.table? h = some view ∧ d.shelf.table? base = some table ∧
      d.Seen i b base h view table := by
  obtain ⟨hfree, hh⟩ := handle?_eq_some_iff.1 hi
  have hmem := List.mem_of_getElem? hh
  obtain ⟨b, base, hb⟩ := hd.exists_base h hmem
  obtain ⟨view, ht⟩ := hd.exists_table? hi
  obtain ⟨table, htable⟩ := Shelf.exists_table? (hd.cell_lt base (List.mem_of_getElem? hb.handle_eq))
  obtain ⟨hcell, hheader⟩ := Shelf.table?_eq_some_iff.1 ht
  obtain ⟨hcell', hheader'⟩ := Shelf.table?_eq_some_iff.1 htable
  refine ⟨b, base, view, table, hb, ht, htable, hheader, ?_, ?_, fun halias => ?_,
    fun halias row => ?_, fun halias rows => ?_, fun hbase row => ?_, fun hbase rows => ?_,
    fun name => ?_, ?_, ?_, hd.gains_replay hb hh ht⟩
  · rw [hb.cell_eq, hcell] at hcell'
    refine Table.mirrors_of_renamed (Option.some.inj hcell') ?_
    rw [hheader, hheader']
    exact hb.schema_eq
  · constructor
    · rintro halias rfl
      rw [Option.some.inj (hh.symm.trans hb.handle_eq), hb.not_alias] at halias
      contradiction
    · intro hne
      by_contra hbase
      exact hne (hd.base_unique hh hb.handle_eq (by simpa using hbase) hb.not_alias hb.cell_eq.symm)
  · rw [hheader]
    exact hd.named h hmem halias
  · exact write_alias (Table.inserts_insert row) hi ht halias
  · exact write_alias (Table.inserts_insertAll rows) hi ht halias
  · obtain ⟨_, -, hwrite⟩ :=
      write_base .stored (Table.inserts_insert row) hi ht hbase
    exact congrArg Prod.fst hwrite
  · obtain ⟨_, -, hwrite⟩ :=
      write_base .count (Table.inserts_insertAll rows) hi ht hbase
    exact congrArg Prod.fst hwrite
  · simp only [Desk.act, hi]
    exact ⟨_, hd.handle?_add _, rfl, rfl, Valid.isBase_aliased hb name⟩
  · simp only [Desk.act, hi, Option.bind_some, Shelf.snapshot, ht, Option.map_some]
    exact ⟨_, hd.handle?_add _, Shelf.table?_place_self _ _⟩
  · simp only [Desk.act, hi, Option.bind_some, ht]
    refine ⟨trivial, trivial, fun j hj => ?_⟩
    simp only [handle?, List.mem_cons, hj, false_or]

/-- After any actions: a handle shows the rows of its base under its own name, an alias takes no
rows, a copy starts with the rows that were there, and later rows are those inserted through the
base. -/
theorem replay_seen (actions : List TableAction) :
    let d := (replay act {} actions).2
    ∀ i h, d.handle? i = some h → ∃ b base view table,
      d.IsBase b base h ∧ d.shelf.table? h = some view ∧ d.shelf.table? base = some table ∧
        d.Seen i b base h view table := by
  intro d i h hi
  have hd : d.Valid := replay_keeps (fun a _ _ h => h.act a) valid_empty
  exact hd.seen hi

/-- An alias of an alias of a table with two indexes: it shows the rows that are inserted through
the table, before and after it was made, and not the one that is inserted through the first
alias. -/
theorem replay_seen_twice_aliased :
    let s : Schema := ⟨"t", [⟨"k", .int⟩, ⟨"v", .int⟩], none⟩
    let actions : List TableAction :=
      [.create .multi "t" s none [⟨0, .tree⟩, ⟨1, .hash⟩] .standard, .insert 0 [.int 2, .int 7],
        .aliased 0 "a", .aliased 1 "b", .insert 1 [.int 5, .int 5], .copy 2,
        .insertAll 0 [[.int 1, .null]]]
    let d := (replay act {} actions).2
    let h : Handle := { toHeader := ((Header.base "t" s).aliased "a").aliased "b", cell := 0 }
    d.handle? 2 = some h ∧ ∃ b base view table,
      d.IsBase b base h ∧ d.Seen 2 b base h view table ∧ view.name = "b" ∧
        view.records = [[.int 2, .int 7], [.int 1, .null]] := by
  intro s actions d h
  have hh : d.handle? 2 = some h := by decide +kernel
  have hrecords : (d.shelf.table? h).map (·.records) = some [[.int 2, .int 7], [.int 1, .null]] := by
    decide +kernel
  obtain ⟨b, base, view, table, hb, ht, -, hseen⟩ := replay_seen actions 2 h hh
  have hview : (d.shelf.table? h).map (·.records) = some view.records :=
    congrArg (Option.map Table.records) ht
  exact ⟨hh, b, base, view, table, hb, hseen, congrArg Header.name hseen.header_eq,
    Option.some.inj (hview.symm.trans hrecords)⟩

end Desk

end RelStore
