import RelStore.Proofs.Table.Integrity
import RelStore.Proofs.Table.Views

/-!
# Answers of shared tables

After any actions on tables, their aliases and their copies, every table answers from the rows that
it shows.  `Desk.replay_judges` says so of checks: which rows are refused and why.
`Desk.replay_sorted` says so of listings in the order of a column: they are the stable sort of the
rows, whether an index is walked or the rows are sorted.

The invariant is that what a table keeps beside its rows agrees with them (`Desk.Coherent`).  An
insertion changes the storage of a cell, and keeps it coherent for the handle that it is made
through; the other handles on the cell have the same schema but for its name
(`Desk.Valid.schema_eq`).
-/

namespace RelStore

/-! ### Verdicts -/

/-- Whether the row has a value at the column that is not absent. -/
def Row.HasKey (row : Row) (column : Nat) : Prop :=
  ∃ v, row[column]? = some v ∧ v ≠ .null

theorem Layout.isPresent_iff {row : Row} {column : Nat} :
    isPresent row column ↔ row.HasKey column := by
  rw [isPresent, Option.isSome_iff_exists]
  refine exists_congr fun v => ?_
  rw [Option.filter_eq_some_iff, Bool.not_eq_true', ← Bool.not_eq_true, Value.isNull_iff]

namespace Table

/-- An equal row is stored and is found: a table with one index looks for the row if it has a key, a
table with several if it has one of its keys. -/
structure Repeats (t : Table) (row : Row) : Prop where
  stored : row ∈ t.records
  single : t.kind.hasSingleKey → ∃ column, t.keyColumn? = some column ∧ row.HasKey column
  multi : t.kind = .multi → ∃ d ∈ t.declarations, row.HasKey d.column

/-- The primary key of the row is absent. -/
def LacksKey (t : Table) (row : Row) : Prop :=
  Row.primaryKey? t.schema row = some .null

/-- A stored row has the primary key of the row. -/
def SharesKey (t : Table) (row : Row) : Prop :=
  ∃ key, Row.primaryKey? t.schema row = some key ∧
    ∃ row' ∈ t.records, Row.primaryKey? t.schema row' = some key

/-- The verdict of a table on a row is read off the stored rows; what comes first decides. -/
structure Judges (t : Table) (row : Row) : Prop where
  duplicateRow_iff : t.check row = .duplicateRow ↔ t.Repeats row
  nullKey_iff : t.check row = .nullKey ↔ ¬ t.Repeats row ∧ t.LacksKey row
  duplicateKey_iff : t.check row = .duplicateKey ↔
    ¬ t.Repeats row ∧ ¬ t.LacksKey row ∧ t.SharesKey row
  success_iff : t.check row = .success ↔
    ¬ t.Repeats row ∧ ¬ t.LacksKey row ∧ ¬ t.SharesKey row

variable {t : Table} {row : Row}

theorem looksFor_iff (hkind : t.kind ≠ .list) : t.layout.looksFor row ↔
    (t.kind.hasSingleKey → ∃ column, t.keyColumn? = some column ∧ row.HasKey column) ∧
      (t.kind = .multi → ∃ d ∈ t.declarations, row.HasKey d.column) := by
  have hsingle : t.layout.keyColumn.any (Layout.isPresent row) ↔
      ∃ column, t.keyColumn? = some column ∧ row.HasKey column := by
    rw [Option.any_eq_true]
    exact exists_congr fun _ => and_congr_right' Layout.isPresent_iff
  have hmulti : t.layout.declarations.any (fun d => Layout.isPresent row d.column) ↔
      ∃ d ∈ t.declarations, row.HasKey d.column := by
    rw [List.any_eq_true]
    exact exists_congr fun _ => and_congr_right' Layout.isPresent_iff
  have hlayout : t.layout.kind = t.kind := rfl
  rw [Layout.looksFor, hlayout]
  cases hk : t.kind with
  | set => simp [TableKind.hasSingleKey]
  | hash => simpa [TableKind.hasSingleKey] using hsingle
  | tree => simpa [TableKind.hasSingleKey] using hsingle
  | multi => simpa [TableKind.hasSingleKey] using hmulti
  | list => exact absurd hk hkind

theorem repeats_iff (hkind : t.kind ≠ .list) :
    t.Repeats row ↔ t.layout.looksFor row ∧ row ∈ t.records := by
  rw [looksFor_iff hkind]
  exact ⟨fun ⟨hstored, hsingle, hmulti⟩ => ⟨⟨hsingle, hmulti⟩, hstored⟩,
    fun ⟨⟨hsingle, hmulti⟩, hstored⟩ => ⟨hstored, hsingle, hmulti⟩⟩

theorem verdict_of_lacksKey (h : t.LacksKey row) :
    KeySet.verdict t.schema t.records row = .nullKey := by
  have hkey : Row.primaryKey? t.schema row = some .null := h
  simp [KeySet.verdict, hkey]

theorem verdict_of_sharesKey (hlacks : ¬ t.LacksKey row) (h : t.SharesKey row) :
    KeySet.verdict t.schema t.records row = .duplicateKey := by
  obtain ⟨key, hkey, hused⟩ := h
  have hne : key ≠ .null := fun hnull => hlacks (hkey.trans (congrArg some hnull))
  simp only [KeySet.verdict, hkey]
  rw [if_neg hne, if_pos hused]

theorem verdict_of_new (hlacks : ¬ t.LacksKey row) (hshares : ¬ t.SharesKey row) :
    KeySet.verdict t.schema t.records row = .success :=
  KeySet.verdict_eq_success_iff.2 fun key hkey =>
    ⟨fun hnull => hlacks (hkey.trans (congrArg some hnull)),
      fun row' hrow' heq => hshares ⟨key, hkey, row', hrow', heq⟩⟩

/-- A coherent table that checks its rows decides by the stored rows alone. -/
theorem judges (h : t.storage.Coherent t.schema) (hkind : t.kind ≠ .list) (row : Row) :
    t.Judges row := by
  have hlist : ¬ t.storage.layout.kind = .list := hkind
  by_cases hrepeats : t.Repeats row
  · have hcheck : t.check row = .duplicateRow := by
      rw [check, h.check_eq, Layout.verdict, if_neg hlist]
      exact if_pos ((repeats_iff hkind).1 hrepeats)
    constructor <;> simp [hcheck, hrepeats]
  · have hcheck : t.check row = KeySet.verdict t.schema t.records row := by
      rw [check, h.check_eq, Layout.verdict, if_neg hlist]
      exact if_neg (mt (repeats_iff hkind).2 hrepeats)
    by_cases hlacks : t.LacksKey row
    · rw [verdict_of_lacksKey hlacks] at hcheck
      constructor <;> simp [hcheck, hrepeats, hlacks]
    · by_cases hshares : t.SharesKey row
      · rw [verdict_of_sharesKey hlacks hshares] at hcheck
        constructor <;> simp [hcheck, hrepeats, hlacks, hshares]
      · rw [verdict_of_new hlacks hshares] at hcheck
        constructor <;> simp [hcheck, hrepeats, hlacks, hshares]

end Table

namespace Desk

variable {α : Type} {d : Desk} {i : Nat} {h g : Handle}

/-! ### Coherent desks -/

/-- What the tables keep beside their rows agrees with them, whatever handle shows them. -/
def Coherent (d : Desk) : Prop :=
  ∀ h ∈ d.handles, ∀ t, d.shelf.table? h = some t → t.storage.Coherent t.schema

/-- Handles on one cell have one schema, but for its name. -/
theorem Valid.schema_eq (hd : d.Valid) (hh : h ∈ d.handles) (hg : g ∈ d.handles)
    (hcell : g.cell = h.cell) : h.schema = g.schema.renamed h.schema.table := by
  obtain ⟨b, base, hb⟩ := hd.exists_base h hh
  obtain ⟨b', base', hb'⟩ := hd.exists_base g hg
  obtain rfl : b = b' := hd.base_unique hb.handle_eq hb'.handle_eq hb.not_alias hb'.not_alias
    (hb.cell_eq.trans (hcell.symm.trans hb'.cell_eq.symm))
  obtain rfl : base = base' := Option.some.inj (hb.handle_eq.symm.trans hb'.handle_eq)
  exact hb.schema_eq.trans (congrArg (·.renamed h.schema.table) hb'.schema_eq).symm

namespace Coherent

theorem add_place (hc : d.Coherent) (hd : d.Valid) {t : Table}
    (ht : t.storage.Coherent t.schema) : (d.add (d.shelf.place t)).Coherent := by
  intro h hh view hview
  rcases List.mem_append.1 hh with hh | hh
  · exact hc h hh view ((Shelf.table?_place_of_lt t (hd.cell_lt h hh)).symm.trans hview)
  · rw [List.mem_singleton.1 hh] at hview
    rwa [Option.some.inj (hview.symm.trans (Shelf.table?_place_self d.shelf t))]

theorem add_aliased (hc : d.Coherent) (hh : h ∈ d.handles) (name : String) :
    (d.add (h.aliased name, d.shelf)).Coherent := by
  intro g hg view hview
  rcases List.mem_append.1 hg with hg | hg
  · exact hc g hg view hview
  · rw [List.mem_singleton.1 hg] at hview
    obtain ⟨hcell, hheader⟩ := Shelf.table?_eq_some_iff.1 hview
    have hshown : d.shelf.table? h = some { h.toHeader with storage := view.storage } :=
      Shelf.table?_eq_some_iff.2 ⟨hcell, rfl⟩
    rw [hheader]
    exact (hc h hh _ hshown).renamed name

/-- An insertion that keeps a table coherent does so for all handles on its cell. -/
theorem write (hc : d.Coherent) (hd : d.Valid) {insert : Table → α × Table}
    (hinsert : ∀ t, t.storage.Coherent t.schema → (insert t).2.storage.Coherent t.schema)
    (answer : α → TableAnswer) : (d.write i (·.update · insert) answer).2.Coherent := by
  cases hg : d.handle? i with
  | none => rwa [write_missing hg]
  | some g =>
    have hmem : g ∈ d.handles := List.mem_of_getElem? (handle?_eq_some_iff.1 hg).2
    obtain ⟨t, ht⟩ := hd.exists_table? hg
    rw [write_eq insert answer hg ht]
    intro h hh view hview
    obtain ⟨before, hbefore⟩ := Shelf.exists_table? (hd.cell_lt h hh)
    have hset := Shelf.table?_set hbefore g.cell (insert t).2.storage
    rw [Option.some.inj (hview.symm.trans hset)]
    split
    · next hcell =>
      -- The handle shows the storage under a schema of its own.
      have hschema : before.schema = t.schema.renamed before.schema.table := by
        rw [(Shelf.table?_eq_some_iff.1 hbefore).2, (Shelf.table?_eq_some_iff.1 ht).2]
        exact hd.schema_eq hh hmem hcell
      rw [hschema]
      exact (hinsert t (hc g hmem t ht)).renamed _
    · exact hc h hh before hbefore

/-- An action keeps all tables coherent. -/
theorem act (hc : d.Coherent) (hd : d.Valid) (a : TableAction) : (d.act a).2.Coherent := by
  cases a with
  | create kind name schema keyColumn declarations shape =>
    simp only [Desk.act]
    split
    · next t hmake =>
      have hempty := Table.isEmpty_of_empty hmake
      refine hc.add_place hd ?_
      rw [hempty.header_eq]
      exact hempty.coherent
    · exact hc
  | list r => exact hc.add_place hd trivial
  | aliased i name =>
    simp only [Desk.act]
    split
    · next h hh => exact hc.add_aliased (List.mem_of_getElem? (handle?_eq_some_iff.1 hh).2) name
    · exact hc
  | insert i row => exact hc.write hd (fun t ht => Table.coherent_insert ht row) .stored
  | insertAll i rows => exact hc.write hd (fun t ht => Table.coherent_insertAll ht rows) .count
  | copy i =>
    simp only [Desk.act]
    split
    · next made hmade =>
      obtain ⟨h, hh, hcopy⟩ := Option.bind_eq_some_iff.1 hmade
      obtain ⟨t, ht, rfl⟩ := Option.map_eq_some_iff.1 hcopy
      have hmem : h ∈ d.handles := List.mem_of_getElem? (handle?_eq_some_iff.1 hh).2
      exact hc.add_place hd (hc h hmem t ht)
    · exact hc
  | intoRows i =>
    simp only [Desk.act]
    split
    · exact hc
    · exact hc

end Coherent

/-- After any actions a handle that is not given up shows a coherent table. -/
theorem exists_coherent_replay (actions : List TableAction) :
    let d := (replay act {} actions).2
    ∀ i h, d.handle? i = some h →
      ∃ t, d.shelf.table? h = some t ∧ t.storage.Coherent t.schema := by
  intro d i h hi
  have hd : d.Valid ∧ d.Coherent := by
    refine replay_keeps (P := fun d : Desk => d.Valid ∧ d.Coherent)
      (fun a _ _ h => ⟨h.1.act a, h.2.act h.1 a⟩) ⟨valid_empty, ?_⟩
    exact fun _ hh => absurd hh List.not_mem_nil
  obtain ⟨t, ht⟩ := hd.1.exists_table? hi
  exact ⟨t, ht, hd.2 h (List.mem_of_getElem? (handle?_eq_some_iff.1 hi).2) t ht⟩

/-! ### Checks and listings -/

/-- After any actions the verdict of a table on a row is read off the rows that it shows. -/
theorem replay_judges (actions : List TableAction) :
    let d := (replay act {} actions).2
    ∀ i h, d.handle? i = some h → ∃ t, d.shelf.table? h = some t ∧
      (t.kind ≠ .list → ∀ row, t.Judges row) := by
  intro d i h hi
  obtain ⟨t, ht, hcoherent⟩ := exists_coherent_replay actions i h hi
  exact ⟨t, ht, fun hkind row => Table.judges hcoherent hkind row⟩

/-- An alias of a table with two indexes, over rows that no check has seen.  Of two rows that are
stored the table does not look for the one that has none of the two keys. -/
theorem replay_judges_alias :
    let s : Schema := ⟨"t", [⟨"id", .int⟩, ⟨"k", .int⟩, ⟨"v", .int⟩], some 0⟩
    let actions : List TableAction :=
      [.create .multi "t" s none [⟨1, .tree⟩, ⟨2, .hash⟩] .standard, .insert 0 [.int 1, .null, .null],
        .aliased 0 "a", .insert 1 [.int 2, .int 2, .int 2],
        .insertAll 0 [[.int 1, .int 5, .null], [.text "x"]]]
    let d := (replay act {} actions).2
    let h : Handle := { toHeader := (Header.base "t" s).aliased "a", cell := 0 }
    d.handle? 1 = some h ∧ ∃ t, d.shelf.table? h = some t ∧
      t.records = [[.int 1, .null, .null], [.int 1, .int 5, .null], [.text "x"]] ∧
      t.check [.int 1, .int 5, .null] = .duplicateRow ∧
      t.check [.int 1, .null, .null] = .duplicateKey := by
  intro s actions d h
  have hh : d.handle? 1 = some h := by decide +kernel
  have hseen : (d.shelf.table? h).map (fun t => (t.layout, t.records)) =
      some (⟨.multi, none, [⟨1, .tree⟩, ⟨2, .hash⟩]⟩,
        [[.int 1, .null, .null], [.int 1, .int 5, .null], [.text "x"]]) := by
    decide +kernel
  obtain ⟨t, ht, hjudges⟩ := replay_judges actions 1 h hh
  have hview : d.shelf.table? h = some t := ht
  rw [hview, Option.map_some, Option.some.injEq, Prod.mk.injEq] at hseen
  obtain ⟨hlayout, hrecords⟩ := hseen
  have hkind : t.kind = .multi := congrArg Layout.kind hlayout
  have hdeclarations : t.declarations = [⟨1, .tree⟩, ⟨2, .hash⟩] :=
    congrArg Layout.declarations hlayout
  have hschema : t.schema = s.renamed "a" :=
    congrArg Header.schema (Shelf.table?_eq_some_iff.1 ht).2
  have hjudges := hjudges (by rw [hkind]; decide)
  refine ⟨hh, t, ht, hrecords, (hjudges _).duplicateRow_iff.2 ⟨?_, ?_, fun _ => ?_⟩,
    (hjudges _).duplicateKey_iff.2 ⟨fun hrepeats => ?_, ?_, .int 1, ?_, [.int 1, .null, .null], ?_⟩⟩
  · rw [hrecords]
    decide
  · rw [hkind]
    exact nofun
  · exact ⟨⟨1, .tree⟩, by rw [hdeclarations]; decide, .int 5, rfl, by decide⟩
  · obtain ⟨d, hd, v, hv, hne⟩ := hrepeats.multi hkind
    rw [hdeclarations, List.mem_pair] at hd
    rcases hd with rfl | rfl <;> exact hne (Option.some.inj hv).symm
  · rw [Table.LacksKey, hschema]
    decide
  · rw [hschema]
    rfl
  · rw [hrecords, hschema]
    exact ⟨List.mem_cons_self, rfl⟩

/-- After any actions a table is listed by a stable sort of the rows that it shows, if its indexes
are on columns in range and its rows are as wide as the schema. -/
theorem replay_sorted (actions : List TableAction) :
    let d := (replay act {} actions).2
    ∀ i h, d.handle? i = some h → ∃ t, d.shelf.table? h = some t ∧
      (t.InRange → (∀ row ∈ t.records, row.length = t.schema.width) →
        ∀ column l, Row.IsStableSort column t.records l ↔ l = t.sorted column) := by
  intro d i h hi
  obtain ⟨t, ht, hcoherent⟩ := exists_coherent_replay actions i h hi
  refine ⟨t, ht, fun hrange hwide column l => ?_⟩
  have hsorted : t.sorted column = Row.sorted column t.records :=
    hcoherent.sorted_eq hrange hwide column
  rw [hsorted]
  exact Row.isStableSort_iff

/-- A tree that holds a text and an absent value beside integers, seen through an alias: the walk of
the tree is the stable sort by its column. -/
theorem replay_sorted_alias :
    let s : Schema := ⟨"t", [⟨"k", .int⟩, ⟨"v", .int⟩], none⟩
    let actions : List TableAction :=
      [.create .tree "t" s none [] (.ofSizes 3 3), .insert 0 [.int 2, .int 1], .aliased 0 "a",
        .insertAll 0 [[.text "x", .int 2], [.int 1, .int 3], [.null, .int 4], [.int 2, .int 5]],
        .insert 0 [.int 1, .null]]
    let d := (replay act {} actions).2
    let h : Handle := { toHeader := (Header.base "t" s).aliased "a", cell := 0 }
    d.handle? 1 = some h ∧ ∃ t, d.shelf.table? h = some t ∧ t.InRange ∧
      (∀ row ∈ t.records, row.length = t.schema.width) ∧
      Row.IsStableSort 0 t.records [[.null, .int 4], [.int 1, .int 3], [.int 1, .null],
        [.int 2, .int 1], [.int 2, .int 5], [.text "x", .int 2]] ∧
      Row.IsStableSort 7 t.records (t.sorted 7) := by
  intro s actions d h
  have hh : d.handle? 1 = some h := by decide +kernel
  have hseen : (d.shelf.table? h).map
      (fun t => (t.layout, decide (∀ row ∈ t.records, row.length = 2), t.sorted 0)) =
      some (⟨.tree, some 0, []⟩, true, [[.null, .int 4], [.int 1, .int 3], [.int 1, .null],
        [.int 2, .int 1], [.int 2, .int 5], [.text "x", .int 2]]) := by
    decide +kernel
  obtain ⟨t, ht, hstable⟩ := replay_sorted actions 1 h hh
  have hview : d.shelf.table? h = some t := ht
  rw [hview, Option.map_some, Option.some.injEq, Prod.mk.injEq, Prod.mk.injEq] at hseen
  obtain ⟨hlayout, hlength, hsorted⟩ := hseen
  have hschema : t.schema = s.renamed "a" :=
    congrArg Header.schema (Shelf.table?_eq_some_iff.1 ht).2
  have hrange : t.InRange := by
    rw [Table.InRange, hlayout, hschema]
    exact ⟨by decide, by decide⟩
  have hwide : ∀ row ∈ t.records, row.length = t.schema.width := by
    rw [hschema]
    exact of_decide_eq_true hlength
  have hlist := hstable hrange hwide
  exact ⟨hh, t, ht, hrange, hwide, (hlist 0 _).2 hsorted.symm, (hlist 7 _).2 rfl⟩

end Desk

end RelStore
