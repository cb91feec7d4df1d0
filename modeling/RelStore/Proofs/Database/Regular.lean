import RelStore.Proofs.Database.Requests
import RelStore.Proofs.Table.Integrity

/-!
# Regular databases

A database is regular if its tables have different names and each is sound, is its own source, and
has accepted its rows (`Database.Regular`).  Every step keeps a database regular
(`Database.Regular.step`).
-/

namespace RelStore

/-- A sound table that is no alias and had nothing against its rows. -/
structure Table.Regular (p : Schema → Prop) (t : Table) : Prop extends t.Sound p where
  header_eq : t.toHeader = .base t.name t.schema
  accepted : t.Accepted

/-- Regular tables with different names. -/
structure Database.Regular (p : Schema → Prop) (db : Database) : Prop where
  nodup_names : db.names.Nodup
  table : ∀ t ∈ db.tables, t.Regular p

variable {p : Schema → Prop}

/-! ### Tables -/

namespace Table.Regular

variable {t : Table}

theorem isAlias_eq (h : t.Regular p) : t.isAlias = false := by
  rw [h.header_eq]
  rfl

theorem check_eq_verdict (h : t.Regular p) (row : Row) :
    t.check row = t.layout.verdict t.schema t.records row :=
  h.filled.coherent.check_eq row

theorem fits (h : t.Regular p) : ∀ row ∈ t.records, row.check t.schema = .ok () :=
  h.filled.check_eq_ok

/-- A regular table stores each row that it is given, after the others. -/
theorem insert_stores (h : t.Regular p) (row : Row) :
    (t.insert row).1 = true ∧ (t.insert row).2.toHeader = t.toHeader ∧
      (t.insert row).2.layout = t.layout ∧ (t.insert row).2.records = t.records ++ [row] :=
  Table.insert_stores h.isAlias_eq row

theorem insert (h : t.Regular p) {row : Row} (hrow : row.check t.schema = .ok ())
    (hverdict : t.check row = .success) : (t.insert row).2.Regular p := by
  obtain ⟨-, hheader, hlayout, hrecords⟩ := h.insert_stores row
  have hschema : (t.insert row).2.schema = t.schema := congrArg Header.schema hheader
  refine ⟨h.toSound.insert hrow, ?_, ?_⟩
  · rw [hheader]
    exact h.header_eq
  · rw [h.check_eq_verdict] at hverdict
    exact h.accepted.concat hschema hlayout hrecords hverdict

end Table.Regular

namespace Database

variable {db db' : Database} {s : Schema} {declarations : List Declaration}
  {kind : Option TableKind}

theorem regular_of_build {config : Config} {t : Table} (hs : p s) (hcheck : s.check = .ok ())
    (hdeclarations : ∀ d ∈ declarations, d.column < s.width)
    (h : build config s declarations kind = .ok t) : t.Regular p := by
  have hempty := Table.isEmpty_of_empty h
  refine ⟨sound_of_build hs hcheck hdeclarations h, ?_, ?_⟩
  · rw [hempty.header_eq]
    rfl
  · exact Table.accepted_of_records_eq_nil hempty.records_eq

/-! ### Names -/

theorem mem_names_iff {name : String} : name ∈ db.names ↔ ∃ t, db.table name = .ok t := by
  constructor
  · intro hname
    obtain ⟨t, ht, rfl⟩ := List.mem_map.1 hname
    unfold table
    cases hfind : db.tables.find? (·.name == t.name) with
    | none => exact absurd (List.find?_eq_none.1 hfind t ht) (by simp)
    | some u => exact ⟨u, rfl⟩
  · rintro ⟨t, ht⟩
    obtain ⟨hmem, rfl⟩ := mem_of_table_eq_ok ht
    exact List.mem_map_of_mem hmem

theorem names_replace (db : Database) (t : Table) : (db.replace t).names = db.names := by
  rw [names, names, replace, List.map_map]
  refine List.map_congr_left fun u _ => ?_
  by_cases hname : u.name = t.name
  · rw [Function.comp_apply, if_pos hname, hname]
  · rw [Function.comp_apply, if_neg hname]

theorem names_of_create {chosen : TableKind}
    (h : db.create s declarations kind = .ok (chosen, db')) :
    db'.names = db.names ++ [s.table] ∧ db'.dropped = db.dropped.filter (· ≠ s.table) := by
  obtain ⟨-, -, -, t, hbuild, -, rfl⟩ := create_eq_ok h
  refine ⟨?_, rfl⟩
  rw [names, names, List.map_append, List.map_singleton, name_of_build hbuild]

theorem names_of_insert {name : String} {row : Row} {verdict : Verdict}
    (h : db.insert name row = .ok (verdict, db')) :
    db'.names = db.names ∧ db'.dropped = db.dropped := by
  obtain ⟨t, -, -, -, rfl⟩ := insert_eq_ok h
  split
  · exact ⟨names_replace db _, rfl⟩
  · exact ⟨rfl, rfl⟩

theorem names_of_drop {name : String} (h : db.drop name = .ok db') :
    db'.names = db.names.filter (· ≠ name) ∧
      db'.dropped = db.dropped.filter (· ≠ name) ++ [name] := by
  obtain ⟨-, rfl⟩ := drop_eq_ok h
  refine ⟨?_, rfl⟩
  rw [names, names, List.filter_map]
  rfl

/-! ### Steps -/

theorem Step.config_eq (h : db.Step p db') : db'.config = db.config := by
  cases h with
  | none => rfl
  | create hs hcreate =>
    obtain ⟨-, -, -, t, -, -, rfl⟩ := create_eq_ok hcreate
    rfl
  | insert hinsert =>
    obtain ⟨t, -, -, -, rfl⟩ := insert_eq_ok hinsert
    split <;> rfl
  | drop hdrop =>
    obtain ⟨-, rfl⟩ := drop_eq_ok hdrop
    rfl

/-- A row that fits is inserted or refused, as the verdict says. -/
theorem insert_eq {name : String} {t : Table} (ht : t.Regular p) (htable : db.table name = .ok t)
    {row : Row} (hrow : row.check t.schema = .ok ()) :
    db.insert name row =
      .ok (t.check row, if t.check row = .success then db.replace (t.insert row).2 else db) := by
  have hstored := (ht.insert_stores row).1
  unfold insert
  simp only [htable, hrow, bind, Except.bind]
  cases hverdict : t.check row <;> simp [hstored, pure, Except.pure]

namespace Regular

theorem empty (config : Config) : (Database.empty config).Regular p where
  nodup_names := .nil
  table _ ht := absurd ht List.not_mem_nil

theorem create (h : db.Regular p) {chosen : TableKind} (hs : p s)
    (hcreate : db.create s declarations kind = .ok (chosen, db')) : db'.Regular p := by
  have hnames := (names_of_create hcreate).1
  obtain ⟨hcheck, hname, hdeclarations, t, hbuild, -, rfl⟩ := create_eq_ok hcreate
  have ht := regular_of_build hs hcheck hdeclarations hbuild
  constructor
  · rw [hnames, ← List.concat_eq_append]
    exact h.nodup_names.concat hname
  · intro u hu
    rcases List.mem_append.1 hu with hu | hu
    · exact h.table u hu
    · rw [List.mem_singleton.1 hu]
      exact ht

theorem insert (h : db.Regular p) {name : String} {row : Row} {verdict : Verdict}
    (hinsert : db.insert name row = .ok (verdict, db')) : db'.Regular p := by
  obtain ⟨t, htable, hrow, hverdict, rfl⟩ := insert_eq_ok hinsert
  have ht := h.table t (mem_of_table_eq_ok htable).1
  split
  · next hsuccess =>
    refine ⟨?_, fun u hu => ?_⟩
    · rw [names_replace]
      exact h.nodup_names
    · rcases mem_replace hu with rfl | ⟨hu, -⟩
      · exact ht.insert hrow (hverdict.symm.trans hsuccess)
      · exact h.table u hu
  · exact h

theorem drop (h : db.Regular p) {name : String} (hdrop : db.drop name = .ok db') :
    db'.Regular p := by
  obtain ⟨-, rfl⟩ := drop_eq_ok hdrop
  refine ⟨?_, fun t ht => h.table t (List.mem_of_mem_filter ht)⟩
  exact h.nodup_names.sublist (List.filter_sublist.map _)

/-- A step keeps a database regular. -/
theorem step (h : db.Regular p) (hstep : db.Step p db') : db'.Regular p := by
  cases hstep with
  | none => exact h
  | create hs hcreate => exact h.create hs hcreate
  | insert hinsert => exact h.insert hinsert
  | drop hdrop => exact h.drop hdrop

end Regular

end Database

end RelStore
