import RelStore.Database.Save
import RelStore.Proofs.Database.Regular

/-!
# Proper databases

What is true of every database, also of one that was loaded from files that nobody saved: each table
is sound and no alias, and tables with the same name are the same table (`Database.Proper`).  Such a
database may list a table twice, and the rows of its tables may be such as an insertion would have
refused; in both it is weaker than `Database.Regular`.  Every step keeps a database proper
(`Database.Proper.step`).
-/

namespace RelStore

/-- A sound table that is no alias. -/
structure Table.Proper (t : Table) : Prop extends t.Sound fun _ => True where
  header_eq : t.toHeader = .base t.name t.schema

/-- Sound tables, one for each name. -/
structure Database.Proper (db : Database) : Prop where
  eq_of_name_eq : ∀ t ∈ db.tables, ∀ u ∈ db.tables, t.name = u.name → t = u
  table : ∀ t ∈ db.tables, t.Proper

/-! ### Tables -/

namespace Table.Proper

variable {t : Table}

theorem isAlias_eq (h : t.Proper) : t.isAlias = false := by
  rw [h.header_eq]
  rfl

theorem insert (h : t.Proper) {row : Row} (hrow : row.check t.schema = .ok ()) :
    (t.insert row).2.Proper := by
  obtain ⟨-, hheader, -, -⟩ := Table.insert_stores h.isAlias_eq row
  refine ⟨h.toSound.insert hrow, ?_⟩
  have hschema : (t.insert row).2.schema = t.schema := congrArg Header.schema hheader
  rw [hschema, hheader]
  exact h.header_eq

end Table.Proper

namespace Database

variable {p : Schema → Prop} {db db' : Database} {t : Table} {name : String} {s : Schema}
  {declarations : List Declaration} {kind : Option TableKind}

/-! ### Names -/

theorem table_replace_of_ne (db : Database) (hne : name ≠ t.name) :
    (db.replace t).table name = db.table name := by
  have hfind : (db.replace t).tables.find? (·.name == name) = db.tables.find? (·.name == name) := by
    rw [replace, List.find?_map]
    induction db.tables with
    | nil => rfl
    | cons u tables ih =>
      rw [List.find?_cons, List.find?_cons]
      by_cases hu : u.name = t.name
      · have ht : (t.name == name) = false := beq_false_of_ne hne.symm
        simpa [hu, ht] using ih
      · simp only [Function.comp_apply, if_neg hu]
        split
        · simp [hu]
        · exact ih
  rw [table, hfind, table]

theorem table_filter_of_ne {other : String} (hne : other ≠ name)
    (h : db'.tables = db.tables.filter (·.name ≠ name)) : db'.table other = db.table other := by
  have hfind : db'.tables.find? (·.name == other) = db.tables.find? (·.name == other) := by
    rw [h, List.find?_filter]
    refine congrArg (List.find? · db.tables) (funext fun u => ?_)
    by_cases hu : u.name = other
    · simp [hu, hne]
    · simp [hu]
  rw [table, hfind, table]

/-- Whether a table can be created depends on the other tables by their names alone. -/
theorem create_of_notMem (hname : s.table ∉ db.names) :
    (db.create s declarations kind).map (·.1) =
      ((Database.empty db.config).create s declarations kind).map (·.1) := by
  have hempty : s.table ∉ (Database.empty db.config).names := List.not_mem_nil
  unfold create
  rw [if_neg hname, if_neg hempty]
  cases s.check with
  | error e => rfl
  | ok u =>
    cases Declaration.outOfRange? s.width declarations with
    | some d => rfl
    | none =>
      have hbuild : build (Database.empty db.config).config s declarations kind =
          build db.config s declarations kind := rfl
      simp only [bind, Except.bind, pure, Except.pure, hbuild]
      cases build db.config s declarations kind <;> rfl

/-- A table can be created if its schema passes the check and its name is free, with the kind and
the indexes left to the configuration. -/
theorem exists_create_default (hcheck : s.check = .ok ()) (hname : s.table ∉ db.names) :
    ∃ chosen db', db.create s [] none = .ok (chosen, db') := by
  have hkind : kindOf (declared db.config s []) ≠ .multi := by
    rw [declared, show Declaration.effective [] = [] from rfl]
    cases s.primaryKey with
    | none => exact (by decide : kindOf [] ≠ .multi)
    | some key =>
      dsimp only
      split
      · decide
      · rw [kindOf]
        split <;> decide
  obtain ⟨t, ht⟩ : ∃ t, build db.config s [] none = .ok t :=
    Table.exists_empty _ _ _ _ _ fun hmulti => absurd hmulti hkind
  refine ⟨t.kind, { db with
    tables := db.tables ++ [t]
    dropped := db.dropped.filter (· ≠ s.table) }, ?_⟩
  unfold create
  rw [hcheck, if_neg hname, show Declaration.outOfRange? s.width [] = none from rfl, ht]
  rfl

/-- A table that is there can be dropped, after which its name is free. -/
theorem exists_drop (hname : name ∈ db.names) :
    ∃ db', db.drop name = .ok db' ∧ db'.names = db.names.filter (· ≠ name) ∧
      (∀ other ≠ name, db'.table other = db.table other) ∧
      ∀ s declarations kind, s.table = name →
        (db'.create s declarations kind).map (·.1) =
          ((Database.empty db.config).create s declarations kind).map (·.1) := by
  have hdrop : db.drop name = .ok { db with
      tables := db.tables.filter (·.name ≠ name)
      dropped := db.dropped.filter (· ≠ name) ++ [name] } := by
    rw [drop, if_neg (not_not.2 hname)]
    rfl
  obtain ⟨hnames, -⟩ := names_of_drop hdrop
  refine ⟨_, hdrop, hnames, fun other hne => table_filter_of_ne hne rfl, ?_⟩
  rintro s declarations kind rfl
  refine create_of_notMem ?_
  rw [hnames]
  simp

/-! ### Steps -/

namespace Proper

theorem empty (config : Config) : (Database.empty config).Proper where
  eq_of_name_eq _ ht := absurd ht List.not_mem_nil
  table _ ht := absurd ht List.not_mem_nil

/-- A name leads to the table that has it. -/
theorem table_eq_ok (h : db.Proper) (ht : t ∈ db.tables) : db.table t.name = .ok t := by
  obtain ⟨u, hu⟩ := mem_names_iff.1 (List.mem_map_of_mem ht)
  obtain ⟨hmem, hname⟩ := mem_of_table_eq_ok hu
  rw [hu, h.eq_of_name_eq u hmem t ht hname]

theorem replace (h : db.Proper) (ht : t.Proper) : (db.replace t).Proper where
  eq_of_name_eq u hu v hv hname := by
    rcases mem_replace hu with rfl | ⟨hu, hune⟩
    · rcases mem_replace hv with rfl | ⟨-, hvne⟩
      · rfl
      · exact absurd hname.symm hvne
    · rcases mem_replace hv with rfl | ⟨hv, -⟩
      · exact absurd hname hune
      · exact h.eq_of_name_eq u hu v hv hname
  table u hu := by
    rcases mem_replace hu with rfl | ⟨hu, -⟩
    · exact ht
    · exact h.table u hu

/-- A table is added behind others, among which its name may only stand for itself. -/
theorem concat (h : db.Proper) (ht : t.Proper) (hsame : ∀ u ∈ db.tables, u.name = t.name → u = t)
    (htables : db'.tables = db.tables ++ [t]) : db'.Proper where
  eq_of_name_eq u hu v hv hname := by
    rw [htables, List.mem_append, List.mem_singleton] at hu hv
    rcases hu with hu | rfl <;> rcases hv with hv | rfl
    · exact h.eq_of_name_eq u hu v hv hname
    · exact hsame u hu hname
    · exact (hsame v hv hname.symm).symm
    · rfl
  table u hu := by
    rw [htables, List.mem_append, List.mem_singleton] at hu
    rcases hu with hu | rfl
    · exact h.table u hu
    · exact ht

/-- A table that is loaded takes the place of those with its name. -/
theorem attach (h : db.Proper) (ht : t.Proper) : (db.attach t).Proper := by
  refine (h.replace ht).concat ht (fun u hu hname => ?_) rfl
  rcases mem_replace hu with rfl | ⟨-, hne⟩
  · rfl
  · exact absurd hname hne

theorem create (h : db.Proper) {chosen : TableKind}
    (hcreate : db.create s declarations kind = .ok (chosen, db')) : db'.Proper := by
  obtain ⟨hcheck, hname, hdeclarations, t, hbuild, -, rfl⟩ := create_eq_ok hcreate
  have ht : t.Proper := by
    refine ⟨sound_of_build trivial hcheck hdeclarations hbuild, ?_⟩
    rw [(Table.isEmpty_of_empty hbuild).header_eq]
    rfl
  refine h.concat ht (fun u hu huname => absurd ?_ hname) rfl
  rw [← name_of_build hbuild, ← huname]
  exact List.mem_map_of_mem hu

theorem insert (h : db.Proper) {row : Row} {verdict : Verdict}
    (hinsert : db.insert name row = .ok (verdict, db')) : db'.Proper := by
  obtain ⟨t, htable, hrow, -, rfl⟩ := insert_eq_ok hinsert
  split
  · exact h.replace ((h.table t (mem_of_table_eq_ok htable).1).insert hrow)
  · exact h

theorem drop (h : db.Proper) (hdrop : db.drop name = .ok db') : db'.Proper := by
  obtain ⟨-, rfl⟩ := drop_eq_ok hdrop
  constructor
  · intro t ht u hu
    exact h.eq_of_name_eq t (List.mem_of_mem_filter ht) u (List.mem_of_mem_filter hu)
  · intro t ht
    exact h.table t (List.mem_of_mem_filter ht)

/-- A step keeps a database proper. -/
theorem step (h : db.Proper) (hstep : db.Step p db') : db'.Proper := by
  cases hstep with
  | none => exact h
  | create hs hcreate => exact h.create hcreate
  | insert hinsert => exact h.insert hinsert
  | drop hdrop => exact h.drop hdrop

end Proper

end Database

end RelStore
