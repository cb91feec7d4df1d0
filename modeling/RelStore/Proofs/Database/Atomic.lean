import RelStore.Proofs.Database.InPlace
import RelStore.Proofs.Database.Opening

/-!
# Atomic statements

A statement does all that it has to do, or nothing (`Database.Arises.atomic`).  This is about
statements that run in place, on any database that arises from a directory, whatever its files are,
by requests and by saving.  If a statement fails, refuses a row or selects, the database is the one
before, and so is everything that depends on it: each later answer, and what is saved and removed.
If it succeeds, it changes one table: a row is added, which every index of the table gets
(`Storage.Gains`), or a table without rows is added, or a table is taken out.
-/

namespace RelStore

/-! ### Storages -/

namespace Storage

/-- The parts with an index each. -/
def parts : Storage → List Keyed
  | keyed k => [k]
  | multi m => m.parts
  | _ => []

/-- A row is added behind the others, in every part, and everything that is kept beside the rows is
kept of all of them. -/
structure Gains (s : Schema) (row : Row) (st st' : Storage) : Prop
    extends st.Extends [row] st' where
  coherent : st'.Coherent s
  parts : List.Forall₂ (fun k k' => k.Extends [row] k' ∧ k'.Coherent s) st.parts st'.parts

theorem Coherent.gains {s : Schema} {st : Storage} (h : st.Coherent s) (row : Row) :
    Gains s row st (st.insert s row) where
  toExtends := st.extends_insert s row
  coherent := h.insert row
  parts := by
    cases st with
    | set d => exact .nil
    | keyed k => exact .cons ⟨Keyed.extends_insert k s row, Keyed.Coherent.insert h row⟩ .nil
    | multi m =>
      change List.Forall₂ _ m.parts (m.parts.map (·.insert s row))
      refine List.forall₂_map_right_iff.2 (List.forall₂_same.2 fun k hk => ?_)
      exact ⟨Keyed.extends_insert k s row, (h.coherent_part k hk).insert row⟩
    | list rows => exact .nil

end Storage

namespace Database

variable {db db' : Database} {name : String} {statement : Statement}

/-! ### Changes -/

/-- One more table, without rows, under a name that was free. -/
structure Adds (s : Schema) (db db' : Database) : Prop where
  config_eq : db'.config = db.config
  tables_eq : ∃ t, db'.tables = db.tables ++ [t] ∧ t.toHeader = .base s.table s ∧
    t.records = [] ∧ t.storage.Coherent s
  notMem_names : s.table ∉ db.names
  dropped_eq : db'.dropped = db.dropped.filter (· ≠ s.table)

/-- One more row in one table. -/
structure Stores (name : String) (row : Row) (db db' : Database) : Prop where
  config_eq : db'.config = db.config
  tables_eq : ∃ t t', db.table name = .ok t ∧ db'.table name = .ok t' ∧
    db'.tables = db.tables.map (fun u => if u.name = name then t' else u) ∧
    t'.toHeader = t.toHeader ∧ t.storage.Gains t.schema row t'.storage
  table_eq : ∀ other ≠ name, db'.table other = db.table other
  dropped_eq : db'.dropped = db.dropped

/-- One table is gone, and its name is remembered. -/
structure Removes (name : String) (db db' : Database) : Prop where
  config_eq : db'.config = db.config
  tables_eq : db'.tables = db.tables.filter (·.name ≠ name)
  /-- Exactly one table is gone. -/
  gone : ∃ t ∈ db.tables, t.name = name ∧ t ∉ db'.tables ∧ ∀ u ∈ db.tables, u ≠ t → u ∈ db'.tables
  /-- If it was listed once, so that one place in the list is gone. -/
  cut : db.names.Nodup → ∃ before t after, db.tables = before ++ t :: after ∧ t.name = name ∧
    db'.tables = before ++ after
  dropped_eq : db'.dropped = db.dropped.filter (· ≠ name) ++ [name]

theorem adds_of_create {s : Schema} {declarations : List Declaration} {kind : Option TableKind}
    {chosen : TableKind} (h : db.create s declarations kind = .ok (chosen, db')) :
    db.Adds s db' := by
  obtain ⟨-, hname, -, t, hbuild, -, rfl⟩ := create_eq_ok h
  have hempty := Table.isEmpty_of_empty hbuild
  exact ⟨rfl, ⟨t, rfl, hempty.header_eq, hempty.records_eq, hempty.coherent⟩, hname, rfl⟩

theorem stores_of_insert (h : db.Proper) {row : Row}
    (hinsert : db.insert name row = .ok (.success, db')) : db.Stores name row db' := by
  obtain ⟨t, htable, hrow, -, rfl⟩ := insert_eq_ok hinsert
  obtain ⟨hmem, rfl⟩ := mem_of_table_eq_ok htable
  have ht := h.table t hmem
  have hinserted : (t.insert row).2 = { t with storage := t.storage.insert t.schema row } := by
    rw [Table.insert_eq, ht.isAlias_eq]
    rfl
  have hname : (t.insert row).2.name = t.name := by rw [hinserted]
  have hthere : (t.insert row).2 ∈ (db.replace (t.insert row).2).tables := by
    refine List.mem_map.2 ⟨t, hmem, if_pos hname.symm⟩
  have hfound := (h.replace (ht.insert hrow)).table_eq_ok hthere
  rw [if_pos rfl]
  refine ⟨rfl, ⟨t, (t.insert row).2, htable, hname ▸ hfound, ?_, ?_, ?_⟩, fun other hne => ?_, rfl⟩
  · rw [replace, hname]
  · rw [hinserted]
  · rw [hinserted]
    exact ht.filled.coherent.gains row
  · exact table_replace_of_ne db (hname.symm ▸ hne)

theorem removes_of_drop (h : db.Proper) (hdrop : db.drop name = .ok db') : db.Removes name db' := by
  obtain ⟨hname, rfl⟩ := drop_eq_ok hdrop
  obtain ⟨t, ht, rfl⟩ := List.mem_map.1 hname
  refine ⟨rfl, rfl, ⟨t, ht, rfl, by simp, fun u hu hne => ?_⟩, fun hnames => ?_, rfl⟩
  · refine List.mem_filter.2 ⟨hu, decide_eq_true fun heq => hne ?_⟩
    exact h.eq_of_name_eq u hu t ht heq
  · obtain ⟨before, after, hsplit⟩ := List.append_of_mem ht
    refine ⟨before, t, after, hsplit, rfl, ?_⟩
    rw [names, hsplit, List.map_append, List.map_cons, List.nodup_middle, List.nodup_cons,
      ← List.map_append] at hnames
    have hkept : ∀ u ∈ before ++ after, decide (u.name ≠ t.name) = true :=
      fun u hu => decide_eq_true fun heq => hnames.1 (heq ▸ List.mem_map_of_mem hu)
    rw [List.forall_mem_append] at hkept
    dsimp only
    rw [hsplit, List.filter_append, List.filter_cons_of_neg (by simp),
      List.filter_eq_self.2 hkept.1, List.filter_eq_self.2 hkept.2]

/-! ### Databases that arise -/

/-- The databases that are opened from a directory, or without one, and changed by requests in place
and by saving. -/
inductive Arises : Database → Prop
  | opened {config : Config} {files files' : FileTree} {db : Database}
      (h : (load config).run files = (.ok db, files')) : Arises db
  | handled {db : Database} (h : Arises db) (r : Request) : Arises ((handleInPlace r).run db).2
  | saved {db : Database} (h : Arises db) (files : FileTree) : Arises (db.save files).2.1

theorem Arises.execute (h : db.Arises) (statement : Statement) :
    Arises ((executeInPlace statement).run db).2 := by
  have hsame : ((handleInPlace (.execute statement)).run db).2 =
      ((executeInPlace statement).run db).2 := by
    have hhandle : handleInPlace (.execute statement) =
        executeInPlace statement >>= fun outcome => pure (.outcome outcome) := rfl
    rw [hhandle, run_bind]
    cases (executeInPlace statement).run db with
    | mk answer db' => cases answer <;> rfl
  exact hsame ▸ h.handled (.execute statement)

/-- Saving may forget the dropped tables, and changes nothing else. -/
theorem save_cases_db (db : Database) (files : FileTree) :
    (db.save files).2.1 = db ∨ (db.save files).2.1 = { db with dropped := [] } := by
  unfold save
  split
  · exact .inl rfl
  · split
    · exact .inl rfl
    · exact .inr rfl

theorem Arises.proper (h : db.Arises) : db.Proper := by
  induction h with
  | opened h =>
    obtain ⟨-, m, -, -, hlists⟩ := lists_load h
    exact hlists.proper
  | handled h r ih =>
    rw [run_handleInPlace ih]
    exact ih.step (step_handle fun _ _ => trivial)
  | @saved db h files ih =>
    rcases save_cases_db db files with hsame | hsame
    · rw [hsame]
      exact ih
    · rw [hsame]
      exact ⟨ih.eq_of_name_eq, ih.table⟩

/-! ### Statements -/

/-- What a statement has done to a database, by its answer. -/
structure Atomic (statement : Statement) (db : Database) (answer : Except Error Outcome)
    (db' : Database) : Prop where
  error : ∀ e, answer = .error e → db' = db
  refused : ∀ verdict, answer = .ok (.inserted verdict) → verdict ≠ .success → db' = db
  rows : ∀ selection, answer = .ok (.rows selection) → db' = db
  stored : answer = .ok (.inserted .success) → ∃ tables row name,
    statement = .insert tables row ∧ statement.target = .ok name ∧ db.Stores name row db'
  done : answer = .ok .done →
    (∃ s ∈ statement.schema?, db.Adds s db') ∨
      ∃ tables name, statement = .dropTable tables ∧ statement.target = .ok name ∧
        db.Removes name db'

namespace Atomic

theorem of_error (statement : Statement) (db : Database) (e : Error) :
    Atomic statement db (.error e) db := by
  constructor <;> simp

theorem of_rows (statement : Statement) (db : Database) (selection : Selection) :
    Atomic statement db (.ok (.rows selection)) db := by
  constructor <;> simp

theorem of_done (h : (∃ s ∈ statement.schema?, db.Adds s db') ∨
    ∃ tables name, statement = .dropTable tables ∧ statement.target = .ok name ∧
      db.Removes name db') : Atomic statement db (.ok .done) db' where
  error := by simp
  refused := by simp
  rows := by simp
  stored := by simp
  done _ := h

/-- An insertion either stores the row or leaves the database as it was. -/
theorem of_insert (h : db.Proper) {tables : List FromEntry} {row : Row}
    (hname : (Statement.insert tables row).target = .ok name) {verdict : Verdict}
    (hinsert : db.insert name row = .ok (verdict, db')) :
    Atomic (.insert tables row) db (.ok (.inserted verdict)) db' where
  error := by simp
  refused verdict' hverdict hne := by
    cases hverdict
    obtain ⟨t, -, -, -, rfl⟩ := insert_eq_ok hinsert
    exact if_neg hne
  rows := by simp
  stored hverdict := by
    cases hverdict
    exact ⟨tables, row, name, rfl, hname, stores_of_insert h hinsert⟩
  done := by simp

end Atomic

theorem atomic_of_execute (h : db.Proper) {outcome : Outcome}
    (hexecute : db.execute statement = .ok (outcome, db')) :
    Atomic statement db (.ok outcome) db' := by
  cases statement with
  | createTable tables names types primaryKey declarations =>
    simp only [execute] at hexecute
    split at hexecute
    · contradiction
    · obtain ⟨name, hname, hexecute⟩ := bind_eq_ok_iff.1 hexecute
      obtain ⟨⟨chosen, db''⟩, hcreate, hexecute⟩ := bind_eq_ok_iff.1 hexecute
      cases hexecute
      cases tables with
      | nil => contradiction
      | cons e tables =>
        cases hname
        exact .of_done (.inl ⟨_, rfl, adds_of_create hcreate⟩)
  | dropTable tables =>
    obtain ⟨name, hname, hexecute⟩ := bind_eq_ok_iff.1 hexecute
    obtain ⟨db'', hdrop, hexecute⟩ := bind_eq_ok_iff.1 hexecute
    cases hexecute
    exact .of_done (.inr ⟨tables, name, rfl, hname, removes_of_drop h hdrop⟩)
  | insert tables row =>
    obtain ⟨name, hname, hexecute⟩ := bind_eq_ok_iff.1 hexecute
    obtain ⟨⟨verdict, db''⟩, hinsert, hexecute⟩ := bind_eq_ok_iff.1 hexecute
    cases hexecute
    exact .of_insert h hname hinsert
  | select tables conditions targets =>
    obtain ⟨selection, -, hexecute⟩ := bind_eq_ok_iff.1 hexecute
    cases hexecute
    exact .of_rows _ db selection

/-- A statement that runs in place leaves the database as `execute` does, which is atomic: a failure,
a refusal and a selection leave the database as it was, and success changes the table that the
statement is about and no other. -/
theorem Arises.atomic (h : db.Arises) (statement : Statement) :
    (executeInPlace statement).run db = db.settle (db.execute statement) ∧
      Atomic statement db ((executeInPlace statement).run db).1
        ((executeInPlace statement).run db).2 := by
  have hrun := run_executeInPlace h.proper statement
  refine ⟨hrun, ?_⟩
  rw [hrun]
  cases hexecute : db.execute statement with
  | error e => exact .of_error statement db e
  | ok r => exact atomic_of_execute h.proper hexecute

/-- A table with two trees takes a row, refuses it when it comes again, and is not created again. -/
theorem Arises.atomic_two_trees :
    let s : Schema := ⟨"t", [⟨"a", .int⟩, ⟨"b", .int⟩], none⟩
    let row : Row := [.int 1, .int 2]
    let create : Statement := .createTable [⟨"t", none⟩] ["a", "b"] [.int, .int] none []
    let insert : Statement := .insert [⟨"t", none⟩] row
    let db := ((handleInPlace (.create s [⟨0, .tree⟩, ⟨1, .tree⟩] none)).run (.empty {})).2
    let db' := ((executeInPlace insert).run db).2
    db.Arises ∧ db.Stores "t" row db' ∧ ((executeInPlace insert).run db').2 = db' ∧
      ((executeInPlace create).run db').2 = db' := by
  intro s row create insert db db'
  have hempty : (load {}).run {} = (.ok (.empty {}), {}) := rfl
  have hdb : db.Arises := (Arises.opened hempty).handled _
  have hdb' : db'.Arises := hdb.execute insert
  have hstored : ((executeInPlace insert).run db).1 = .ok (.inserted .success) := by decide +kernel
  have hrefused : ((executeInPlace insert).run db').1 = .ok (.inserted .duplicateRow) := by
    decide +kernel
  have hfailed : ((executeInPlace create).run db').1 = .error (.tableAlreadyExists "t") := by
    decide +kernel
  obtain ⟨tables, row', name, hinsert, hname, hstores⟩ := (hdb.atomic insert).2.stored hstored
  obtain ⟨-, rfl⟩ := Statement.insert.inj hinsert
  obtain rfl : "t" = name := Except.ok.inj hname
  exact ⟨hdb, hstores, (hdb'.atomic insert).2.refused _ hrefused (by decide),
    (hdb'.atomic create).2.error _ hfailed⟩

end Database

end RelStore
