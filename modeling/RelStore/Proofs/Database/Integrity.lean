import RelStore.Proofs.Database.Regular
import RelStore.Proofs.DataDirectory.Manifest

/-!
# Integrity of databases

`Database.intact_replay` is the main result: whatever is asked of a database that starts without
tables, in memory or on an empty directory, its tables stay in order.  Their names differ and each
is found by its name; its schema passes the check, its rows fit the schema, and its kind forbids
what it is to forbid (`Table.Intact`): absent or repeated primary keys, and repeated rows, apart
from those that an index does not see.  An insertion never fails because a row that was checked is
refused.

All of this is read off regular databases, which requests keep regular.
-/

namespace RelStore

/-- What the kind of a table promises of its rows; a list promises nothing but that they fit. -/
structure Table.Intact (t : Table) : Prop where
  table_eq : t.schema.table = t.name
  check_eq : t.schema.check = .ok ()
  fits : ∀ row ∈ t.records, row.check t.schema = .ok ()
  /-- Primary keys are present and differ. -/
  primaryKeys : t.kind ≠ .list → ∀ i, t.schema.primaryKey = some i →
    (∀ row ∈ t.records, row[i]? ≠ some .null) ∧ (t.records.map (·[i]?)).Nodup
  set : t.kind = .set → t.records.Nodup
  /-- Rows with a key differ. -/
  keyed : t.kind = .hash ∨ t.kind = .tree → ∃ column, t.keyColumn? = some column ∧
    (t.records.filter (Layout.isPresent · column)).Nodup
  /-- Rows with a value in a declared column differ. -/
  multi : t.kind = .multi →
    (t.records.filter fun row => t.declarations.any fun d => Layout.isPresent row d.column).Nodup

/-- Tables that are found by their different names and keep what they promise, and insertions that
are not refused. -/
structure Database.Intact (db : Database) : Prop where
  nodup_names : db.names.Nodup
  mem_names_iff : ∀ name, name ∈ db.names ↔ ∃ t, db.table name = .ok t
  name_eq : ∀ name t, db.table name = .ok t → t.name = name
  table : ∀ name t, db.table name = .ok t → t.Intact
  insert_ne : ∀ name row table, db.insert name row ≠ .error (.internal (.refusedRow table))
  execute_ne : ∀ tables row table,
    db.execute (.insert tables row) ≠ .error (.internal (.refusedRow table))

variable {p : Schema → Prop}

/-! ### Tables -/

theorem Table.Regular.intact {t : Table} (h : t.Regular p) : t.Intact where
  table_eq := h.table_eq
  check_eq := h.check_eq
  fits := h.fits
  primaryKeys hkind i hi := by
    have hkey : ∀ row : Row, Row.primaryKey? t.schema row = row[i]? := by
      intro row
      rw [Row.primaryKey?, hi]
      rfl
    obtain ⟨hpresent, hpairs⟩ := h.accepted.primaryKeys hkind
    simp only [hkey] at hpresent hpairs
    refine ⟨hpresent, List.pairwise_map.2 (hpairs.imp_of_mem fun {row row'} _ hrow' hne heq => ?_)⟩
    have hlt : i < row'.length := by
      rw [Row.length_eq_of_check (h.fits row' hrow')]
      exact (Schema.check_eq_ok_iff.1 h.check_eq).2.2 i hi
    have hvalue : row'[i]? = some row'[i] := List.getElem?_eq_getElem hlt
    exact hne _ hvalue (heq.trans hvalue)
  set hkind := by
    have hlayout : t.layout.kind = .set := hkind
    have hall : t.records.filter t.layout.looksFor = t.records := by
      simp [Layout.looksFor, hlayout]
    have hnodup := h.accepted.nodup_filter (by rw [hkind]; decide)
    rwa [hall] at hnodup
  keyed hkind := by
    have hsingle : t.kind.hasSingleKey = true := by
      rcases hkind with hkind | hkind <;> rw [hkind] <;> rfl
    have hlist : t.kind ≠ .list := by
      rintro hlist
      rw [hlist] at hsingle
      contradiction
    obtain ⟨column, hcolumn⟩ : ∃ column, t.keyColumn? = some column := by
      rw [← Option.isSome_iff_exists, ← hsingle]
      exact (Storage.hasSingleKey_iff t.storage).symm
    have hlooks : t.layout.looksFor = (Layout.isPresent · column) := by
      funext row
      have hkey : t.layout.keyColumn = some column := hcolumn
      have hlayout : t.layout.kind = .hash ∨ t.layout.kind = .tree := hkind
      rcases hlayout with hlayout | hlayout <;>
        simp only [Layout.looksFor, hlayout, hkey, Option.any_some]
    have hnodup := h.accepted.nodup_filter hlist
    rw [hlooks] at hnodup
    exact ⟨column, hcolumn, hnodup⟩
  multi hkind := by
    have hlooks : t.layout.looksFor =
        fun row => t.declarations.any fun d => Layout.isPresent row d.column := by
      funext row
      have hlayout : t.layout.kind = .multi := hkind
      simp only [Layout.looksFor, hlayout]
      rfl
    have hnodup := h.accepted.nodup_filter (by rw [hkind]; decide)
    rwa [hlooks] at hnodup

/-! ### Refusals -/

/-- A row to which nothing is found is stored. -/
theorem Database.Regular.insert_ne {db : Database} (h : db.Regular p) (name : String) (row : Row)
    (table : String) : db.insert name row ≠ .error (.internal (.refusedRow table)) := by
  intro hinsert
  cases htable : db.table name with
  | error e =>
    rw [Database.insert, htable] at hinsert
    cases hinsert
    unfold Database.table at htable
    split at htable <;> cases htable
  | ok t =>
    cases hrow : row.check t.schema with
    | error e =>
      simp only [Database.insert, htable, bind, Except.bind, hrow] at hinsert
      cases hinsert
      exact Row.check_ne_internal row t.schema _ hrow
    | ok u =>
      rw [insert_eq (h.table t (mem_of_table_eq_ok htable).1) htable hrow] at hinsert
      contradiction

theorem Database.Regular.intact {db : Database} (h : db.Regular p) : db.Intact where
  nodup_names := h.nodup_names
  mem_names_iff _ := mem_names_iff
  name_eq _ _ ht := (mem_of_table_eq_ok ht).2
  table _ _ ht := (h.table _ (mem_of_table_eq_ok ht).1).intact
  insert_ne := h.insert_ne
  execute_ne tables row table := by
    intro hexecute
    rcases bind_eq_error_iff.1 hexecute with htarget | ⟨name, -, hexecute⟩
    · cases tables <;> cases htarget
    · rcases bind_eq_error_iff.1 hexecute with hinsert | ⟨outcome, -, hexecute⟩
      · exact h.insert_ne name row table hinsert
      · cases hexecute

/-! ### Runs -/

namespace Database

/-- Requests keep a database regular. -/
theorem Regular.replay {db : Database} (h : db.Regular p) {requests : List Request}
    (hp : ∀ r ∈ requests, ∀ s ∈ r.schema?, p s) : (replay handle db requests).2.Regular p :=
  replay_keeps (fun r hr _ hdb => hdb.step (step_handle (hp r hr))) h

/-- A database that starts without tables, in memory or opened with any configuration on an empty
directory, is intact after any requests. -/
theorem intact_replay {start : Database}
    (hstart : start = inMemory ∨ ∃ config files files',
      (∀ directory ∈ config.directory, files.namesIn directory = []) ∧
        (load config).run files = (.ok start, files'))
    (requests : List Request) : (RelStore.replay handle start requests).2.Intact := by
  have hempty : ∃ config, start = .empty config := by
    rcases hstart with rfl | ⟨config, files, files', hnames, hload⟩
    · exact ⟨{}, rfl⟩
    · rw [run_load_of_namesIn hnames] at hload
      cases hload
      exact ⟨config, rfl⟩
  obtain ⟨config, rfl⟩ := hempty
  have hregular : (Database.empty config).Regular fun _ => True := .empty config
  exact (hregular.replay fun _ _ _ _ => trivial).intact

/-- A tree whose key is the second column, in a database opened on a directory that is not there: of
equal rows all are stored if they have no key, and one if they have. -/
theorem intact_replay_tree :
    let config : Config := { directory := some "data" }
    let files : FileTree := {}
    let s : Schema := ⟨"t", [⟨"a", .int⟩, ⟨"b", .int⟩], none⟩
    let requests : List Request := [.create s [⟨1, .none⟩, ⟨1, .tree⟩, ⟨1, .hash⟩] none,
      .insert "t" [.int 1, .null], .insert "t" [.int 1, .null], .insert "t" [.int 1, .int 2],
      .insert "t" [.int 1, .int 2], .insert "u" []]
    let db := (RelStore.replay handle (.empty config) requests).2
    files.namesIn "data" = [] ∧ (load config).run files = (.ok (.empty config), files) ∧
      db.tables.map (·.records) =
        [[[.int 1, .null], [.int 1, .null], [.int 1, .int 2]]] ∧
      db.Intact := by
  intro config files s requests db
  have hnames : ∀ directory ∈ config.directory, files.namesIn directory = [] := by
    exact fun directory _ => FileTree.namesIn_empty directory
  have hload : (load config).run files = (.ok (.empty config), files) := run_load_of_namesIn hnames
  exact ⟨hnames "data" rfl, hload, by decide +kernel,
    intact_replay (.inr ⟨config, files, files, hnames, hload⟩) requests⟩

end Database

end RelStore
