import RelStore.Proofs.Agreement
import RelStore.Proofs.Database.Save

/-!
# Sessions

In a session a database gets requests, is saved, and is opened anew from the files, in any order
(`Session.act`).  `Session.save_reopens` is the main result: in a session that starts without tables
and with an empty directory, and in which no action on a file fails, every save succeeds, and leaves
the manifest and the files of the tables and nothing else; what is opened right after it has the
same tables.

The invariant (`Session.Consistent`) is that the directory keeps some tables, each of which the
database still has or has dropped since.  So a file whose table is gone is removed by the next save,
and what is created again under an old name is written anew.

Actions on files do not fail as long as the directory has room for the files of all tables that the
session ever has (`Session.Roomy`), and no action takes the room away (`Session.roomy_replay`).
-/

namespace RelStore

open DataDirectory

/-- A database and the files where it is saved. -/
structure Session where
  db : Database
  files : FileTree

/-- What is done in a session. -/
inductive SessionAction where
  | request (r : Request)
  | save
  /-- The database is opened anew; what was not saved is lost. -/
  | reopen

/-- The schema of the table that is created. -/
def SessionAction.schema? : SessionAction → Option Schema
  | request r => r.schema?
  | _ => none

/-- The answer to an action, if it is a request, and the session after it. -/
def Session.act (s : Session) : SessionAction → Except Error (Option Answer) × Session
  | .request r =>
    let (answer, db) := s.db.handle r
    (answer.map some, { s with db })
  | .save =>
    let (outcome, db, files) := s.db.save s.files
    (outcome.map fun _ => none, ⟨db, files⟩)
  | .reopen =>
    match (Database.load s.db.config).run s.files with
    | (.ok db, files) => (.ok none, ⟨db, files⟩)
    | (.error e, files) => (.error e, { s with files })

/-! ### Names -/

namespace Database

variable {p : Schema → Prop} {db db' : Database} {name : String}

/-- A step forgets no table. -/
theorem Step.remembers (hstep : db.Step p db') (h : db.Remembers name) : db'.Remembers name := by
  unfold Remembers at h ⊢
  cases hstep with
  | none => exact h
  | @create _ s _ _ _ _ hcreate =>
    obtain ⟨hnames, hdropped⟩ := names_of_create hcreate
    rw [hnames, hdropped, List.mem_append, List.mem_singleton, List.mem_filter, decide_eq_true_eq]
    by_cases hname : name = s.table
    · exact .inl (.inr hname)
    · exact h.imp .inl (⟨·, hname⟩)
  | insert hinsert =>
    obtain ⟨hnames, hdropped⟩ := names_of_insert hinsert
    rwa [hnames, hdropped]
  | @drop _ gone hdrop =>
    obtain ⟨hnames, hdropped⟩ := names_of_drop hdrop
    rw [hnames, hdropped, List.mem_append, List.mem_singleton, List.mem_filter, List.mem_filter,
      decide_eq_true_eq]
    by_cases hname : name = gone
    · exact .inr (.inr hname)
    · exact h.imp (⟨·, hname⟩) (.inl ⟨·, hname⟩)

/-- What is remembered after a step was remembered before, or is the name of a table that may be
created. -/
theorem Step.remembers_imp {names : String → Prop} (hstep : db.Step p db')
    (hp : ∀ s, p s → names s.table) (h : ∀ name, db.Remembers name → names name) (name : String)
    (hname : db'.Remembers name) : names name := by
  unfold Remembers at h hname
  cases hstep with
  | none => exact h name hname
  | @create _ s _ _ _ hs hcreate =>
    obtain ⟨hnames, hdropped⟩ := names_of_create hcreate
    rw [hnames, hdropped, List.mem_append, List.mem_singleton, List.mem_filter] at hname
    rcases hname with (hname | rfl) | hname
    · exact h name (.inl hname)
    · exact hp s hs
    · exact h name (.inr hname.1)
  | insert hinsert =>
    obtain ⟨hnames, hdropped⟩ := names_of_insert hinsert
    rw [hnames, hdropped] at hname
    exact h name hname
  | @drop _ gone hdrop =>
    obtain ⟨hnames, hdropped⟩ := names_of_drop hdrop
    rw [hnames, hdropped, List.mem_append, List.mem_singleton, List.mem_filter, List.mem_filter]
      at hname
    rcases hname with hname | hname | rfl
    · exact h name (.inl hname.1)
    · exact h name (.inr hname.1)
    · exact h name (.inl (drop_eq_ok hdrop).1)

theorem Regular.slash_not_mem (h : db.Regular Schema.Savable) (hname : name ∈ db.names) :
    '/' ∉ name.toList := by
  obtain ⟨t, ht, rfl⟩ := List.mem_map.1 hname
  rw [← (h.table t ht).table_eq]
  exact (h.table t ht).schema.slash_not_mem

theorem DroppedApart.step (h : db.DroppedApart) (hdb : db.Regular Schema.Savable)
    (hstep : db.Step p db') : db'.DroppedApart := by
  cases hstep with
  | none => exact h
  | @create _ s _ _ _ _ hcreate =>
    intro name hname
    obtain ⟨hnames, hdropped⟩ := names_of_create hcreate
    rw [hdropped, List.mem_filter, decide_eq_true_eq] at hname
    rw [hnames, List.mem_append, List.mem_singleton]
    exact ⟨not_or.2 ⟨(h name hname.1).1, hname.2⟩, (h name hname.1).2⟩
  | insert hinsert =>
    obtain ⟨hnames, hdropped⟩ := names_of_insert hinsert
    unfold DroppedApart
    rwa [hnames, hdropped]
  | @drop _ gone hdrop =>
    intro name hname
    obtain ⟨hnames, hdropped⟩ := names_of_drop hdrop
    rw [hdropped, List.mem_append, List.mem_singleton, List.mem_filter, decide_eq_true_eq] at hname
    rw [hnames, List.mem_filter, decide_eq_true_eq, not_and_or, not_not]
    rcases hname with hname | rfl
    · exact ⟨.inl (h name hname.1).1, (h name hname.1).2⟩
    · exact ⟨.inr rfl, hdb.slash_not_mem (drop_eq_ok hdrop).1⟩

/-! ### Directories of databases -/

/-- What is in the directory of a database: nothing yet, or the files of tables that the database
remembers. -/
inductive Backed (db : Database) (directory : String) (files : FileTree) : Prop
  /-- Once the directory is there, it is empty. -/
  | fresh (h : ∀ made, files.makeDirectories directory = (.ok (), made) →
      made.namesIn directory = [])
  | kept {location : Location} {reach : String → Prop} {contents : String → Option String}
      {tables : List Table} (hholds : files.Holds directory location reach contents)
      (hkeeps : Keeps contents tables) (hnames : (tables.map (·.name)).Nodup)
      (hregular : ∀ t ∈ tables, t.Regular Schema.Savable)
      (hremembers : ∀ t ∈ tables, db.Remembers t.name)

namespace Backed

variable {directory : String} {files : FileTree}

theorem mono (h : db.Backed directory files)
    (hremembers : ∀ name, db.Remembers name → db'.Remembers name) : db'.Backed directory files := by
  cases h with
  | fresh h => exact .fresh h
  | kept hholds hkeeps hnames hregular hkept =>
    exact .kept hholds hkeeps hnames hregular fun t ht => hremembers _ (hkept t ht)

theorem ownsDirectory (h : db.Backed directory files) : db.OwnsDirectory directory files := by
  intro made hmake
  cases h with
  | fresh h =>
    obtain ⟨location, hdirectory, -⟩ := FileTree.directoryAt_makeDirectories hmake
    exact ⟨location, _, hdirectory.holds_empty (h made hmake), fun _ hsome => nomatch hsome⟩
  | @kept location _ contents tables hholds hkeeps hnames hregular hremembers =>
    rw [hholds.directory.makeDirectories_self] at hmake
    cases hmake
    refine ⟨location, contents, hholds.fits, fun name hsome => ?_⟩
    refine (hkeeps.only name hsome).imp_right ?_
    rintro ⟨table, htable, hname⟩
    obtain ⟨t, ht, rfl⟩ := List.mem_map.1 htable
    exact ⟨t.name, hremembers t ht, hname⟩

/-- What is opened remembers what is in the directory. -/
theorem exists_load (h : db.Backed directory files) {config : Config}
    (hdirectory : config.directory = some directory) :
    ∃ opened, (load config).run files = (.ok opened, files) ∧ opened.config = config ∧
      opened.dropped = [] ∧ opened.Regular Schema.Savable ∧ opened.Backed directory files ∧
      ∀ name ∈ opened.names, db.Remembers name := by
  cases h with
  | fresh h =>
    have hmanifest : files.contains (manifestPath directory) = false :=
      FileTree.contains_eq_false_of_directoryAt isName_catalog fun _ hthere =>
        h files hthere.makeDirectories_self
    refine ⟨.empty config, run_load_of_contains_eq_false fun other hother => ?_, rfl, rfl,
      .empty config, .fresh h, fun _ hname => absurd hname List.not_mem_nil⟩
    rw [hdirectory] at hother
    cases hother
    exact hmanifest
  | kept hholds hkeeps hnames hregular hremembers =>
    obtain ⟨tables', hload, hcopies, hregular'⟩ :=
      Database.exists_load hdirectory hregular hnames hholds hkeeps
    have hsame := map_eq_map_of_rel hcopies fun _ _ => Table.Copy.name_eq
    refine ⟨_, hload, rfl, rfl, ⟨?_, hregular'⟩,
      .kept hholds hkeeps hnames hregular fun t ht => .inl ?_, fun name hname => ?_⟩
    · rwa [names, hsame]
    · rw [names, hsame]
      exact List.mem_map_of_mem ht
    · rw [names, hsame] at hname
      obtain ⟨t, ht, rfl⟩ := List.mem_map.1 hname
      exact hremembers t ht

end Backed

end Database

/-! ### Files of a saved database -/

/-- In the directory are the manifest and the files of the tables, with the right texts, and nothing
else. -/
structure Database.StoredIn (db : Database) (directory : String) (files : FileTree) : Prop where
  names : (files.namesIn directory).Perm ("catalog" :: db.names.map fileName)
  catalog : files.readText (manifestPath directory) = .ok (manifestOf db.tables).encode
  table : ∀ t ∈ db.tables, ∃ text, (TableFile.ofTable t).encode t.kind = .ok text ∧
    files.readText (tablePath directory t.name) = .ok text

theorem DataDirectory.Keeps.storedIn {db : Database} {directory : String} {files : FileTree}
    {location : Location} {reach : String → Prop} {contents : String → Option String}
    (h : Keeps contents db.tables) (hnames : db.names.Nodup)
    (hholds : files.Holds directory location reach contents) :
    db.StoredIn directory files where
  names := by
    have hnodup : ("catalog" :: db.names.map fileName).Nodup := by
      refine List.nodup_cons.2 ⟨fun hcatalog => ?_, hnames.map fun _ _ => fileName_inj.1⟩
      obtain ⟨table, -, heq⟩ := List.mem_map.1 hcatalog
      exact fileName_ne_catalog table heq
    rw [List.perm_ext_iff_of_nodup (files.nodup_namesIn directory) hnodup]
    intro name
    rw [hholds.mem_namesIn, List.mem_cons]
    constructor
    · intro hsome
      refine (h.only name hsome).imp_right ?_
      rintro ⟨table, htable, rfl⟩
      exact List.mem_map_of_mem htable
    · rintro (rfl | hname)
      · rw [h.catalog]
        rfl
      · obtain ⟨table, htable, rfl⟩ := List.mem_map.1 hname
        obtain ⟨t, ht, rfl⟩ := List.mem_map.1 htable
        obtain ⟨text, -, htext⟩ := h.table t ht
        rw [htext]
        rfl
  catalog := hholds.readText h.catalog
  table t ht := by
    obtain ⟨text, hencode, htext⟩ := h.table t ht
    exact ⟨text, hencode, hholds.readText htext⟩

/-! ### Steps of a session -/

namespace Session

/-- What holds in a session in which no action on a file fails. -/
structure Consistent (config : Config) (directory : String) (s : Session) : Prop where
  config_eq : s.db.config = config
  regular : s.db.Regular Schema.Savable
  dropped : s.db.DroppedApart
  backed : s.db.Backed directory s.files

namespace Consistent

variable {config : Config} {directory : String} {s : Session}

/-- Opening the database of a directory makes a consistent session. -/
theorem exists_load {db : Database} {files : FileTree} (h : db.Backed directory files)
    (hdirectory : config.directory = some directory) :
    ∃ opened, (Database.load config).run files = (.ok opened, files) ∧
      Session.Consistent config directory ⟨opened, files⟩ ∧
      ∀ name, opened.Remembers name → db.Remembers name := by
  obtain ⟨opened, hload, hconfig, hdropped, hregular, hbacked, hnames⟩ := h.exists_load hdirectory
  refine ⟨opened, hload, ⟨hconfig, hregular, fun name hname => ?_, hbacked⟩, fun name hname => ?_⟩
  · rw [hdropped] at hname
    exact absurd hname List.not_mem_nil
  · rw [Database.Remembers, hdropped] at hname
    exact hnames name (hname.resolve_right List.not_mem_nil)

theorem request (h : s.Consistent config directory) {r : Request}
    (hr : ∀ schema ∈ r.schema?, schema.Savable) :
    (s.act (.request r)).2.Consistent config directory := by
  have hstep : s.db.Step Schema.Savable (s.db.handle r).2 := Database.step_handle hr
  exact ⟨hstep.config_eq.trans h.config_eq, h.regular.step hstep, h.dropped.step h.regular hstep,
    h.backed.mono fun _ => hstep.remembers⟩

/-- A save succeeds and leaves what the database has, unless there is no room and an action on a
file fails. -/
theorem save_cases (h : s.Consistent config directory)
    (hdirectory : config.directory = some directory) :
    (¬ s.db.HasRoom directory s.files ∧ ∃ fault, (s.act .save).1 = .error (.file fault)) ∨
      (s.act .save).1 = .ok none ∧ (s.act .save).2.db = { s.db with dropped := [] } ∧
        ∃ made location contents, s.files.makeDirectories directory = (.ok (), made) ∧
          (s.act .save).2.files.Holds directory location (made.Fits directory) contents ∧
            Keeps contents s.db.tables := by
  have hdirectory' : s.db.config.directory = some directory := by rw [h.config_eq, hdirectory]
  have howns := h.backed.ownsDirectory
  refine (Database.save_cases hdirectory' h.regular h.dropped howns).imp ?_ ?_
  · rintro ⟨hroom, fault, hfault⟩
    refine ⟨hroom, fault, ?_⟩
    simp only [act, hfault]
    rfl
  · rintro ⟨hok, hdb, hkeeps⟩
    refine ⟨?_, hdb, hkeeps⟩
    simp only [act, hok]
    rfl

theorem save (h : s.Consistent config directory) (hdirectory : config.directory = some directory)
    (hfiles : ∀ fault, (s.act .save).1 ≠ .error (.file fault)) :
    (s.act .save).1 = .ok none ∧ (s.act .save).2.db = { s.db with dropped := [] } ∧
      ∃ made location contents, s.files.makeDirectories directory = (.ok (), made) ∧
        (s.act .save).2.files.Holds directory location (made.Fits directory) contents ∧
          Keeps contents s.db.tables := by
  rcases h.save_cases hdirectory with ⟨-, fault, hfault⟩ | hsaved
  · exact absurd hfault (hfiles fault)
  · exact hsaved

/-- Where there is room no action on a file fails. -/
theorem ne_file_of_hasRoom (h : s.Consistent config directory)
    (hdirectory : config.directory = some directory) (hroom : s.db.HasRoom directory s.files)
    (fault : FileFault) : (s.act .save).1 ≠ .error (.file fault) := by
  rcases h.save_cases hdirectory with ⟨hnone, -⟩ | ⟨hok, -⟩
  · exact absurd hroom hnone
  · rw [hok]
    exact nofun

theorem reopen (h : s.Consistent config directory)
    (hdirectory : config.directory = some directory) :
    (s.act .reopen).2.Consistent config directory := by
  obtain ⟨opened, hload, hopened, -⟩ := exists_load h.backed hdirectory
  rw [← h.config_eq] at hload
  simp only [act, hload]
  exact hopened

/-- An action keeps a session consistent. -/
theorem act (h : s.Consistent config directory) (hdirectory : config.directory = some directory)
    {a : SessionAction} (ha : ∀ schema ∈ a.schema?, schema.Savable)
    (hfiles : ∀ fault, (s.act a).1 ≠ .error (.file fault)) :
    (s.act a).2.Consistent config directory := by
  cases a with
  | request r => exact h.request ha
  | reopen => exact h.reopen hdirectory
  | save =>
    obtain ⟨-, hdb, made, location, contents, -, hholds, hkeeps⟩ := h.save hdirectory hfiles
    constructor
    · rw [hdb]
      exact h.config_eq
    · rw [hdb]
      exact ⟨h.regular.nodup_names, h.regular.table⟩
    · rw [hdb]
      exact fun _ hname => absurd hname List.not_mem_nil
    · rw [hdb]
      exact .kept hholds hkeeps h.regular.nodup_names h.regular.table fun t ht =>
        .inl (List.mem_map_of_mem ht)

end Consistent

/-! ### Runs -/

section Runs

variable {config : Config} {directory : String} {start : Session} {files : FileTree}
  {actions : List SessionAction}

/-- A session that begins on an empty directory is consistent. -/
theorem consistent_start (hdirectory : config.directory = some directory)
    (hempty : ∀ made, files.makeDirectories directory = (.ok (), made) →
      made.namesIn directory = [])
    (hopen : (Database.load config).run files = (.ok start.db, start.files)) :
    start.Consistent config directory := by
  have hfresh : start.db.Backed directory files := .fresh hempty
  obtain ⟨opened, hload, hopened, -⟩ := Consistent.exists_load hfresh hdirectory
  rw [hopen] at hload
  cases start
  cases hload
  exact hopened

/-- Sessions that begin on an empty directory stay consistent. -/
theorem consistent_replay (hdirectory : config.directory = some directory)
    (hempty : ∀ made, files.makeDirectories directory = (.ok (), made) →
      made.namesIn directory = [])
    (hopen : (Database.load config).run files = (.ok start.db, start.files))
    (hschemas : ∀ a ∈ actions, ∀ schema ∈ a.schema?, schema.Savable)
    (hanswers : ∀ answer ∈ (replay Session.act start actions).1,
      ∀ fault, answer ≠ .error (.file fault)) :
    (replay Session.act start actions).2.Consistent config directory := by
  have hstart := consistent_start hdirectory hempty hopen
  exact replay_keeps_while (fun a ha s hs => hs.act hdirectory (hschemas a ha)) hstart hanswers

/-- In a session that begins on an empty directory, and in which no action on a file fails, a save
succeeds, stores the tables and nothing else, and what is opened after it has copies of the tables,
in their order. -/
theorem save_reopens (hdirectory : config.directory = some directory)
    (hempty : ∀ made, files.makeDirectories directory = (.ok (), made) →
      made.namesIn directory = [])
    (hopen : (Database.load config).run files = (.ok start.db, start.files))
    (hschemas : ∀ a ∈ actions, ∀ schema ∈ a.schema?, schema.Savable)
    (hanswers : ∀ answer ∈ (replay Session.act start actions).1,
      ∀ fault, answer ≠ .error (.file fault))
    (hsave : ∀ fault, ((replay Session.act start actions).2.act .save).1 ≠ .error (.file fault)) :
    let before := (replay Session.act start actions).2
    let saved := before.act .save
    saved.1 = .ok none ∧ saved.2.db = { before.db with dropped := [] } ∧
      before.db.StoredIn directory saved.2.files ∧
      ∃ opened, (Database.load config).run saved.2.files = (.ok opened, saved.2.files) ∧
        opened.names = before.db.names ∧
        List.Forall₂ Table.Copy before.db.tables opened.tables := by
  intro before saved
  have hbefore : before.Consistent config directory :=
    consistent_replay hdirectory hempty hopen hschemas hanswers
  obtain ⟨hok, hdb, made, location, contents, -, hholds, hkeeps⟩ := hbefore.save hdirectory hsave
  have hnames := hbefore.regular.nodup_names
  obtain ⟨tables, hload, hcopies, -⟩ :=
    Database.exists_load hdirectory hbefore.regular.table hnames hholds hkeeps
  have hsame := map_eq_map_of_rel hcopies fun _ _ => Table.Copy.name_eq
  exact ⟨hok, hdb, hkeeps.storedIn hnames hholds, _, hload, hsame, hcopies⟩

end Runs

/-! ### Room -/

/-- What holds in a session in which the directory has room for the files of all tables that it ever
has. -/
structure Roomy (names : String → Prop) (config : Config) (directory : String) (s : Session) : Prop
    extends s.Consistent config directory where
  room : RoomFor directory names s.files
  remembers : ∀ name, s.db.Remembers name → names name

namespace Roomy

variable {names : String → Prop} {config : Config} {directory : String} {s : Session}

theorem request (h : s.Roomy names config directory) {r : Request}
    (hr : ∀ schema ∈ r.schema?, schema.Savable ∧ names schema.table) :
    (s.act (.request r)).2.Roomy names config directory where
  toConsistent := h.toConsistent.request fun schema hschema => (hr schema hschema).1
  room := h.room
  remembers := by
    have hstep : s.db.Step (fun schema => schema.Savable ∧ names schema.table) (s.db.handle r).2 :=
      Database.step_handle hr
    exact hstep.remembers_imp (fun _ hschema => hschema.2) h.remembers

theorem requests (h : s.Roomy names config directory) {requests : List Request}
    (hr : ∀ r ∈ requests, ∀ schema ∈ r.schema?, schema.Savable ∧ names schema.table) :
    Roomy names config directory { s with db := (replay Database.handle s.db requests).2 } :=
  replay_keeps (P := fun db => Roomy names config directory { s with db })
    (fun r hmem _ hdb => hdb.request (hr r hmem)) h

/-- A save succeeds where there is room, and leaves the room. -/
theorem save (h : s.Roomy names config directory) (hdirectory : config.directory = some directory) :
    (s.act .save).1 = .ok none ∧ (s.act .save).2.db = { s.db with dropped := [] } ∧
      (s.act .save).2.Roomy names config directory := by
  have hfiles := h.ne_file_of_hasRoom hdirectory (h.room.mono h.remembers)
  obtain ⟨hok, hdb, made, location, contents, hmade, hholds, -⟩ :=
    h.toConsistent.save hdirectory hfiles
  refine ⟨hok, hdb, h.act hdirectory (by simp [SessionAction.schema?]) hfiles,
    h.room.of_holds hmade hholds, fun name hname => ?_⟩
  rw [hdb] at hname
  exact h.remembers name (.inl (hname.resolve_right List.not_mem_nil))

theorem reopen (h : s.Roomy names config directory)
    (hdirectory : config.directory = some directory) :
    (s.act .reopen).1 = .ok none ∧ (s.act .reopen).2.Roomy names config directory := by
  obtain ⟨opened, hload, hopened, hnames⟩ := Consistent.exists_load h.backed hdirectory
  rw [← h.config_eq] at hload
  simp only [Session.act, hload]
  exact ⟨trivial, hopened, h.room, fun name hname => h.remembers name (hnames name hname)⟩

/-- What is opened after a save has copies of the tables. -/
theorem exists_save_reopen (h : s.Roomy names config directory)
    (hdirectory : config.directory = some directory) :
    ∃ tables files, replay Session.act s [.save, .reopen] =
        ([.ok none, .ok none], ⟨{ config, tables, dropped := [] }, files⟩) ∧
      List.Forall₂ Table.Copy s.db.tables tables := by
  have hfiles := h.ne_file_of_hasRoom hdirectory (h.room.mono h.remembers)
  obtain ⟨hok, hdb, made, location, contents, -, hholds, hkeeps⟩ :=
    h.toConsistent.save hdirectory hfiles
  obtain ⟨tables, hload, hcopies, -⟩ :=
    Database.exists_load hdirectory h.regular.table h.regular.nodup_names hholds hkeeps
  have hconfig : (s.act .save).2.db.config = config := by rw [hdb, h.config_eq]
  have hreopen : (s.act .save).2.act .reopen =
      (.ok none, ⟨{ config, tables, dropped := [] }, (s.act .save).2.files⟩) := by
    generalize (s.act .save).2 = saved at *
    simp only [Session.act, hconfig, hload]
  refine ⟨tables, (s.act .save).2.files, ?_, hcopies⟩
  simp only [replay, hreopen, hok]

end Roomy

/-- The room is kept, so that every save and every reopening in a run succeeds. -/
theorem roomy_replay {names : String → Prop} {config : Config} {directory : String} {s : Session}
    (hdirectory : config.directory = some directory) (h : s.Roomy names config directory)
    {actions : List SessionAction}
    (hschemas : ∀ a ∈ actions, ∀ schema ∈ a.schema?, schema.Savable ∧ names schema.table) :
    (replay Session.act s actions).2.Roomy names config directory := by
  refine replay_keeps (fun a ha s hs => ?_) h
  cases a with
  | request r => exact hs.request (hschemas _ ha)
  | save => exact (hs.save hdirectory).2.2
  | reopen => exact (hs.reopen hdirectory).2

/-- Requests leave the files alone, and get the answers of the database. -/
theorem replay_request (s : Session) (requests : List Request) :
    replay Session.act s (requests.map .request) =
      ((replay Database.handle s.db requests).1.map (·.map some),
        { s with db := (replay Database.handle s.db requests).2 }) := by
  induction requests generalizing s with
  | nil => rfl
  | cons r requests ih => simp only [List.map_cons, replay, act, ih]

/-- Once all tables are gone, what is opened after a save is as good as new. -/
theorem Roomy.replay_save_reopen {names : String → Prop} {config : Config} {directory : String}
    {s : Session} (h : s.Roomy names config directory)
    (hdirectory : config.directory = some directory) (hnone : s.db.names = [])
    (requests : List Request) :
    ∃ files, replay Session.act s ([.save, .reopen] ++ requests.map .request) =
      ([.ok none, .ok none] ++ (replay Database.handle (.empty config) requests).1.map (·.map some),
        ⟨(replay Database.handle (.empty config) requests).2, files⟩) := by
  obtain ⟨tables, files, hrun, hcopies⟩ := h.exists_save_reopen hdirectory
  rw [List.map_eq_nil_iff.1 hnone, List.forall₂_nil_left_iff] at hcopies
  refine ⟨files, ?_⟩
  rw [replay_append, hrun, hcopies, replay_request]
  rfl

/-- Tables that are created and saved, then all dropped, leave nothing for what is created after the
next save and reopening. -/
theorem Roomy.replay_recreated {names : String → Prop} {config : Config} {directory : String}
    {s : Session} (h : s.Roomy names config directory)
    (hdirectory : config.directory = some directory) (early drops later : List Request)
    (hearly : ∀ r ∈ early, ∀ schema ∈ r.schema?, schema.Savable ∧ names schema.table)
    (hdrops : ∀ r ∈ drops, r.schema? = none)
    (hgone : (replay Database.handle
      { (replay Database.handle s.db early).2 with dropped := [] } drops).2.names = [])
    {actions : List SessionAction}
    (hactions : early.map .request ++ ([.save] ++ (drops.map .request ++ ([.save, .reopen] ++
      later.map .request))) = actions) :
    let first := replay Database.handle s.db early
    let second := replay Database.handle { first.2 with dropped := [] } drops
    let third := replay Database.handle (.empty config) later
    let run := replay Session.act s actions
    run.1 = first.1.map (·.map some) ++ ([.ok none] ++ (second.1.map (·.map some) ++
        ([.ok none, .ok none] ++ third.1.map (·.map some)))) ∧
      run.2.db = third.2 := by
  intro first second third run
  obtain ⟨hok, hdb, hsaved⟩ := (h.requests hearly).save hdirectory
  generalize hrest : Session.act { s with db := first.2 } .save = saved at hok hdb hsaved
  have hsecond : Roomy names config directory
      { saved.2 with db := (replay Database.handle saved.2.db drops).2 } :=
    hsaved.requests fun r hr => by simp [hdrops r hr]
  rw [hdb] at hsecond
  obtain ⟨files, hthird⟩ := hsecond.replay_save_reopen hdirectory hgone later
  have hsave : replay Session.act { s with db := first.2 } [.save] = ([.ok none], saved.2) := by
    simp only [replay, hrest, hok]
  have hrun : run = _ := congrArg (replay Session.act s) hactions.symm
  rw [replay_append, replay_request, replay_append, hsave, replay_append, replay_request, hdb,
    hthird] at hrun
  exact ⟨congrArg Prod.fst hrun, congrArg (·.2.db) hrun⟩

/-- A session that begins with no files has room for tables with short names. -/
theorem roomy_start {names : String → Prop} {config : Config} {directory : String}
    (hdirectory : config.directory = some directory) (hname : Path.IsName directory)
    (haccepts : ({} : FileTree).accepts directory)
    (hshort : directory.utf8ByteSize ≤ FileTree.nameLimit)
    (hslash : ∀ table, names table → '/' ∉ table.toList)
    (hfits : ∀ name, IsOwned names name → ({} : FileTree).Fits directory (name ++ ".tmp")) :
    Roomy names config directory ⟨.empty config, {}⟩ where
  toConsistent := consistent_start hdirectory
    (fun _ => FileTree.namesIn_makeDirectories_empty hname haccepts hshort)
    (Database.run_load_of_namesIn fun _ _ => FileTree.namesIn_empty _)
  room := roomFor_name hname haccepts hshort (FileTree.get?_empty (by simp)) hslash hfits
  remembers name hname := by
    simp [Database.Remembers, Database.names, Database.empty] at hname

/-- A saved table is dropped, which is saved and reopened; then it is created again with another
index, beside a table that is dropped again.  Its file is the new one, and the other has none. -/
theorem save_reopens_recreated :
    let config : Config := { directory := some "data" }
    let start : Session := ⟨.empty config, {}⟩
    let s : Schema := ⟨"t", [⟨"a", .int⟩, ⟨"b", .varchar 3⟩], none⟩
    let u : Schema := ⟨"u", [⟨"c", .int⟩], none⟩
    let actions : List SessionAction := [
      .request (.create s [⟨1, .tree⟩] none), .request (.insert "t" [.int 1, .text "x"]), .save,
      .request (.drop "t"), .save, .reopen, .request (.create u [] none),
      .request (.create s [⟨0, .tree⟩] none), .request (.insert "t" [.int 2, .text "y"]),
      .request (.drop "u")]
    let saved := (replay Session.act start actions).2.act .save
    saved.1 = .ok none ∧ (saved.2.files.namesIn "data").Perm ["catalog", "t.tbl"] ∧
      ∃ opened, (Database.load config).run saved.2.files = (.ok opened, saved.2.files) ∧
        opened.tables.map (·.records) = [[[.int 2, .text "y"]]] := by
  intro config start s u actions
  dsimp only
  have hs : s.Savable := ⟨⟨by decide, by decide, by decide, by decide⟩, by decide, by decide⟩
  have hu : u.Savable := ⟨⟨by decide, by decide, by decide, by decide⟩, by decide, by decide⟩
  have hschemas : ∀ a ∈ actions, ∀ schema ∈ a.schema?,
      schema.Savable ∧ schema.table ∈ ["t", "u"] := by
    simp [actions, SessionAction.schema?, Request.schema?, hs, hu, s, u]
  have hname : Path.IsName "data" := ⟨by decide, by decide, by decide⟩
  have haccepts : ({} : FileTree).accepts "data" := by decide +kernel
  have hstart : start.Roomy (· ∈ ["t", "u"]) config "data" := by
    refine roomy_start rfl hname haccepts (by decide) (by decide) ?_
    rintro name (rfl | ⟨table, htable, rfl⟩)
    · exact ⟨⟨by decide, by decide, by decide⟩, by decide +kernel, by decide⟩
    · simp only [List.mem_cons, List.not_mem_nil, or_false] at htable
      rcases htable with rfl | rfl
      all_goals exact ⟨⟨by decide, by decide, by decide⟩, by decide +kernel, by decide⟩
  obtain ⟨hanswers, hdb⟩ := hstart.replay_recreated rfl
    [.create s [⟨1, .tree⟩] none, .insert "t" [.int 1, .text "x"]] [.drop "t"]
    [.create u [] none, .create s [⟨0, .tree⟩] none, .insert "t" [.int 2, .text "y"], .drop "u"]
    (by simp [Request.schema?, hs, s]) (by simp [Request.schema?]) (by decide +kernel)
    (show _ = actions from rfl)
  have hfiles : ∀ answer ∈ (replay Session.act start actions).1,
      ∀ fault, answer ≠ .error (.file fault) := by
    have hlisted : (replay Session.act start actions).1 =
        [.ok (some (.created .tree)), .ok (some (.outcome (.inserted .success))), .ok none,
          .ok (some (.outcome .done)), .ok none, .ok none, .ok (some (.created .set)),
          .ok (some (.created .tree)), .ok (some (.outcome (.inserted .success))),
          .ok (some (.outcome .done))] := hanswers.trans (by decide +kernel)
    rw [hlisted]
    simp
  have hbefore := roomy_replay rfl hstart hschemas
  have hsave := hbefore.ne_file_of_hasRoom rfl (hbefore.room.mono hbefore.remembers)
  obtain ⟨hok, -, hstored, opened, hload, -, hcopies⟩ := save_reopens rfl
    (fun _ => FileTree.namesIn_makeDirectories_empty hname haccepts (by decide))
    (Database.run_load_of_namesIn fun _ _ => FileTree.namesIn_empty _)
    (fun a ha schema hschema => (hschemas a ha schema hschema).1) hfiles hsave
  have hfile : fileName "t" = "t.tbl" := by decide
  have hnames : (replay Session.act start actions).2.db.names = ["t"] := by
    rw [hdb]
    decide +kernel
  have hlisted := hstored.names
  rw [hnames, List.map_singleton, hfile] at hlisted
  refine ⟨hok, hlisted, opened, hload, ?_⟩
  rw [map_eq_map_of_rel hcopies fun _ _ => Table.Copy.records_eq, hdb]
  decide +kernel

end Session

end RelStore
