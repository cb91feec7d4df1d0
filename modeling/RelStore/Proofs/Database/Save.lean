import RelStore.Proofs.Database.Regular
import RelStore.Proofs.DataDirectory.Manifest
import RelStore.Proofs.TableFile.Restore

/-!
# Saving and loading

A data directory keeps tables if it holds their manifest, a file for each of them, and nothing else
(`DataDirectory.Keeps`).  Saving a database leaves a directory that keeps its tables, unless there
is no room for its files (`Database.save_cases`).  A file that was there before belongs to a table
that is still there, and is written anew, or to one that has been dropped since, and is removed.
Loading from a directory that keeps tables gives copies of them, in their order
(`Database.exists_load`).
-/

namespace RelStore

/-- A schema whose table can be saved: the lines of its file can be read back, and the name of the
table is the name of a file. -/
structure Schema.Savable (s : Schema) : Prop extends s.Storable where
  slash_not_mem : '/' ∉ s.table.toList
  null_not_mem : '\x00' ∉ s.table.toList

namespace DataDirectory

/-! ### Names of files -/

/-- The name of a table's file. -/
def fileName (table : String) : String :=
  table ++ ".tbl"

variable {table table' : String}

theorem isName_fileName (h : '/' ∉ table.toList) : Path.IsName (fileName table) :=
  Path.isName_append h ⟨by decide, by decide, by decide⟩

theorem fileName_inj : fileName table = fileName table' ↔ table = table' := by
  rw [fileName, fileName]
  exact String.append_left_inj ".tbl"

/-! The last characters tell the files of tables, temporary files and the manifest apart. -/

theorem getLast?_fileName (table : String) : (fileName table).toList.getLast? = some 'l' :=
  Path.getLast?_append (by decide)

theorem getLast?_temporary (name : String) : (name ++ ".tmp").toList.getLast? = some 'p' :=
  Path.getLast?_append (by decide)

theorem fileName_ne_catalog (table : String) : fileName table ≠ "catalog" := by
  intro heq
  have hlast := getLast?_fileName table
  rw [heq] at hlast
  exact absurd hlast (by decide)

theorem temporary_ne_catalog (name : String) : name ++ ".tmp" ≠ "catalog" := by
  intro heq
  have hlast := getLast?_temporary name
  rw [heq] at hlast
  exact absurd hlast (by decide)

theorem temporary_ne_fileName (name table : String) : name ++ ".tmp" ≠ fileName table := by
  intro heq
  have hlast := getLast?_temporary name
  rw [heq, getLast?_fileName] at hlast
  exact absurd hlast (by decide)

end DataDirectory

/-! ### Tables and their copies -/

/-- Two tables that are the same for a user, though their storages may be laid out otherwise in
memory. -/
structure Table.Copy (t t' : Table) : Prop where
  header_eq : t'.toHeader = t.toHeader
  kind_eq : t'.kind = t.kind
  keyColumn_eq : t'.keyColumn? = t.keyColumn?
  declarations_eq : t'.declarations = t.declarations
  records_eq : t'.records = t.records

theorem Table.Copy.name_eq {t t' : Table} (h : t.Copy t') : t'.name = t.name :=
  congrArg Header.name h.header_eq

namespace Table.Regular

variable {p : Schema → Prop} {t : Table}

theorem exists_text (h : t.Regular p) (hstorable : t.schema.Storable) :
    ∃ text, (TableFile.ofTable t).encode t.kind = .ok text ∧
      TableFile.decode t.kind text = .ok (TableFile.ofTable t) :=
  TableFile.decode_encode <|
    TableFile.fits_ofTable h.filled.coherent h.table_eq.symm h.check_eq h.inRange h.fits hstorable

/-- What the file of a regular table restores is regular and a copy of it. -/
theorem exists_copy (h : t.Regular p) (shape : Shape) :
    ∃ t', (TableFile.ofTable t).restore t.kind shape = .ok t' ∧ t'.Regular p ∧ t.Copy t' := by
  obtain ⟨t', hrestore, hheader, -, hlayout, hrecords⟩ :=
    TableFile.exists_restore h.filled.coherent h.inRange shape
  have hsame : t'.toHeader = t.toHeader := hheader.trans h.header_eq.symm
  have hschema : t'.schema = t.schema := congrArg Header.schema hsame
  have hname : t'.name = t.name := congrArg Header.name hsame
  have hfilled : t'.Filled fun s row => row.check s = .ok () := by
    obtain ⟨e, hempty, h'⟩ := bind_eq_ok_iff.1 hrestore
    cases h'
    refine .insertAll (.empty hempty) t.records ?_
    rw [(Table.isEmpty_of_empty hempty).header_eq]
    exact h.fits
  refine ⟨t', hrestore, ⟨⟨?_, ?_, ?_, hfilled, ?_⟩, ?_, ?_⟩, hsame, congrArg Layout.kind hlayout,
    congrArg Layout.keyColumn hlayout, congrArg Layout.declarations hlayout, hrecords⟩
  · rw [hschema, hname]
    exact h.table_eq
  · rw [hschema]
    exact h.check_eq
  · rw [hschema]
    exact h.schema
  · rw [Table.InRange, hlayout, hschema]
    exact h.inRange
  · rw [hname, hschema]
    exact hheader
  · intro before row after hsplit
    rw [hlayout, hschema]
    rw [hrecords] at hsplit
    exact h.accepted before row after hsplit

end Table.Regular

/-! ### Contents of data directories -/

namespace DataDirectory

/-- The name is that of the manifest, or of the file of a table with one of the given names. -/
def IsOwned (names : String → Prop) (name : String) : Prop :=
  name = "catalog" ∨ ∃ table, names table ∧ name = fileName table

/-- The only files are the manifest and the files of tables with the given names. -/
def Owned (contents : String → Option String) (names : String → Prop) : Prop :=
  ∀ name, (contents name).isSome → IsOwned names name

/-- The manifest, the files of tables with the given names and their temporary files can be
reached. -/
def Reaches (reach : String → Prop) (names : String → Prop) : Prop :=
  ∀ name, IsOwned names name → reach name ∧ reach (name ++ ".tmp")

/-- The directory can be made, and in it the names of these files are not too long. -/
def RoomFor (directory : String) (names : String → Prop) (files : FileTree) : Prop :=
  ∃ made, files.makeDirectories directory = (.ok (), made) ∧ Reaches (made.Fits directory) names

/-- There is a file with the right text for each of the tables. -/
def HasFiles (contents : String → Option String) (tables : List Table) : Prop :=
  ∀ t ∈ tables, ∃ text, (TableFile.ofTable t).encode t.kind = .ok text ∧
    contents (fileName t.name) = some text

/-- The manifest of tables. -/
def manifestOf (tables : List Table) : Manifest :=
  tables.map fun t => ⟨t.name, t.kind⟩

/-- The contents are the manifest and the files of the tables, and nothing else. -/
structure Keeps (contents : String → Option String) (tables : List Table) : Prop where
  catalog : contents "catalog" = some (manifestOf tables).encode
  table : HasFiles contents tables
  only : Owned contents (· ∈ tables.map (·.name))

theorem tablePath_eq (directory table : String) :
    tablePath directory table = Path.join directory (fileName table) := rfl

theorem writeTable_eq {path text : String} {t : Table}
    (h : (TableFile.ofTable t).encode t.kind = .ok text) :
    writeTable path t = Files.replace path text := by
  rw [writeTable, h]
  exact pure_bind text (Files.replace path)

theorem writeManifest_eq (directory : String) (tables : List Table) :
    writeManifest directory (tables.map fun t => ⟨t.name, t.kind⟩) =
      Files.replace (Path.join directory "catalog") (manifestOf tables).encode := rfl

theorem removeTable_eq (directory table : String) :
    removeTable directory table =
      Files.removeIfPresent (Path.join directory (fileName table)) := rfl

variable {contents : String → Option String} {names : String → Prop}

theorem RoomFor.mono {directory : String} {files : FileTree} {names' : String → Prop}
    (h : RoomFor directory names files) (hnames : ∀ table, names' table → names table) :
    RoomFor directory names' files := by
  obtain ⟨made, hmade, hreaches⟩ := h
  refine ⟨made, hmade, fun name howned => hreaches name (howned.imp_right ?_)⟩
  rintro ⟨table, htable, hname⟩
  exact ⟨table, hnames table htable, hname⟩

/-- A directory that is made has room for names that are not too long below it. -/
theorem roomFor_name {directory : String} {files : FileTree} (hdirectory : Path.IsName directory)
    (haccepts : files.accepts directory) (hshort : directory.utf8ByteSize ≤ FileTree.nameLimit)
    (hfree : files.get? [directory] = none) (hslash : ∀ table, names table → '/' ∉ table.toList)
    (hfits : ∀ name, IsOwned names name → files.Fits directory (name ++ ".tmp")) :
    RoomFor directory names files := by
  refine ⟨_, (FileTree.makeDirectories_name hdirectory haccepts hshort hfree).1, ?_⟩
  intro name howned
  obtain ⟨htemporary, hreached, hsize⟩ := hfits name howned
  have hname : Path.IsName name := by
    rcases howned with rfl | ⟨table, htable, rfl⟩
    · exact isName_catalog
    · exact isName_fileName (hslash table htable)
  exact ⟨.of_append hname ⟨htemporary, hreached, hsize⟩, htemporary, hreached, hsize⟩

/-- The directory keeps its room, whatever it holds. -/
theorem RoomFor.of_holds {directory : String} {files files' made : FileTree} {location : Location}
    (h : RoomFor directory names files) (hmade : files.makeDirectories directory = (.ok (), made))
    (hholds : files'.Holds directory location (made.Fits directory) contents) :
    RoomFor directory names files' := by
  obtain ⟨made', hmade', hreaches⟩ := h
  rw [hmade] at hmade'
  cases hmade'
  refine ⟨files', hholds.directory.makeDirectories_self, fun name howned => ?_⟩
  obtain ⟨hname, htemporary⟩ := hreaches name howned
  exact ⟨hholds.fits_of_fits hname, hholds.fits_of_fits htemporary⟩

theorem Owned.temporary (h : Owned contents names) (name : String) :
    contents (name ++ ".tmp") = none := by
  rw [← Option.not_isSome_iff_eq_none]
  intro hsome
  rcases h _ hsome with heq | ⟨table, -, heq⟩
  · exact temporary_ne_catalog name heq
  · exact temporary_ne_fileName name table heq

theorem Owned.update_catalog (h : Owned contents names) (text? : Option String) :
    Owned (Function.update contents "catalog" text?) names := by
  intro name hsome
  by_cases hname : name = "catalog"
  · exact .inl hname
  · rw [Function.update_of_ne hname] at hsome
    exact h name hsome

theorem Owned.update_fileName (h : Owned contents names) {table : String} (htable : names table)
    (text? : Option String) : Owned (Function.update contents (fileName table) text?) names := by
  intro name hsome
  by_cases hname : name = fileName table
  · exact .inr ⟨table, htable, hname⟩
  · rw [Function.update_of_ne hname] at hsome
    exact h name hsome

/-- The file of one more table is written. -/
theorem HasFiles.concat {tables : List Table} {t : Table} {text : String}
    (h : HasFiles contents tables) (hnew : t.name ∉ tables.map (·.name))
    (hencode : (TableFile.ofTable t).encode t.kind = .ok text) :
    HasFiles (Function.update contents (fileName t.name) (some text)) (tables ++ [t]) := by
  intro u hu
  rcases List.mem_append.1 hu with hu | hu
  · have hne : fileName u.name ≠ fileName t.name := by
      rw [ne_eq, fileName_inj]
      intro hname
      exact hnew (hname ▸ List.mem_map_of_mem hu)
    rw [Function.update_of_ne hne]
    exact h u hu
  · rw [List.mem_singleton.1 hu]
    exact ⟨text, hencode, Function.update_self ..⟩

/-- A change elsewhere leaves the files of tables as they are. -/
theorem HasFiles.update {tables : List Table} (h : HasFiles contents tables) {name : String}
    (hname : ∀ t ∈ tables, fileName t.name ≠ name) (text? : Option String) :
    HasFiles (Function.update contents name text?) tables := by
  intro t ht
  rw [Function.update_of_ne (hname t ht)]
  exact h t ht

end DataDirectory

/-! ### Saving -/

namespace Database

open DataDirectory

variable {db : Database} {files : FileTree} {directory : String} {location : Location}
  {reach : String → Prop} {contents : String → Option String} {excuse : Prop}

/-- Whether the database has a table with the name, or has dropped one since it was saved. -/
def Remembers (db : Database) (name : String) : Prop :=
  name ∈ db.names ∨ name ∈ db.dropped

/-- Tables that have been dropped are no longer there, and their names are those of files. -/
def DroppedApart (db : Database) : Prop :=
  ∀ name ∈ db.dropped, name ∉ db.names ∧ '/' ∉ name.toList

/-- The directory can be made, and no name of a file in it is too long. -/
def HasRoom (db : Database) (directory : String) (files : FileTree) : Prop :=
  RoomFor directory db.Remembers files

/-- In the directory, once it is made, there are no files but the manifest and those of remembered
tables. -/
def OwnsDirectory (db : Database) (directory : String) (files : FileTree) : Prop :=
  ∀ made, files.makeDirectories directory = (.ok (), made) → ∃ location contents,
    made.Holds directory location (made.Fits directory) contents ∧ Owned contents db.Remembers

/-- The manifest and the files of the tables are written; files of dropped tables may be left. -/
structure Written (db : Database) (contents : String → Option String) : Prop where
  owned : Owned contents db.Remembers
  catalog : contents "catalog" = some (manifestOf db.tables).encode
  table : HasFiles contents db.tables

theorem ensures_writeTable {t : Table} (ht : t.Regular Schema.Savable) {names : String → Prop}
    (hmem : names t.name) (howned : Owned contents names)
    (h : files.Holds directory location reach contents) (hexcuse : ¬ Reaches reach names → excuse) :
    (writeTable (tablePath directory t.name) t).Ensures files excuse fun _ files' =>
      ∃ text, (TableFile.ofTable t).encode t.kind = .ok text ∧
        files'.Holds directory location reach
          (Function.update contents (fileName t.name) (some text)) := by
  obtain ⟨text, hencode, -⟩ := ht.exists_text ht.schema.toStorable
  have hslash : '/' ∉ t.name.toList := ht.table_eq ▸ ht.schema.slash_not_mem
  have hname := isName_fileName hslash
  rw [tablePath_eq, writeTable_eq hencode]
  have hfree := howned.temporary (fileName t.name)
  have hunreached : ¬ (reach (fileName t.name) ∧ reach (fileName t.name ++ ".tmp")) → excuse :=
    fun hnot => hexcuse fun hreaches => hnot (hreaches _ (.inr ⟨t.name, hmem, rfl⟩))
  have hreplace := Files.ensures_replace h hname hfree hunreached text
  refine hreplace.imp ?_
  exact fun _ _ hholds => ⟨text, hencode, hholds⟩

/-- The file of each table is written, and no others. -/
theorem ensures_writeTables (hdb : db.Regular Schema.Savable)
    (hholds : files.Holds directory location reach contents) (howned : Owned contents db.Remembers)
    (hexcuse : ¬ Reaches reach db.Remembers → excuse) :
    (db.tables.forM fun t => writeTable (tablePath directory t.name) t).Ensures files excuse
      fun _ files' => ∃ contents, files'.Holds directory location reach contents ∧
        Owned contents db.Remembers ∧ HasFiles contents db.tables := by
  refine Files.ensures_forM
    (fun done files => ∃ contents, files.Holds directory location reach contents ∧
      Owned contents db.Remembers ∧ HasFiles contents done)
    ⟨contents, hholds, howned, fun _ ht => absurd ht List.not_mem_nil⟩ ?_
  rintro done t rest files hsplit ⟨contents, hholds, howned, hdone⟩
  have ht : t ∈ db.tables := by
    rw [← hsplit]
    simp
  have hnew : t.name ∉ done.map (·.name) := by
    have hnames : (done.map (·.name) ++ t.name :: rest.map (·.name)).Nodup := by
      have hnodup := hdb.nodup_names
      rwa [names, ← hsplit, List.map_append, List.map_cons] at hnodup
    intro hmem
    exact (List.nodup_append.1 hnames).2.2 _ hmem _ List.mem_cons_self rfl
  have hname : db.Remembers t.name := .inl (List.mem_map_of_mem ht)
  have hwrite := ensures_writeTable (hdb.table t ht) hname howned hholds hexcuse
  refine hwrite.imp ?_
  rintro - files' ⟨text, hencode, hholds'⟩
  exact ⟨_, hholds', howned.update_fileName hname _, hdone.concat hnew hencode⟩

/-- The manifest is added to the files of the tables. -/
theorem ensures_writeManifest (hholds : files.Holds directory location reach contents)
    (howned : Owned contents db.Remembers) (hfiles : HasFiles contents db.tables)
    (hexcuse : ¬ Reaches reach db.Remembers → excuse) :
    (writeManifest directory (db.tables.map fun t => ⟨t.name, t.kind⟩)).Ensures files excuse
      fun _ files' => ∃ contents, files'.Holds directory location reach contents ∧
        db.Written contents := by
  rw [writeManifest_eq]
  have hfree := howned.temporary "catalog"
  have hunreached : ¬ (reach "catalog" ∧ reach ("catalog" ++ ".tmp")) → excuse :=
    fun hnot => hexcuse fun hreaches => hnot (hreaches _ (.inl rfl))
  have hreplace := Files.ensures_replace hholds isName_catalog hfree hunreached
    (manifestOf db.tables).encode
  refine hreplace.imp fun _ files' hholds' => ?_
  exact ⟨_, hholds', howned.update_catalog _, Function.update_self ..,
    hfiles.update (fun t _ => fileName_ne_catalog t.name) _⟩

theorem not_hasRoom {made : FileTree}
    (hmade : files.makeDirectories directory = (.ok (), made))
    (hnot : ¬ Reaches (made.Fits directory) db.Remembers) : ¬ db.HasRoom directory files := by
  rintro ⟨made', hmade', hreaches⟩
  rw [hmade] at hmade'
  cases hmade'
  exact hnot hreaches

/-- The tables and the manifest are written to the directory that is made. -/
theorem ensures_write (hdb : db.Regular Schema.Savable) (howns : db.OwnsDirectory directory files) :
    (db.write directory).Ensures files (¬ db.HasRoom directory files) fun _ files' =>
      ∃ made location contents, files.makeDirectories directory = (.ok (), made) ∧
        files'.Holds directory location (made.Fits directory) contents ∧ db.Written contents := by
  unfold write
  refine Files.Ensures.bind (Files.ensures_makeDirectories (fun made hmade => ?_) fun hfails => ?_)
  · obtain ⟨location, contents, hholds, howned⟩ := howns made hmade
    have hexcuse : ¬ Reaches (made.Fits directory) db.Remembers → ¬ db.HasRoom directory files :=
      not_hasRoom hmade
    refine Files.Ensures.bind ((ensures_writeTables hdb hholds howned hexcuse).imp ?_)
    rintro - files₁ ⟨contents₁, hholds₁, howned₁, hfiles⟩
    refine (ensures_writeManifest hholds₁ howned₁ hfiles hexcuse).imp ?_
    rintro - files₂ ⟨contents₂, hholds₂, hwritten⟩
    exact ⟨made, location, contents₂, hmade, hholds₂, hwritten⟩
  · rintro ⟨made, hmade, -⟩
    exact hfails (by rw [hmade])

/-- The file of a dropped table is removed from what is written. -/
theorem Written.remove (h : db.Written contents) (hdropped : db.DroppedApart) {name : String}
    (hname : name ∈ db.dropped) :
    db.Written (Function.update contents (fileName name) none) where
  owned := h.owned.update_fileName (.inr hname) _
  catalog := by
    rw [Function.update_of_ne (fileName_ne_catalog name).symm]
    exact h.catalog
  table := by
    refine h.table.update (fun t ht => ?_) _
    rw [ne_eq, fileName_inj]
    intro heq
    exact (hdropped name hname).1 (heq ▸ List.mem_map_of_mem ht)

/-- Once the files of all dropped tables are gone, the others are the files of tables. -/
theorem Written.keeps (h : db.Written contents)
    (hgone : ∀ name ∈ db.dropped, contents (fileName name) = none) : Keeps contents db.tables where
  catalog := h.catalog
  table := h.table
  only name hsome := by
    rcases h.owned name hsome with hname | ⟨table, htable, hname⟩
    · exact .inl hname
    · rcases htable with htable | htable
      · exact .inr ⟨table, htable, hname⟩
      · rw [hname, hgone table htable] at hsome
        contradiction

/-- The files of dropped tables are removed, and no others. -/
theorem ensures_removeDropped (hdropped : db.DroppedApart)
    (hholds : files.Holds directory location reach contents)
    (hexcuse : ¬ Reaches reach db.Remembers → excuse) (hwritten : db.Written contents) :
    (db.removeDropped directory).Ensures files excuse fun _ files' => ∃ contents,
      files'.Holds directory location reach contents ∧ Keeps contents db.tables := by
  unfold removeDropped
  refine (Files.ensures_forM
    (fun done files => ∃ contents, files.Holds directory location reach contents ∧
      db.Written contents ∧ ∀ name ∈ done, contents (fileName name) = none)
    ⟨contents, hholds, hwritten, fun _ hname => absurd hname List.not_mem_nil⟩ ?_).imp ?_
  · rintro done name rest files hsplit ⟨contents, hholds, hwritten, hdone⟩
    have hname : name ∈ db.dropped := by
      rw [← hsplit]
      simp
    rw [removeTable_eq]
    have hunreached : ¬ reach (fileName name) → excuse :=
      fun hnot => hexcuse fun hreaches => hnot (hreaches _ (.inr ⟨name, .inr hname, rfl⟩)).1
    have hremove := Files.ensures_removeIfPresent hholds
      (isName_fileName (hdropped name hname).2) hunreached
    refine hremove.imp fun _ files' hholds' => ?_
    refine ⟨_, hholds', hwritten.remove hdropped hname, fun other hother => ?_⟩
    rw [Function.update_apply]
    split
    · rfl
    · next hne =>
      rcases List.mem_append.1 hother with hother | hother
      · exact hdone other hother
      · rw [List.mem_singleton.1 hother] at hne
        exact absurd rfl hne
  · rintro - files' ⟨contents, hholds, hwritten, hgone⟩
    exact ⟨contents, hholds, hwritten.keeps hgone⟩

/-- A database is saved, unless there is no room and an action on a file fails. -/
theorem save_cases (hdirectory : db.config.directory = some directory)
    (hdb : db.Regular Schema.Savable) (hdropped : db.DroppedApart)
    (howns : db.OwnsDirectory directory files) :
    (¬ db.HasRoom directory files ∧ ∃ fault, (db.save files).1 = .error (.file fault)) ∨
      (db.save files).1 = .ok () ∧ (db.save files).2.1 = { db with dropped := [] } ∧
        ∃ made location contents, files.makeDirectories directory = (.ok (), made) ∧
          (db.save files).2.2.Holds directory location (made.Fits directory) contents ∧
            Keeps contents db.tables := by
  have hwrite := ensures_write hdb howns
  unfold Files.Ensures at hwrite
  unfold save
  simp only [hdirectory]
  split at hwrite
  · next written heq =>
    obtain ⟨made, location, contents, hmade, hholds, hwritten⟩ := hwrite
    have hremove := ensures_removeDropped hdropped hholds (not_hasRoom hmade) hwritten
    unfold Files.Ensures at hremove
    simp only [heq]
    split at hremove
    · next heq' =>
      simp only [heq', true_and]
      obtain ⟨contents, hholds, hkeeps⟩ := hremove
      exact .inr ⟨made, location, contents, hmade, hholds, hkeeps⟩
    · next heq' =>
      simp only [heq']
      obtain ⟨hroom, fault, rfl⟩ := hremove
      exact .inl ⟨hroom, fault, rfl⟩
  · next heq =>
    obtain ⟨hroom, fault, rfl⟩ := hwrite
    simp only [heq]
    exact .inl ⟨hroom, fault, rfl⟩

/-! ### Loading -/

/-- A table whose file is there is added as a copy. -/
theorem exists_loadTable (db : Database) {t : Table} (ht : t.Regular Schema.Savable)
    (hnew : t.name ∉ db.names) {text : String}
    (hencode : (TableFile.ofTable t).encode t.kind = .ok text)
    (htext : files.readText (tablePath directory t.name) = .ok text) :
    ∃ t', (loadTable directory db ⟨t.name, t.kind⟩).run files =
        (.ok { db with tables := db.tables ++ [t'] }, files) ∧
      t'.Regular Schema.Savable ∧ t.Copy t' := by
  obtain ⟨text', hencode', hdecode⟩ := ht.exists_text ht.schema.toStorable
  cases hencode.symm.trans hencode'
  obtain ⟨t', hrestore, hregular, hcopy⟩ := ht.exists_copy db.config.shape
  have hname := hcopy.name_eq
  have htable : (restoreTable (tablePath directory t.name) t.kind db.config.shape).run files =
      (.ok t', files) := run_restoreTable htext hdecode hrestore
  have hattach : db.attach t' = { db with tables := db.tables ++ [t'] } := by
    have hsame : ∀ u ∈ db.tables, (if u.name = t'.name then t' else u) = u := by
      intro u hu
      rw [if_neg]
      rw [hname]
      intro heq
      exact hnew (heq ▸ List.mem_map_of_mem hu)
    rw [attach, replace, List.map_congr_left hsame, List.map_id']
  refine ⟨t', ?_, hregular, hcopy⟩
  rw [← hattach]
  exact run_loadTable htable hname

/-- Tables whose files are there are added as copies, one after the other. -/
theorem exists_foldlM_loadTable (db : Database) {tables : List Table}
    (hregular : ∀ t ∈ tables, t.Regular Schema.Savable)
    (hholds : files.Holds directory location reach contents) (hfiles : HasFiles contents tables)
    (hnames : (db.names ++ tables.map (·.name)).Nodup) :
    ∃ tables', ((manifestOf tables).foldlM (loadTable directory) db).run files =
        (.ok { db with tables := db.tables ++ tables' }, files) ∧
      List.Forall₂ Table.Copy tables tables' ∧ ∀ t ∈ tables', t.Regular Schema.Savable := by
  induction tables generalizing db with
  | nil => exact ⟨[], by rw [List.append_nil]; rfl, .nil, fun _ ht => absurd ht List.not_mem_nil⟩
  | cons t tables ih =>
    rw [List.forall_mem_cons] at hregular
    have hnew : t.name ∉ db.names := by
      intro hmem
      exact (List.nodup_append.1 hnames).2.2 _ hmem _ List.mem_cons_self rfl
    obtain ⟨text, hencode, htext⟩ := hfiles t List.mem_cons_self
    obtain ⟨t', hload, ht', hcopy⟩ :=
      exists_loadTable db hregular.1 hnew hencode (hholds.readText htext)
    have hname := hcopy.name_eq
    obtain ⟨tables', hrest, hcopies, hregular'⟩ :=
      ih { db with tables := db.tables ++ [t'] } hregular.2
        (fun u hu => hfiles u (List.mem_cons_of_mem _ hu)) (by
          simpa [names, hname] using hnames)
    refine ⟨t' :: tables', ?_, .cons hcopy hcopies, List.forall_mem_cons.2 ⟨ht', hregular'⟩⟩
    have hcons : manifestOf (t :: tables) = ⟨t.name, t.kind⟩ :: manifestOf tables := rfl
    rw [hcons, List.foldlM_cons, run_bind_of_eq hload, hrest, List.append_assoc]
    rfl

/-- A directory that keeps tables is loaded as a database with copies of them. -/
theorem exists_load {config : Config} {tables : List Table}
    (hdirectory : config.directory = some directory)
    (hregular : ∀ t ∈ tables, t.Regular Schema.Savable) (hnames : (tables.map (·.name)).Nodup)
    (hholds : files.Holds directory location reach contents) (hkeeps : Keeps contents tables) :
    ∃ tables', (load config).run files = (.ok { config, tables := tables', dropped := [] }, files) ∧
      List.Forall₂ Table.Copy tables tables' ∧ ∀ t ∈ tables', t.Regular Schema.Savable := by
  have hentries : ∀ e ∈ manifestOf tables, Text.IsLine e.name ∧ '\x00' ∉ e.name.toList := by
    intro e he
    obtain ⟨t, ht, rfl⟩ := List.mem_map.1 he
    have hsavable := (hregular t ht).schema
    rw [← (hregular t ht).table_eq]
    exact ⟨hsavable.table, hsavable.null_not_mem⟩
  have hmanifest : (readManifest directory).run files = (.ok (manifestOf tables), files) := by
    rw [run_readManifest_of_holds hholds hkeeps.catalog, Manifest.decode_encode _ hentries]
  obtain ⟨tables', hload, hcopies, hregular'⟩ :=
    exists_foldlM_loadTable (.empty config) hregular hholds hkeeps.table hnames
  refine ⟨tables', ?_, hcopies, hregular'⟩
  rw [run_load hdirectory hmanifest, hload]
  rfl

end Database

end RelStore
