import RelStore.DataDirectory.Basic
import RelStore.Database.Basic

/-!
# Saving and loading

A database with a directory is saved there: a file for each table, then the manifest, and then the
files of dropped tables are removed.  `Database.load` reads what `Database.save` has written.
-/

namespace RelStore.Database

/-! ### Saving -/

/-- Writes the tables and the manifest. -/
def write (db : Database) (directory : String) : Files Unit := do
  Files.makeDirectories directory
  db.tables.forM fun t => DataDirectory.writeTable (DataDirectory.tablePath directory t.name) t
  DataDirectory.writeManifest directory (db.tables.map fun t => ⟨t.name, t.kind⟩)

/-- Removes the files of dropped tables. -/
def removeDropped (db : Database) (directory : String) : Files Unit :=
  db.dropped.forM (DataDirectory.removeTable directory)

/-- Saves the database.  Once all is written the dropped tables are forgotten, also if a file cannot
be removed. -/
def save (db : Database) (files : FileTree) : Except Error Unit × Database × FileTree :=
  match db.config.directory with
  | none => (.error (.invalidArgument .noDirectory), db, files)
  | some directory =>
    match (db.write directory).run files with
    | (.error e, files) => (.error e, db, files)
    | (.ok (), files) =>
      let (outcome, files) := (db.removeDropped directory).run files
      (outcome, { db with dropped := [] }, files)

/-! ### Loading -/

/-- Adds a table that was read; earlier ones of its name are the same table. -/
def attach (db : Database) (t : Table) : Database :=
  let db := db.replace t
  { db with tables := db.tables ++ [t] }

/-- Reads a table that the manifest lists. -/
def loadTable (directory : String) (db : Database) (e : ManifestEntry) : Files Database := do
  let path := DataDirectory.tablePath directory e.name
  let t ← DataDirectory.restoreTable path e.kind db.config.shape
  if t.name ≠ e.name then
    throw (.parse (.otherTable path t.name e.name))
  return db.attach t

/-- Loads the database that is saved in the directory of the configuration. -/
def load (config : Config) : Files Database := do
  match config.directory with
  | none => return empty config
  | some directory =>
    (← DataDirectory.readManifest directory).foldlM (loadTable directory) (empty config)

end RelStore.Database
