import RelStore.Database.Save
import RelStore.Proofs.Except
import RelStore.Proofs.DataDirectory.Files
import RelStore.Proofs.Text.Lines

/-!
# Reading data directories

The text of a manifest is read as the manifest (`Manifest.decode_encode`), and a file of a table is
read as the table that it is restored as (`DataDirectory.run_restoreTable`).  A directory without a
manifest is opened as a database without tables (`Database.run_load_of_contains_eq_false`).
-/

namespace RelStore

namespace Manifest

theorem parse_toString_kind (kind : TableKind) : TableKind.parse (toString kind) = .ok kind := by
  cases kind <;> rfl

theorem decodeLine_line (path : String) (number : Nat) {e : ManifestEntry}
    (h : '\x00' ∉ e.name.toList) : decodeLine path number (line e) = .ok e := by
  simp only [decodeLine, line, Text.cutFirst?_joined h, parse_toString_kind]
  rfl

theorem line_ne_empty (e : ManifestEntry) : line e ≠ "" := by
  intro hempty
  have hmem : '\x00' ∈ (line e).toList := by
    rw [line, Text.toList_joined]
    simp [List.intercalate]
  rw [hempty] at hmem
  exact absurd hmem List.not_mem_nil

theorem isLine_toString_kind (kind : TableKind) : Text.IsLine (toString kind) := by
  cases kind <;> decide

theorem map_decodeLine_zipIdx (path : String) {m : Manifest}
    (h : ∀ e ∈ m, '\x00' ∉ e.name.toList) (number : Nat) :
    ((m.map line).zipIdx number).map (fun (line, number) => decodeLine path number line) =
      m.map .ok := by
  induction m generalizing number with
  | nil => rfl
  | cons e m ih =>
    rw [List.forall_mem_cons] at h
    simp only [List.map_cons, List.zipIdx_cons, decodeLine_line path number h.1, ih h.2]

/-- A manifest of names without control characters is read back. -/
theorem decode_encode (path : String) {m : Manifest}
    (h : ∀ e ∈ m, Text.IsLine e.name ∧ '\x00' ∉ e.name.toList) : decode path (encode m) = .ok m := by
  have hline : ∀ l ∈ m.map line, Text.IsLine l := by
    intro l hl
    obtain ⟨e, he, rfl⟩ := List.mem_map.1 hl
    refine Text.isLine_joined (by decide) (by decide) fun s hs => ?_
    rcases List.mem_cons.1 hs with rfl | hs
    · exact (h e he).1
    · rw [List.mem_singleton.1 hs]
      exact isLine_toString_kind e.kind
  have hkeep : ((m.map line).zipIdx 1).filter (·.1 ≠ "") = (m.map line).zipIdx 1 := by
    rw [List.filter_eq_self]
    intro numbered hnumbered
    obtain ⟨e, -, he⟩ := List.mem_map.1 (List.fst_mem_of_mem_zipIdx hnumbered)
    rw [decide_eq_true_eq, ← he]
    exact line_ne_empty e
  have hlines := Text.lines_unlines fun l hl => (hline l hl).isKept
  simp only [decode, encode, hlines, hkeep, mapM_eq_ok_iff]
  exact map_decodeLine_zipIdx path (fun e he => (h e he).2) 1

end Manifest

namespace DataDirectory

variable {files : FileTree} {directory : String}

theorem isName_catalog : Path.IsName "catalog" where
  slash_not_mem := by decide
  ne_empty := by decide
  getLast?_ne := by decide

theorem run_readManifest_of_contains_eq_false
    (h : files.contains (manifestPath directory) = false) :
    (readManifest directory).run files = (.ok [], files) := by
  simp only [readManifest, run_bind, run_get, h]
  rfl

theorem run_readManifest_of_holds {location : Location} {reach : String → Prop}
    {contents : String → Option String} (h : files.Holds directory location reach contents)
    {text : String} (htext : contents "catalog" = some text) :
    (readManifest directory).run files = (Manifest.decode (manifestPath directory) text, files) := by
  have hthere : files.contains (manifestPath directory) = true := h.contains_eq_true htext
  have hread : (Files.readText (manifestPath directory)).run files = (.ok text, files) :=
    Files.run_readText (h.readText htext)
  unfold readManifest
  rw [run_bind_of_eq (run_get files), if_pos hthere, run_bind_of_eq hread]
  rfl

theorem run_restoreTable {path text : String} {kind : TableKind} {shape : Shape} {f : TableFile}
    {t : Table} (htext : files.readText path = .ok text)
    (hdecode : TableFile.decode kind text = .ok f) (hrestore : f.restore kind shape = .ok t) :
    (restoreTable path kind shape).run files = (.ok t, files) := by
  have hread : (readTable path kind).run files = (.ok f, files) := by
    unfold readTable
    rw [run_bind_of_eq (Files.run_readText htext), hdecode]
    rfl
  unfold restoreTable
  rw [run_bind_of_eq hread, hrestore]
  rfl

end DataDirectory

theorem Database.run_load {config : Config} {directory : String} {files : FileTree} {m : Manifest}
    (hdirectory : config.directory = some directory)
    (hmanifest : (DataDirectory.readManifest directory).run files = (.ok m, files)) :
    (load config).run files = (m.foldlM (loadTable directory) (.empty config)).run files := by
  unfold load
  simp only [hdirectory]
  rw [run_bind_of_eq hmanifest]

/-- A table is added if its file has it under the name that the manifest gives. -/
theorem Database.run_loadTable {db : Database} {e : ManifestEntry} {files : FileTree}
    {directory : String} {t : Table}
    (htable : (DataDirectory.restoreTable (DataDirectory.tablePath directory e.name) e.kind
      db.config.shape).run files = (.ok t, files)) (hname : t.name = e.name) :
    (loadTable directory db e).run files = (.ok (db.attach t), files) := by
  unfold loadTable
  rw [run_bind_of_eq htable, if_neg (not_not.2 hname)]
  rfl

/-- A directory without a manifest has no tables. -/
theorem Database.run_load_of_contains_eq_false {config : Config} {files : FileTree}
    (h : ∀ directory ∈ config.directory,
      files.contains (DataDirectory.manifestPath directory) = false) :
    (load config).run files = (.ok (.empty config), files) := by
  unfold load
  cases hdirectory : config.directory with
  | none => rfl
  | some directory =>
    dsimp only
    rw [run_bind, DataDirectory.run_readManifest_of_contains_eq_false (h directory hdirectory)]
    rfl

theorem Database.run_load_of_namesIn {config : Config} {files : FileTree}
    (h : ∀ directory ∈ config.directory, files.namesIn directory = []) :
    (load config).run files = (.ok (.empty config), files) :=
  run_load_of_contains_eq_false fun directory hdirectory =>
    FileTree.contains_eq_false_of_namesIn DataDirectory.isName_catalog (h directory hdirectory)

end RelStore
