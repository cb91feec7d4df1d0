import RelStore.Proofs.DataDirectory.Manifest
import RelStore.Proofs.Database.Proper
import RelStore.Proofs.TableFile.Normal

/-!
# Opening directories

What a database is like when it is loaded, whatever the files are (`Database.lists_load`).  Opening
only reads.  The tables are those of the manifest, in its order, and a table that is read passes all
checks, since its schema and its rows are checked on the way
(`DataDirectory.proper_of_restoreTable`).

The manifest may list a name again.  Then the database lists it as often, and each time as the table
that was read last (`Database.exists_listed_twice`); so only the last entry of a name decides on the
kind, which is what `Manifest.kind?` gives.
-/

namespace RelStore

/-! ### Manifests -/

namespace Manifest

/-- The kind in the last entry with a name. -/
def kind? (m : Manifest) (name : String) : Option TableKind :=
  (m.reverse.find? (·.name == name)).map (·.kind)

theorem kind?_concat (m : Manifest) (e : ManifestEntry) (name : String) :
    kind? (m ++ [e]) name = if e.name = name then some e.kind else kind? m name := by
  rw [kind?, List.reverse_append, List.reverse_singleton, List.singleton_append, List.find?_cons]
  by_cases hname : e.name = name
  · simp [hname]
  · rw [if_neg hname, beq_false_of_ne hname, kind?]

/-- Where names do not repeat, every entry is the last of its name. -/
theorem kind?_eq_some {m : Manifest} (hnames : (m.map (·.name)).Nodup) {e : ManifestEntry}
    (he : e ∈ m) : m.kind? e.name = some e.kind := by
  unfold kind?
  cases hfind : m.reverse.find? (·.name == e.name) with
  | none => exact absurd (List.find?_eq_none.1 hfind e (List.mem_reverse.2 he)) (by simp)
  | some e' =>
    have hmem := List.mem_reverse.1 (List.mem_of_find?_eq_some hfind)
    have hname : e'.name = e.name := by simpa using List.find?_some hfind
    rw [List.inj_on_of_nodup_map hnames hmem he hname]
    rfl

end Manifest

/-! ### Reading -/

namespace DataDirectory

variable {files : FileTree} {path : String} {kind : TableKind} {shape : Shape}

theorem reads_readText (path : String) (files : FileTree) : (Files.readText path).Reads files := by
  rw [Files.Reads, Files.run_readText_eq]

theorem reads_readTable (path : String) (kind : TableKind) (files : FileTree) :
    (readTable path kind).Reads files := by
  refine (reads_readText path files).bind fun text => ?_
  split <;> rfl

theorem reads_restoreTable (path : String) (kind : TableKind) (shape : Shape) (files : FileTree) :
    (restoreTable path kind shape).Reads files :=
  (reads_readTable path kind files).bind fun _ => rfl

theorem reads_readManifest (directory : String) (files : FileTree) :
    (readManifest directory).Reads files := by
  have hget : (get : Files FileTree).Reads files := rfl
  refine hget.bind fun files' => ?_
  split
  · exact (reads_readText _ files).bind fun _ => rfl
  · rfl

theorem decode_of_readTable {f : TableFile} (h : ((readTable path kind).run files).1 = .ok f) :
    ∃ text, files.readText path = .ok text ∧ TableFile.decode kind text = .ok f := by
  unfold readTable at h
  rw [(reads_readText path files).fst_bind, bind_eq_ok_iff, Files.run_readText_eq] at h
  obtain ⟨text, htext, h⟩ := h
  refine ⟨text, ?_, ?_⟩
  · cases hread : files.readText path with
    | error fault =>
      rw [hread] at htext
      contradiction
    | ok text' =>
      rw [hread] at htext
      cases htext
      rfl
  · split at h
    · next hdecode =>
      cases h
      exact hdecode
    · contradiction
    · contradiction

/-- A table that is read is of the kind that was asked for, and passes all checks. -/
theorem proper_of_restoreTable {t : Table}
    (h : ((restoreTable path kind shape).run files).1 = .ok t) : t.Proper ∧ t.kind = kind := by
  unfold restoreTable at h
  rw [(reads_readTable path kind files).fst_bind, bind_eq_ok_iff] at h
  obtain ⟨f, hread, hrestore⟩ := h
  obtain ⟨text, -, hdecode⟩ := decode_of_readTable hread
  have hsound := TableFile.sound_of_decode hdecode
  have hrestore' : f.restore kind shape = .ok t := hrestore
  obtain ⟨hkind, hfile⟩ := hsound.ofTable_eq hrestore'
  obtain ⟨e, hmake, hfilled⟩ := bind_eq_ok_iff.1 hrestore'
  cases hfilled
  have hempty := (Table.isEmpty_of_empty hmake).header_eq
  have halias : e.isAlias = false := congrArg Header.isAlias hempty
  obtain ⟨-, hheader, -, -⟩ := Table.insertAll_stores halias f.rows
  rw [hempty] at hheader
  have hschema : (e.insertAll f.rows).2.schema = f.schema := congrArg Header.schema hheader
  refine ⟨⟨⟨?_, ?_, trivial, ?_, hsound.inRange hfile⟩, ?_⟩, hkind⟩
  · rw [hheader]
    exact hsound.name_eq.symm
  · rw [hschema]
    exact hsound.check
  · refine .insertAll (.empty hmake) f.rows ?_
    rw [hempty]
    exact hsound.rows
  · rw [hheader]
    rfl

end DataDirectory

/-! ### Loading -/

namespace Database

open DataDirectory

variable {config : Config} {files files' : FileTree} {db db' : Database} {directory : String}
  {m : Manifest} {e : ManifestEntry}

theorem names_attach (db : Database) (t : Table) : (db.attach t).names = db.names ++ [t.name] := by
  rw [names, attach, List.map_append, List.map_singleton]
  exact congrArg (· ++ [t.name]) (names_replace db t)

theorem reads_loadTable (directory : String) (db : Database) (e : ManifestEntry)
    (files : FileTree) : (loadTable directory db e).Reads files := by
  refine (reads_restoreTable _ _ _ files).bind fun t => ?_
  split <;> rfl

/-- A table is added under the name and of the kind that the manifest gives. -/
theorem loadTable_eq_ok (h : ((loadTable directory db e).run files).1 = .ok db') :
    ∃ t : Table, t.Proper ∧ t.name = e.name ∧ t.kind = e.kind ∧ db' = db.attach t := by
  unfold loadTable at h
  rw [(reads_restoreTable _ _ _ files).fst_bind, bind_eq_ok_iff] at h
  obtain ⟨t, hrestore, h⟩ := h
  obtain ⟨hproper, hkind⟩ := proper_of_restoreTable hrestore
  by_cases hname : t.name = e.name
  · rw [if_neg (not_not.2 hname)] at h
    cases h
    exact ⟨t, hproper, hname, hkind, rfl⟩
  · rw [if_pos hname] at h
    contradiction

/-- The tables are those of the manifest, and a table is of the kind in the last entry with its
name. -/
structure Lists (config : Config) (m : Manifest) (db : Database) : Prop where
  config_eq : db.config = config
  dropped_eq : db.dropped = []
  names_eq : db.names = m.map (·.name)
  proper : db.Proper
  kind?_eq : ∀ t ∈ db.tables, m.kind? t.name = some t.kind

theorem lists_empty (config : Config) : Lists config [] (.empty config) where
  config_eq := rfl
  dropped_eq := rfl
  names_eq := rfl
  proper := .empty config
  kind?_eq _ ht := absurd ht List.not_mem_nil

theorem Lists.attach (h : db.Lists config m) {t : Table} (ht : t.Proper) (hname : t.name = e.name)
    (hkind : t.kind = e.kind) : (db.attach t).Lists config (m ++ [e]) where
  config_eq := h.config_eq
  dropped_eq := h.dropped_eq
  names_eq := by
    rw [names_attach, h.names_eq, hname, List.map_append]
    rfl
  proper := h.proper.attach ht
  kind?_eq u hu := by
    rw [Manifest.kind?_concat]
    have hcases : u = t ∨ u ∈ db.tables ∧ u.name ≠ t.name := by
      rcases List.mem_append.1 hu with hu | hu
      · exact mem_replace hu
      · exact .inl (List.mem_singleton.1 hu)
    rcases hcases with rfl | ⟨hu, hne⟩
    · rw [if_pos hname.symm, hkind]
    · rw [if_neg fun heq => hne (heq.symm.trans hname.symm)]
      exact h.kind?_eq u hu

/-- Opening a directory only reads, and gives the tables that the manifest lists. -/
theorem lists_load (h : (load config).run files = (.ok db, files')) :
    files' = files ∧ ∃ m,
      (∀ directory ∈ config.directory, (readManifest directory).run files = (.ok m, files)) ∧
      (config.directory = none → m = []) ∧ db.Lists config m := by
  unfold load at h
  cases hdirectory : config.directory with
  | none =>
    rw [hdirectory] at h
    cases h
    exact ⟨rfl, [], by simp, fun _ => rfl, lists_empty config⟩
  | some directory =>
    rw [hdirectory] at h
    have hmanifest := (reads_readManifest directory files).run_eq
    dsimp only at h
    rw [run_bind, hmanifest] at h
    cases hread : ((readManifest directory).run files).1 with
    | error fault =>
      rw [hread] at h
      exact nomatch (Prod.mk.inj h).1
    | ok m =>
      simp only [hread] at h hmanifest
      rw [Files.run_foldlM_of_reads fun db e => reads_loadTable directory db e files] at h
      obtain ⟨hloop, rfl⟩ := Prod.mk.inj h
      refine ⟨rfl, m, fun directory' hmem => ?_, by simp, ?_⟩
      · cases hmem
        exact hmanifest
      · refine foldlM_induction (motive := fun done db => Lists config done db)
          (lists_empty config) (fun done e rest db db' _ hdb hstep => ?_) hloop
        obtain ⟨t, ht, hname, hkind, rfl⟩ := loadTable_eq_ok hstep
        exact hdb.attach ht hname hkind

/-- A directory in which there are a manifest and the file of one table, with any texts. -/
theorem exists_directory (manifest text : String) :
    ∃ files : FileTree, (readManifest "data").run files =
        (Manifest.decode (manifestPath "data") manifest, files) ∧
      files.readText (tablePath "data" "t") = .ok text := by
  let made : FileTree := ({} : FileTree).put ["data"] .directory
  obtain ⟨-, hmade⟩ : _ ∧ made.DirectoryAt "data" ["data"] :=
    FileTree.makeDirectories_name ⟨by decide, by decide, by decide⟩ (by decide +kernel)
      (by decide) (by simp [FileTree.get?])
  have hempty : made.Holds "data" ["data"] (made.Fits "data") fun _ => none := by
    refine ⟨hmade, fun name => ?_, fun name hname => ?_⟩
    · rw [FileTree.get?_put _ (by simp), if_neg (by simp)]
      simp [FileTree.get?]
    · exact hmade.locate_of_fits (hname.resolve_left (by simp))
  have hfits : ∀ name ∈ ["catalog", "t.tbl"], made.Fits "data" name := by
    intro name hname
    simp only [List.mem_cons, List.not_mem_nil, or_false] at hname
    rcases hname with rfl | rfl
    all_goals exact ⟨⟨by decide, by decide, by decide⟩, by decide +kernel, by decide⟩
  have hcatalog := hempty.put (hempty.locate_eq "catalog" (.inr (hfits _ (by simp)))) manifest
  have hboth := hcatalog.put (hcatalog.locate_eq "t.tbl" (.inr (hfits _ (by simp)))) text
  have hpath : tablePath "data" "t" = Path.join "data" "t.tbl" := by decide
  refine ⟨_, run_readManifest_of_holds hboth ?_, hpath ▸ hboth.readText ?_⟩
  · rw [Function.update_of_ne (by decide), Function.update_self]
  · exact Function.update_self ..

/-- Whatever is in a directory: if it can be opened, nothing in it is changed, and the database
lists the names of the manifest, in its order and as often.  Each of them stands for one table with
this name, which is of the kind in the last entry with it, and whose rows all fit; if the manifest
repeats no name, every entry gives the kind of its table.  A table that is listed can be dropped,
which leaves the others as they are and the name free: it can be created again, and any table with
this name can be created if it can be where there are no tables. -/
theorem opened_of_load (h : (load config).run files = (.ok db, files')) :
    files' = files ∧ db.config = config ∧ ∃ m : Manifest,
      (∀ directory ∈ config.directory, (readManifest directory).run files = (.ok m, files)) ∧
      (config.directory = none → m = []) ∧
      db.names = m.map (·.name) ∧
      (∀ name ∈ db.names, ∃ t, db.table name = .ok t ∧ t.name = name ∧
        m.kind? name = some t.kind ∧ ∀ row ∈ t.records, row.check t.schema = .ok ()) ∧
      ((m.map (·.name)).Nodup →
        db.names.Nodup ∧ ∀ e ∈ m, ∃ t, db.table e.name = .ok t ∧ t.kind = e.kind) ∧
      ∀ t ∈ db.tables, ∃ db', db.drop t.name = .ok db' ∧ t.name ∉ db'.names ∧
        db'.names = db.names.filter (· ≠ t.name) ∧
        (∀ other ≠ t.name, db'.table other = db.table other) ∧
        (∃ chosen db'', db'.create t.schema [] none = .ok (chosen, db'')) ∧
        ∀ s declarations kind, s.table = t.name →
          (db'.create s declarations kind).map (·.1) =
            ((empty config).create s declarations kind).map (·.1) := by
  obtain ⟨hfiles, m, hread, hnone, hlists⟩ := lists_load h
  refine ⟨hfiles, hlists.config_eq, m, hread, hnone, hlists.names_eq, fun name hname => ?_,
    fun hnodup => ⟨hlists.names_eq ▸ hnodup, fun e he => ?_⟩, fun t ht => ?_⟩
  · obtain ⟨t, htable⟩ := mem_names_iff.1 hname
    obtain ⟨ht, rfl⟩ := mem_of_table_eq_ok htable
    exact ⟨t, htable, rfl, hlists.kind?_eq t ht, (hlists.proper.table t ht).filled.check_eq_ok⟩
  · have hname : e.name ∈ db.names := by
      rw [hlists.names_eq]
      exact List.mem_map_of_mem he
    obtain ⟨t, htable⟩ := mem_names_iff.1 hname
    obtain ⟨ht, hsame⟩ := mem_of_table_eq_ok htable
    have hkind := hlists.kind?_eq t ht
    rw [hsame, Manifest.kind?_eq_some hnodup he] at hkind
    exact ⟨t, htable, (Option.some.inj hkind).symm⟩
  · obtain ⟨db', hdrop, hnames, htables, hcreate⟩ := exists_drop (List.mem_map_of_mem ht)
    have hfree : t.name ∉ db'.names := by
      rw [hnames]
      simp
    have hproper := hlists.proper.table t ht
    rw [hlists.config_eq] at hcreate
    exact ⟨db', hdrop, hfree, hnames, htables,
      exists_create_default hproper.check_eq (hproper.table_eq ▸ hfree), hcreate⟩

/-- A manifest with an empty line, whose only entry ends in a carriage return. -/
theorem opened_of_load_one :
    ∃ (config : Config) (files : FileTree) (db db' : Database),
      config.directory = some "data" ∧ (load config).run files = (.ok db, files) ∧
      db.names.Nodup ∧ (∃ t, db.table "t" = .ok t ∧ t.kind = .set ∧ t.records = [[.int 5]]) ∧
      db.drop "t" = .ok db' ∧ db'.names = [] := by
  let s : Schema := ⟨"t", [⟨"a", .int⟩], none⟩
  let config : Config := { directory := some "data" }
  obtain ⟨files, hmanifest, htext⟩ :=
    exists_directory "\nt\x00SET\r\n" "t\n1\na\x00-1\n-1\n5\n"
  have hlisted : Manifest.decode (manifestPath "data") "\nt\x00SET\r\n" = .ok [⟨"t", .set⟩] := by
    decide +kernel
  rw [hlisted] at hmanifest
  have hdecode : TableFile.decode .set "t\n1\na\x00-1\n-1\n5\n" =
      .ok ⟨"t", s, none, [], [[.int 5]]⟩ := by
    decide +kernel
  let t : Table := (Table.insert { Header.base "t" s with storage := .set {} } [.int 5]).2
  have hread : (loadTable "data" (.empty config) ⟨"t", .set⟩).run files =
      (.ok ((Database.empty config).attach t), files) :=
    run_loadTable (run_restoreTable htext hdecode rfl) rfl
  have hload : (load config).run files = (.ok ((Database.empty config).attach t), files) := by
    rw [run_load rfl hmanifest, List.foldlM_cons, run_bind_of_eq hread]
    rfl
  obtain ⟨-, -, m, hm, -, hnames, -, hunique, hdrop⟩ := opened_of_load hload
  obtain rfl : [⟨"t", .set⟩] = m := by
    have heq := hmanifest.symm.trans (hm "data" rfl)
    exact Except.ok.inj (Prod.mk.inj heq).1
  obtain ⟨hnodup, hkinds⟩ := hunique (by decide)
  obtain ⟨u, hu, hkind⟩ := hkinds ⟨"t", .set⟩ List.mem_cons_self
  have ht : ((Database.empty config).attach t).table "t" = .ok t := rfl
  obtain ⟨db', hdropped, -, hnames', -⟩ := hdrop t (mem_of_table_eq_ok ht).1
  refine ⟨config, files, _, db', rfl, hload, hnodup, ⟨u, hu, hkind, ?_⟩, hdropped, ?_⟩
  · cases ht.symm.trans hu
    rfl
  · rw [hnames', hnames]
    decide

/-- A manifest that has a name twice is opened, with the table listed twice and of the second kind,
though the first entry says otherwise. -/
theorem exists_listed_twice :
    ∃ (config : Config) (files : FileTree) (db : Database),
      (readManifest "data").run files = (.ok [⟨"t", .set⟩, ⟨"t", .list⟩], files) ∧
      config.directory = some "data" ∧ (load config).run files = (.ok db, files) ∧
      db.names = ["t", "t"] ∧ ∀ t, db.table "t" = .ok t → t.kind ≠ .set := by
  let s : Schema := ⟨"t", [⟨"a", .int⟩], none⟩
  let first : Table := { Header.base "t" s with storage := .set {} }
  let second : Table := { Header.base "t" s with storage := .list #[] }
  let config : Config := { directory := some "data" }
  obtain ⟨files, hmanifest, htext⟩ :=
    exists_directory "t\x00SET\nt\x00ARRAYLIST\n" "t\n1\na\x00-1\n-1\n"
  have hlisted : Manifest.decode (manifestPath "data") "t\x00SET\nt\x00ARRAYLIST\n" =
      .ok [⟨"t", .set⟩, ⟨"t", .list⟩] := by decide +kernel
  rw [hlisted] at hmanifest
  have hdecode : ∀ kind, kind = .set ∨ kind = .list →
      TableFile.decode kind "t\n1\na\x00-1\n-1\n" = .ok ⟨"t", s, none, [], []⟩ := by
    rintro kind (rfl | rfl) <;> decide +kernel
  have hfirst : (loadTable "data" (.empty config) ⟨"t", .set⟩).run files =
      (.ok ((Database.empty config).attach first), files) :=
    run_loadTable (run_restoreTable htext (hdecode .set (.inl rfl)) rfl) rfl
  have hsecond : (loadTable "data" ((Database.empty config).attach first) ⟨"t", .list⟩).run files =
      (.ok (((Database.empty config).attach first).attach second), files) :=
    run_loadTable (run_restoreTable htext (hdecode .list (.inr rfl)) rfl) rfl
  have hload : (load config).run files =
      (.ok (((Database.empty config).attach first).attach second), files) := by
    rw [run_load rfl hmanifest, List.foldlM_cons, run_bind_of_eq hfirst, List.foldlM_cons,
      run_bind_of_eq hsecond]
    rfl
  refine ⟨config, files, _, hmanifest, rfl, hload, by decide, fun t ht => ?_⟩
  have htable : (((Database.empty config).attach first).attach second).table "t" = .ok second := rfl
  rw [htable] at ht
  cases ht
  decide

end Database

end RelStore
