import RelStore.Database.Basic
import RelStore.Proofs.Except
import RelStore.Proofs.Schema
import RelStore.Proofs.Table.Basic

/-!
# Databases reached by actions

`Database.Reachable p db` says that `db` comes about by creating tables whose schemas satisfy `p`,
by inserting rows and by dropping tables, in any order.  Every table of such a database is
`Table.Sound` (`Database.Reachable.sound`): creation makes a sound table, and insertion and dropping
keep tables sound.
-/

namespace RelStore

/-- What holds of every table of a database: its schema is named after it, passes its check and
satisfies `p`, its rows fit, and its indexes are on columns of the schema. -/
structure Table.Sound (p : Schema → Prop) (t : Table) : Prop where
  table_eq : t.schema.table = t.name
  check_eq : t.schema.check = .ok ()
  schema : p t.schema
  filled : t.Filled fun s row => row.check s = .ok ()
  inRange : t.InRange

namespace Database

variable {p : Schema → Prop} {config : Config} {s : Schema} {declarations : List Declaration}
  {kind : Option TableKind} {db db' : Database} {name : String}

/-- The databases that actions lead to, if tables are created with schemas that satisfy `p`. -/
inductive Reachable (p : Schema → Prop) : Database → Prop
  | empty (config : Config) : Reachable p (.empty config)
  | create {db db' : Database} (hdb : Reachable p db) {s : Schema} {declarations : List Declaration}
      {kind : Option TableKind} {chosen : TableKind} (hs : p s)
      (h : db.create s declarations kind = .ok (chosen, db')) : Reachable p db'
  | insert {db db' : Database} (hdb : Reachable p db) {name : String} {row : Row}
      {verdict : Verdict} (h : db.insert name row = .ok (verdict, db')) : Reachable p db'
  | drop {db db' : Database} (hdb : Reachable p db) {name : String}
      (h : db.drop name = .ok db') : Reachable p db'

/-! ### Creation -/

/-- Declarations on columns, and the default index on the primary key, are on columns. -/
theorem column_lt_of_mem_declared (hkey : ∀ key ∈ s.primaryKey, key < s.width)
    (hdeclarations : ∀ d ∈ declarations, d.column < s.width) :
    ∀ d ∈ declared config s declarations, d.column < s.width := by
  intro d hd
  unfold declared at hd
  split at hd
  · next key heffective hprimary =>
    split at hd
    · exact absurd hd List.not_mem_nil
    · rw [List.mem_singleton] at hd
      subst hd
      exact hkey key hprimary
  · apply hdeclarations
    exact Declaration.mem_effective hd

theorem inRange_layoutOf {kind : TableKind} {ds : List Declaration} (hpos : 0 < s.width)
    (hkey : ∀ key ∈ s.primaryKey, key < s.width) (hds : ∀ d ∈ ds, d.column < s.width) :
    (Table.layoutOf kind s (ds.head?.map (·.column)) ds).InRange s := by
  constructor
  · intro column hcolumn
    simp only [Table.layoutOf] at hcolumn
    split at hcolumn
    · cases hcolumn
      cases ds with
      | cons d ds => exact hds d List.mem_cons_self
      | nil =>
        cases hprimary : s.primaryKey with
        | none => exact hpos
        | some key => exact hkey key hprimary
    · contradiction
  · intro d hd
    simp only [Table.layoutOf] at hd
    split at hd
    · exact hds d (Declaration.mem_effective hd)
    · exact absurd hd List.not_mem_nil

theorem name_of_build {t : Table} (h : build config s declarations kind = .ok t) :
    t.name = s.table :=
  congrArg Header.name (Table.isEmpty_of_empty h).header_eq

theorem sound_of_build {t : Table} (hs : p s) (hcheck : s.check = .ok ())
    (hdeclarations : ∀ d ∈ declarations, d.column < s.width)
    (h : build config s declarations kind = .ok t) : t.Sound p := by
  obtain ⟨hpos, -, hkey⟩ := Schema.check_eq_ok_iff.1 hcheck
  have hempty := Table.isEmpty_of_empty h
  have hschema : t.schema = s := congrArg Header.schema hempty.header_eq
  constructor
  · rw [hempty.header_eq]
    rfl
  · rwa [hschema]
  · rwa [hschema]
  · exact .empty h
  · rw [Table.InRange, hempty.layout_eq, hschema]
    exact inRange_layoutOf hpos hkey (column_lt_of_mem_declared hkey hdeclarations)

/-- A created table is new, and comes after the others. -/
theorem create_eq_ok {chosen : TableKind}
    (h : db.create s declarations kind = .ok (chosen, db')) :
    s.check = .ok () ∧ s.table ∉ db.names ∧ (∀ d ∈ declarations, d.column < s.width) ∧
      ∃ t, build db.config s declarations kind = .ok t ∧ chosen = t.kind ∧
        db' = { db with
          tables := db.tables ++ [t]
          dropped := db.dropped.filter (· ≠ s.table) } := by
  obtain ⟨⟨⟩, hcheck, h⟩ := bind_eq_ok_iff.1 h
  by_cases hname : s.table ∈ db.names
  · rw [if_pos hname] at h
    contradiction
  rw [if_neg hname] at h
  cases hout : Declaration.outOfRange? s.width declarations with
  | some d =>
    rw [hout] at h
    contradiction
  | none =>
    rw [hout] at h
    obtain ⟨t, ht, h⟩ := bind_eq_ok_iff.1 h
    cases h
    have hdeclarations := List.find?_eq_none.1 hout
    refine ⟨hcheck, hname, fun d hd => ?_, t, ht, rfl, rfl⟩
    simpa using hdeclarations d hd

/-! ### Dropping -/

theorem drop_eq_ok (h : db.drop name = .ok db') :
    name ∈ db.names ∧ db' = { db with
      tables := db.tables.filter (·.name ≠ name)
      dropped := db.dropped.filter (· ≠ name) ++ [name] } := by
  unfold drop at h
  by_cases hname : name ∈ db.names
  · rw [if_neg (not_not.2 hname)] at h
    cases h
    exact ⟨hname, rfl⟩
  · rw [if_pos hname] at h
    contradiction

/-! ### Insertion -/

/-- An insertion that succeeds stores the row in the table of that name; otherwise it changes
nothing. -/
theorem insert_eq_ok {row : Row} {verdict : Verdict}
    (h : db.insert name row = .ok (verdict, db')) :
    ∃ t, db.table name = .ok t ∧ row.check t.schema = .ok () ∧ verdict = t.check row ∧
      db' = if verdict = .success then db.replace (t.insert row).2 else db := by
  obtain ⟨t, htable, h⟩ := bind_eq_ok_iff.1 h
  obtain ⟨⟨⟩, hrow, h⟩ := bind_eq_ok_iff.1 h
  refine ⟨t, htable, hrow, ?_⟩
  cases hverdict : t.check row with
  | success =>
    simp only [hverdict] at h
    cases hstored : (t.insert row).1 with
    | false =>
      simp only [hstored] at h
      contradiction
    | true =>
      simp only [hstored] at h
      cases h
      exact ⟨rfl, rfl⟩
  | _ =>
    simp only [hverdict] at h
    cases h
    exact ⟨rfl, rfl⟩

theorem mem_of_table_eq_ok {t : Table} (h : db.table name = .ok t) :
    t ∈ db.tables ∧ t.name = name := by
  unfold table at h
  split at h
  · next hfind =>
    cases h
    exact ⟨List.mem_of_find?_eq_some hfind, by simpa using List.find?_some hfind⟩
  · contradiction

/-- A table that takes the place of others leaves those of other names. -/
theorem mem_replace {t u : Table} (h : u ∈ (db.replace t).tables) :
    u = t ∨ u ∈ db.tables ∧ u.name ≠ t.name := by
  obtain ⟨v, hv, rfl⟩ := List.mem_map.1 h
  split
  · exact .inl rfl
  · next hne => exact .inr ⟨hv, hne⟩

end Database

theorem Table.Sound.insert {p : Schema → Prop} {t : Table} {row : Row} (h : t.Sound p)
    (hrow : row.check t.schema = .ok ()) : (t.insert row).2.Sound p := by
  have hheader : (t.insert row).2.toHeader = t.toHeader := by rw [insert_eq]
  have hschema : (t.insert row).2.schema = t.schema := congrArg Header.schema hheader
  have hlayout : (t.insert row).2.layout = t.layout := by
    rw [insert_eq]
    split
    · rfl
    · exact (t.storage.extends_insert t.schema row).layout_eq
  constructor
  · rw [hheader]
    exact h.table_eq
  · rw [hschema]
    exact h.check_eq
  · rw [hschema]
    exact h.schema
  · exact h.filled.insert row hrow
  · rw [InRange, hlayout, hschema]
    exact h.inRange

/-! ### All actions -/

/-- Every table of a database that is reached is sound. -/
theorem Database.Reachable.sound {p : Schema → Prop} {db : Database} (h : db.Reachable p) :
    ∀ t ∈ db.tables, t.Sound p := by
  induction h with
  | empty config => exact fun t ht => absurd ht List.not_mem_nil
  | create hdb hs h ih =>
    obtain ⟨hcheck, -, hdeclarations, t, hbuild, -, rfl⟩ := create_eq_ok h
    intro u hu
    rcases List.mem_append.1 hu with hu | hu
    · exact ih u hu
    · rw [List.mem_singleton.1 hu]
      exact sound_of_build hs hcheck hdeclarations hbuild
  | insert hdb h ih =>
    obtain ⟨t, htable, hrow, -, rfl⟩ := insert_eq_ok h
    split
    · intro u hu
      rcases mem_replace hu with rfl | ⟨hu, -⟩
      · exact (ih t (mem_of_table_eq_ok htable).1).insert hrow
      · exact ih u hu
    · exact ih
  | drop hdb h ih =>
    obtain ⟨-, rfl⟩ := drop_eq_ok h
    intro t ht
    exact ih t (List.mem_of_mem_filter ht)

end RelStore
