import RelStore.Proofs.Database.Regular
import RelStore.Proofs.Query.TwinSelections

/-!
# Twin databases

The storage of a table with a primary key cannot be told from the answers.  Two databases that are
asked the same, except that tables are created with other indexes, of other kinds, or in another
configuration, give answers that agree and hold the same rows (`Database.replay_twin`), as long as
every table has a primary key, none is a list, and tables are created on both sides.

Kinds look for equal rows in different ways, and an index does not find a row without a key.  But a
row that is stored has a primary key, so an equal row is refused in any case
(`Table.Regular.check_cases`): as a repeated row if it is found, and else as one with a repeated
primary key.
-/

namespace RelStore

/-- A schema with a primary key. -/
def Schema.HasKey (s : Schema) : Prop :=
  s.primaryKey.isSome

/-! ### Verdicts -/

namespace Verdict

/-- Whether a row is refused for one that is stored. -/
def isDuplicate : Verdict → Bool
  | duplicateRow | duplicateKey => true
  | _ => false

/-- Equal verdicts, or two on duplicates. -/
def Twin (v v' : Verdict) : Prop :=
  v' = v ∨ v.isDuplicate ∧ v'.isDuplicate

theorem Twin.eq_success_iff {v v' : Verdict} (h : v.Twin v') : v' = success ↔ v = success := by
  rcases h with rfl | ⟨hv, hv'⟩
  · exact Iff.rfl
  · refine iff_of_false ?_ ?_ <;> rintro rfl <;> contradiction

end Verdict

/-- The verdict on a row is that on its primary key, or a row is refused as equal that would have
been refused for its primary key. -/
theorem Table.Regular.check_cases {t : Table} (h : t.Regular Schema.HasKey) (hkind : t.kind ≠ .list)
    {row : Row} (hrow : row.check t.schema = .ok ()) :
    t.check row = KeySet.verdict t.schema t.records row ∨
      t.check row = .duplicateRow ∧ KeySet.verdict t.schema t.records row = .duplicateKey := by
  have hlist : t.layout.kind ≠ .list := hkind
  rw [h.check_eq_verdict, Layout.verdict, if_neg hlist]
  split
  · next hfound =>
    obtain ⟨i, hi⟩ := Option.isSome_iff_exists.1 h.schema
    have hlt : i < row.length := by
      rw [Row.length_eq_of_check hrow]
      exact (Schema.check_eq_ok_iff.1 h.check_eq).2.2 i hi
    have hkey : Row.primaryKey? t.schema row = some row[i] := by
      rw [Row.primaryKey?, hi]
      exact List.getElem?_eq_getElem hlt
    have hnull : row[i] ≠ .null := by
      intro hnull
      rw [hnull] at hkey
      exact (h.accepted.primaryKeys hkind).1 row hfound.2 hkey
    refine .inr ⟨rfl, ?_⟩
    rw [KeySet.verdict, hkey]
    dsimp only
    rw [if_neg hnull, if_pos ⟨row, hfound.2, hkey⟩]
  · exact .inl rfl

/-! ### Tables -/

/-- Tables with the same rows under the same header, neither of which is a list. -/
structure Table.Pair (t t' : Table) : Prop where
  header_eq : t'.toHeader = t.toHeader
  records_eq : t'.records = t.records
  regular : t.Regular Schema.HasKey
  regular' : t'.Regular Schema.HasKey
  kind_ne : t.kind ≠ .list
  kind_ne' : t'.kind ≠ .list

theorem Table.Regular.scans_aliased {p : Schema → Prop} {t : Table} (h : t.Regular p) (name : String) :
    (t.aliased name).Scans := by
  apply Table.scans_of_filled
  · exact h.filled.aliased name
  · exact ⟨h.inRange.keyColumn_lt, h.inRange.declarations_lt⟩

namespace Table.Pair

variable {t t' : Table}

theorem name_eq (h : t.Pair t') : t'.name = t.name :=
  congrArg Header.name h.header_eq

theorem schema_eq (h : t.Pair t') : t'.schema = t.schema :=
  congrArg Header.schema h.header_eq

/-- A pair is read as twins. -/
theorem twin_aliased (h : t.Pair t') (name : String) : (t.aliased name).Twin (t'.aliased name) where
  header_eq := by
    rw [Table.aliased, Table.aliased, h.header_eq]
  records_eq := h.records_eq
  scans := h.regular.scans_aliased name
  scans' := h.regular'.scans_aliased name

theorem check_twin (h : t.Pair t') {row : Row} (hrow : row.check t.schema = .ok ()) :
    (t.check row).Twin (t'.check row) := by
  have hleft := h.regular.check_cases h.kind_ne hrow
  rw [← h.schema_eq] at hrow
  have hright := h.regular'.check_cases h.kind_ne' hrow
  rw [h.schema_eq, h.records_eq] at hright
  rcases hleft with hleft | ⟨hleft, hverdict⟩ <;> rcases hright with hright | ⟨hright, hverdict'⟩
  · exact .inl (hright.trans hleft.symm)
  · refine .inr ?_
    rw [hleft, hright, hverdict']
    exact ⟨rfl, rfl⟩
  · refine .inr ?_
    rw [hleft, hright, hverdict]
    exact ⟨rfl, rfl⟩
  · exact .inl (hright.trans hleft.symm)

/-- Both store a row that is accepted. -/
theorem insert (h : t.Pair t') {row : Row} (hrow : row.check t.schema = .ok ())
    (hverdict : t.check row = .success) : (t.insert row).2.Pair (t'.insert row).2 := by
  obtain ⟨-, hheader, hlayout, hrecords⟩ := h.regular.insert_stores row
  obtain ⟨-, hheader', hlayout', hrecords'⟩ := h.regular'.insert_stores row
  have hrow' : row.check t'.schema = .ok () := by rwa [h.schema_eq]
  have hverdict' := (h.check_twin hrow).eq_success_iff.2 hverdict
  have hkind : (t.insert row).2.kind = t.kind := congrArg Layout.kind hlayout
  have hkind' : (t'.insert row).2.kind = t'.kind := congrArg Layout.kind hlayout'
  constructor
  · rw [hheader, hheader', h.header_eq]
  · rw [hrecords, hrecords', h.records_eq]
  · exact h.regular.insert hrow hverdict
  · exact h.regular'.insert hrow' hverdict'
  · rw [hkind]
    exact h.kind_ne
  · rw [hkind']
    exact h.kind_ne'

end Table.Pair

/-! ### Requests and answers -/

/-- Requests that differ at most in the indexes and the kind of a table that they create.  The table
has a primary key and is not a list. -/
inductive Request.Twin : Request → Request → Prop
  | create {s : Schema} {declarations declarations' : List Declaration}
      {kind kind' : Option TableKind} (hkey : s.HasKey) (hkind : kind ≠ some .list)
      (hkind' : kind' ≠ some .list) :
      Twin (.create s declarations kind) (.create s declarations' kind')
  | drop (name : String) : Twin (.drop name) (.drop name)
  | insert (name : String) (row : Row) : Twin (.insert name row) (.insert name row)
  | select (entries : List FromEntry) (conditions : List Condition) (targets : List Target) :
      Twin (.select entries conditions targets) (.select entries conditions targets)

/-- Answers that differ at most in the kind of a table, the code of a duplicate and the order of
rows. -/
inductive Answer.Twin : Answer → Answer → Prop
  | created (kind kind' : TableKind) : Twin (.created kind) (.created kind')
  | done : Twin (.outcome .done) (.outcome .done)
  | inserted {v v' : Verdict} (h : v.Twin v') :
      Twin (.outcome (.inserted v)) (.outcome (.inserted v'))
  | rows {a a' : Selection} (h : a.Twin a') : Twin (.outcome (.rows a)) (.outcome (.rows a'))

namespace Database

/-- Databases of pairs of tables in the same order. -/
def Twin (db db' : Database) : Prop :=
  List.Forall₂ Table.Pair db.tables db'.tables

variable {db db' : Database}

theorem Twin.names_eq (h : db.Twin db') : db'.names = db.names :=
  map_eq_map_of_rel h fun _ _ => Table.Pair.name_eq

theorem agree_table (h : db.Twin db') (name : String) :
    Agree Table.Pair (db.table name) (db'.table name) := by
  have hfind : Option.Rel Table.Pair (db.tables.find? (·.name == name))
      (db'.tables.find? (·.name == name)) :=
    rel_find? h fun t t' ht => by rw [ht.name_eq]
  unfold table
  generalize db.tables.find? (·.name == name) = found at hfind ⊢
  generalize db'.tables.find? (·.name == name) = found' at hfind ⊢
  cases hfind with
  | none => exact .error _
  | some ht => exact .ok ht

/-! ### Selections -/

theorem agree_add {s s' : Scope} {t t' : Table} (h : s.Twin s') (ht : t.Twin t') :
    Agree Scope.Twin (s.add t) (s'.add t') := by
  have hnames : s'.names = s.names := map_eq_map_of_rel h fun _ _ => Table.Twin.name_eq
  unfold Scope.add
  simp only [ht.name_eq, hnames]
  split
  · exact .error _
  · exact .ok (List.rel_append h (.cons ht .nil))

theorem agree_scope (h : db.Twin db') (entries : List FromEntry) :
    Agree Scope.Twin (db.scope entries) (db'.scope entries) :=
  Agree.foldlM_same .nil fun e _ _ hs =>
    (agree_table h e.name).bind fun _ _ ht => agree_add hs (ht.twin_aliased e.visibleName)

theorem agree_select (h : db.Twin db') (entries : List FromEntry) (conditions : List Condition)
    (targets : List Target) :
    Agree Selection.Twin (db.select entries conditions targets)
      (db'.select entries conditions targets) := by
  unfold select
  refine (agree_scope h entries).bind fun s s' hs => ?_
  exact (Scope.agree_evaluate hs conditions).bind fun r r' hr => hr.agree_select targets

/-! ### Changes -/

theorem Twin.replace (h : db.Twin db') {t t' : Table} (ht : t.Pair t') :
    (db.replace t).Twin (db'.replace t') := by
  unfold Twin Database.replace
  dsimp only
  rw [List.forall₂_map_left_iff, List.forall₂_map_right_iff]
  refine h.imp fun u u' hu => ?_
  rw [hu.name_eq, ht.name_eq]
  split
  · exact ht
  · exact hu

theorem agree_insert (h : db.Twin db') (name : String) (row : Row) :
    Agree (fun p p' => p.1.Twin p'.1 ∧ p.2.Twin p'.2) (db.insert name row)
      (db'.insert name row) := by
  rcases agree_iff.1 (agree_table h name) with ⟨fault, hleft, hright⟩ | ⟨t, t', hleft, hright, ht⟩
  · rw [insert, insert, hleft, hright]
    exact .error fault
  · cases hrow : row.check t.schema with
    | error e =>
      simp only [insert, hleft, hright, ht.schema_eq, hrow, bind, Except.bind]
      exact .error e
    | ok u =>
      have hrow' : row.check t'.schema = .ok () := by rw [ht.schema_eq, hrow]
      have hcheck := ht.check_twin hrow
      rw [insert_eq ht.regular hleft hrow, insert_eq ht.regular' hright hrow']
      refine .ok ⟨hcheck, ?_⟩
      dsimp only
      simp only [hcheck.eq_success_iff]
      split
      · next hsuccess => exact h.replace (ht.insert hrow hsuccess)
      · exact h

theorem agree_drop (h : db.Twin db') (name : String) : Agree Twin (db.drop name) (db'.drop name) := by
  unfold drop
  rw [h.names_eq]
  split
  · exact .error _
  · refine .ok (List.rel_filter ?_ h)
    intro t t' ht
    dsimp only
    rw [ht.name_eq]

theorem kindOf_ne_list (ds : List Declaration) : kindOf ds ≠ .list := by
  unfold kindOf
  split
  · decide
  · split <;> decide
  · decide

/-- The kind of a table that is created is the one that is given, or else depends on its indexes. -/
theorem kind_ne_list_of_build {config : Config} {s : Schema} {declarations : List Declaration}
    {kind : Option TableKind} {t : Table} (hkind : kind ≠ some .list)
    (h : build config s declarations kind = .ok t) : t.kind ≠ .list := by
  have hbuilt : t.kind = kind.getD (kindOf (declared config s declarations)) :=
    congrArg Layout.kind (Table.isEmpty_of_empty h).layout_eq
  rw [hbuilt]
  cases kind with
  | none => exact kindOf_ne_list _
  | some kind => exact fun heq => hkind (congrArg some heq)

/-- Tables that are created with one schema are a pair. -/
theorem Twin.create (h : db.Twin db') {s : Schema} (hkey : s.HasKey)
    {declarations declarations' : List Declaration} {kind kind' : Option TableKind}
    {chosen chosen' : TableKind} {created created' : Database} (hkind : kind ≠ some .list)
    (hkind' : kind' ≠ some .list) (hcreate : db.create s declarations kind = .ok (chosen, created))
    (hcreate' : db'.create s declarations' kind' = .ok (chosen', created')) :
    created.Twin created' := by
  obtain ⟨hcheck, -, hdeclarations, t, hbuild, -, rfl⟩ := create_eq_ok hcreate
  obtain ⟨-, -, hdeclarations', t', hbuild', -, rfl⟩ := create_eq_ok hcreate'
  have hempty := Table.isEmpty_of_empty hbuild
  have hempty' := Table.isEmpty_of_empty hbuild'
  refine List.rel_append h (.cons ⟨?_, ?_, ?_, ?_, ?_, ?_⟩ .nil)
  · rw [hempty.header_eq, hempty'.header_eq]
  · rw [hempty.records_eq, hempty'.records_eq]
  · exact regular_of_build hkey hcheck hdeclarations hbuild
  · exact regular_of_build hkey hcheck hdeclarations' hbuild'
  · exact kind_ne_list_of_build hkind hbuild
  · exact kind_ne_list_of_build hkind' hbuild'

/-! ### Runs -/

/-- Actions that agree are settled to answers that agree, and to twins. -/
theorem settle_agree {e e' : Except Error (Answer × Database)} (h : db.Twin db')
    (he : Agree (fun p p' => p.1.Twin p'.1 ∧ p.2.Twin p'.2) e e') :
    Agree Answer.Twin (db.settle e).1 (db'.settle e').1 ∧ (db.settle e).2.Twin (db'.settle e').2 := by
  cases he with
  | error e => exact ⟨.error e, h⟩
  | ok hboth => exact ⟨.ok hboth.1, hboth.2⟩

theorem exists_create {s : Schema} {declarations : List Declaration} {kind : Option TableKind}
    (h : (db.handle (.create s declarations kind)).1.toBool) :
    ∃ chosen created, db.create s declarations kind = .ok (chosen, created) := by
  simp only [handle] at h
  cases hcreate : db.create s declarations kind with
  | error e =>
    rw [hcreate] at h
    contradiction
  | ok p => exact ⟨p.1, p.2, rfl⟩

/-- Twins that are asked the same give answers that agree, and stay twins. -/
theorem handle_twin (h : db.Twin db') {r r' : Request} (hr : r.Twin r')
    (hcreated : r.schema?.isSome → (db.handle r).1.toBool)
    (hcreated' : r'.schema?.isSome → (db'.handle r').1.toBool) :
    Agree Answer.Twin (db.handle r).1 (db'.handle r').1 ∧ (db.handle r).2.Twin (db'.handle r').2 := by
  cases hr with
  | drop name =>
    refine settle_agree h ?_
    exact (agree_drop h name).bind fun _ _ hdropped => .ok ⟨.done, hdropped⟩
  | insert name row =>
    refine settle_agree h ?_
    exact (agree_insert h name row).bind fun _ _ hinserted =>
      .ok ⟨.inserted hinserted.1, hinserted.2⟩
  | select entries conditions targets =>
    refine settle_agree h ?_
    exact (agree_select h entries conditions targets).bind fun _ _ ha => .ok ⟨.rows ha, h⟩
  | @create s declarations declarations' kind kind' hkey hkind hkind' =>
    obtain ⟨chosen, created, hcreate⟩ := exists_create (hcreated rfl)
    obtain ⟨chosen', created', hcreate'⟩ := exists_create (hcreated' rfl)
    refine settle_agree h ?_
    rw [hcreate, hcreate']
    exact .ok ⟨.created chosen chosen', h.create hkey hkind hkind' hcreate hcreate'⟩

/-- Every request for a table to be created succeeds. -/
def AllCreated (requests : List Request) (answers : List (Except Error Answer)) : Prop :=
  ∀ p ∈ requests.zip answers, p.1.schema?.isSome → p.2.toBool

theorem Twin.replay (h : db.Twin db') {requests requests' : List Request}
    (hrequests : List.Forall₂ Request.Twin requests requests')
    (hcreated : AllCreated requests (replay handle db requests).1)
    (hcreated' : AllCreated requests' (replay handle db' requests').1) :
    List.Forall₂ (Agree Answer.Twin) (replay handle db requests).1
        (replay handle db' requests').1 ∧
      ∀ n, (replay handle db (requests.take n)).2.Twin
        (replay handle db' (requests'.take n)).2 := by
  induction hrequests generalizing db db' with
  | nil =>
    refine ⟨.nil, fun n => ?_⟩
    rw [List.take_nil]
    exact h
  | @cons r r' requests requests' hr _ ih =>
    obtain ⟨hfirst, hrest⟩ := List.forall_mem_cons.1 hcreated
    obtain ⟨hfirst', hrest'⟩ := List.forall_mem_cons.1 hcreated'
    obtain ⟨hanswer, hnext⟩ := handle_twin h hr hfirst hfirst'
    obtain ⟨hanswers, hprefixes⟩ := ih hnext hrest hrest'
    refine ⟨.cons hanswer hanswers, fun n => ?_⟩
    cases n with
    | zero => exact h
    | succ n => exact hprefixes n

/-- Databases without tables that are asked the same, apart from the indexes and the kinds of the
tables that they create, give answers that agree and after each request have the same rows in the
same order. -/
theorem replay_twin (config config' : Config) {requests requests' : List Request}
    (hrequests : List.Forall₂ Request.Twin requests requests')
    (hcreated : AllCreated requests (RelStore.replay handle (.empty config) requests).1)
    (hcreated' : AllCreated requests' (RelStore.replay handle (.empty config') requests').1) :
    List.Forall₂ (Agree Answer.Twin) (RelStore.replay handle (.empty config) requests).1
        (RelStore.replay handle (.empty config') requests').1 ∧
      ∀ n, List.Forall₂ (fun t t' : Table => t'.toHeader = t.toHeader ∧ t'.records = t.records)
        (RelStore.replay handle (.empty config) (requests.take n)).2.tables
        (RelStore.replay handle (.empty config') (requests'.take n)).2.tables := by
  have hempty : (Database.empty config).Twin (.empty config') := .nil
  obtain ⟨hanswers, hprefixes⟩ := hempty.replay hrequests hcreated hcreated'
  exact ⟨hanswers, fun n => (hprefixes n).imp fun t t' ht => ⟨ht.header_eq, ht.records_eq⟩⟩

/-- A set beside a hash index on a column that may be absent, and a tree beside several indexes. -/
theorem replay_twin_kinds :
    let s : Schema := ⟨"t", [⟨"a", .int⟩, ⟨"b", .int⟩], some 0⟩
    let u : Schema := ⟨"u", [⟨"a", .int⟩], some 0⟩
    let rest : List Request := [.insert "t" [.int 1, .null], .insert "t" [.int 1, .null],
      .insert "u" [.int 2], .insert "u" [.int 1],
      .select [⟨"t", none⟩, ⟨"u", none⟩]
        [.compare (.column ⟨some "t", "a"⟩) .le (.column ⟨some "u", "a"⟩)] [],
      .drop "t"]
    let requests : List Request := .create s [] none :: .create u [⟨0, .tree⟩] none :: rest
    let requests' : List Request :=
      .create s [⟨1, .hash⟩] none :: .create u [⟨0, .tree⟩] (some .multi) :: rest
    AllCreated requests (RelStore.replay handle (.empty {}) requests).1 ∧
      List.Forall₂ (Agree Answer.Twin) (RelStore.replay handle (.empty {}) requests).1
        (RelStore.replay handle (.empty {}) requests').1 := by
  intro s u rest requests requests'
  have hrequests : List.Forall₂ Request.Twin requests requests' := by
    refine .cons (.create rfl nofun nofun) (.cons (.create rfl nofun nofun) ?_)
    exact .cons (.insert ..) (.cons (.insert ..) (.cons (.insert ..) (.cons (.insert ..)
      (.cons (.select ..) (.cons (.drop _) .nil)))))
  have hcreated : AllCreated requests (RelStore.replay handle (.empty {}) requests).1 := by
    unfold AllCreated
    decide +kernel
  have hcreated' : AllCreated requests' (RelStore.replay handle (.empty {}) requests').1 := by
    unfold AllCreated
    decide +kernel
  exact ⟨hcreated, (replay_twin {} {} hrequests hcreated hcreated').1⟩

end Database

end RelStore
