import RelStore.Proofs.TableFile.Restore

/-!
# Headers that table files carry

Any table whose rows pass their check can be written: nothing looks at the names and the bounds that
the header is made of.  `TableFile.reads_back_iff_carried` is the main result.  The text reads as a
table with the same header and as many rows exactly if it carries the schema (`Schema.Carried`) and
the columns of the indexes are columns of the schema.

What reading asks of its lines is said by `takeSchema_eq_ok` and `takeIndexes_eq_ok`.  The names
that are read come from lines, and so they hold no line feed, and the bounds come from signed
machine integers; a schema with other names or bounds is not what is read.
-/

namespace RelStore

namespace TableFile

open LineReader

variable {c c' : LineCursor} {width : Nat}

/-! ### Lines that were read -/

theorem readInt_le {what l : String} {i : Int} (h : readInt what l = .ok i) :
    i ≤ Text.greatestSigned := by
  unfold readInt at h
  split at h
  · next m _ =>
    have hm := Int64.toInt_lt m
    have hgreatest : Text.greatestSigned = 9223372036854775807 := rfl
    cases h
    omega
  · cases h

theorem readWidth_le {l : String} {n : Nat} (h : readWidth l = .ok n) :
    n ≤ Text.greatestSigned := by
  obtain ⟨i, hi, hn⟩ := bind_eq_ok_iff.1 h
  have hle := readInt_le hi
  split at hn
  · cases hn
  · cases hn
    omega

/-- No code denotes a bound that is no signed machine integer. -/
theorem limit_ofCode_le (n : Int64) :
    ∀ limit ∈ (DataType.ofCode n).limit?, limit ≤ Text.greatestSigned := by
  intro limit hlimit
  unfold DataType.ofCode at hlimit
  split at hlimit
  · contradiction
  · next hnot =>
    obtain rfl := Option.some.inj hlimit
    have hn := Int64.toInt_lt n
    have hgreatest : Text.greatestSigned = 9223372036854775807 := rfl
    rw [Int64.toNat_toUInt64_of_le (Int64.not_lt.1 hnot), ← Int64.toNat_toInt]
    omega

theorem readColumn_eq_ok {l : String} {column : Column} (h : readColumn l = .ok column) :
    column.name.toList ⊆ l.toList ∧ separator ∉ column.name.toList ∧
      ∀ limit ∈ column.type.limit?, limit ≤ Text.greatestSigned := by
  unfold readColumn at h
  split at h
  · contradiction
  · next name code hcut =>
    obtain ⟨hl, hname⟩ := Text.cutFirst?_eq_some_iff.1 hcut
    split at h
    · next n _ =>
      cases h
      exact ⟨hl ▸ List.subset_append_left _ _, hname, limit_ofCode_le n⟩
    · contradiction

/-- The lines of a schema that was read. -/
theorem takeSchema_eq_ok {s : Schema} (h : takeSchema c = .ok (s, c')) :
    ∃ widthLine columnLines keyLine,
      c.rest = s.table :: widthLine :: (columnLines ++ keyLine :: c'.rest) ∧
        readWidth widthLine = .ok s.width ∧
        List.Forall₂ (fun l column => readColumn l = .ok column) columnLines s.columns ∧
        readPrimaryKey s.width keyLine = .ok s.primaryKey ∧ s.check = .ok () := by
  obtain ⟨table, c₁, htable, h⟩ := bind_eq_ok h
  obtain ⟨width, c₂, hwidth, h⟩ := bind_eq_ok h
  obtain ⟨columns, c₃, hcolumns, h⟩ := bind_eq_ok h
  obtain ⟨primaryKey, c₄, hkey, h⟩ := bind_eq_ok h
  obtain ⟨_, c₅, hcheck, h⟩ := bind_eq_ok h
  obtain ⟨rfl, rfl⟩ := pure_eq_ok h
  obtain ⟨tableLine, hrest, htableLine⟩ := line_eq_ok htable
  obtain ⟨widthLine, hrest₁, hwidthLine⟩ := line_eq_ok hwidth
  obtain ⟨hlength, columnLines, hrest₂, hcolumnLines⟩ :=
    times_eq_ok (fun _ _ _ => line_eq_ok) hcolumns
  obtain ⟨keyLine, hrest₃, hkeyLine⟩ := line_eq_ok hkey
  obtain ⟨hvalid, rfl⟩ := liftM_eq_ok hcheck
  cases htableLine
  obtain rfl : columns.length = width := hlength
  refine ⟨widthLine, columnLines, keyLine, ?_, hwidthLine, hcolumnLines, hkeyLine, hvalid⟩
  rw [hrest, hrest₁, hrest₂, hrest₃]

/-! ### Columns of indexes that were read -/

theorem toColumn_eq_ok {what : String} {i : Int} {column : Nat}
    (h : toColumn what width i = .ok column) : i = column ∧ column < width := by
  unfold toColumn at h
  split at h
  · next hi =>
    cases h
    exact ⟨(Int.toNat_of_nonneg hi.1).symm, (Int.toNat_lt hi.1).2 hi.2⟩
  · contradiction

theorem eq_of_readInt_toString {what : String} {n : Nat} {i : Int}
    (h : readInt what (toString n) = .ok i) : i = n := by
  rw [readInt_toString_nat] at h
  split at h
  · cases h
    rfl
  · contradiction

theorem readKeyColumn_eq_ok {l : String} {column : Nat} (h : readKeyColumn width l = .ok column) :
    readInt "key column" l = .ok (column : Int) ∧ column < width := by
  obtain ⟨i, hi, hcolumn⟩ := bind_eq_ok_iff.1 h
  obtain ⟨rfl, hlt⟩ := toColumn_eq_ok hcolumn
  exact ⟨hi, hlt⟩

theorem lt_of_readKeyColumn {column k : Nat} (h : readKeyColumn width (toString column) = .ok k) :
    column < width := by
  obtain ⟨hi, hlt⟩ := readKeyColumn_eq_ok h
  rwa [← Int.ofNat_inj.1 (eq_of_readInt_toString hi)]

theorem readDeclaration_eq_ok {l index : String} {column : Nat}
    (h : readDeclaration width l = .ok (column, index)) :
    ∃ text, Text.cutFirst? separator l = some (text, index) ∧ Text.unsigned64 text = .ok column ∧
      column < width := by
  unfold readDeclaration at h
  split at h
  · contradiction
  · next text index' hcut =>
    split at h
    · next n hread =>
      split at h
      · next hlt =>
        cases h
        exact ⟨text, hcut, hread, hlt⟩
      · contradiction
    · contradiction

theorem lt_of_readDeclaration {d : Declaration} {p : Nat × String}
    (h : readDeclaration width (declarationLine d) = .ok p) : d.column < width := by
  obtain ⟨text, hcut, hread, hlt⟩ := readDeclaration_eq_ok h
  rw [declarationLine, Text.cutFirst?_joined (separator_not_mem_toString _)] at hcut
  obtain ⟨rfl, -⟩ := Prod.mk.inj (Option.some.inj hcut)
  rw [Text.unsigned64_toString] at hread
  split at hread
  · rwa [Except.ok.inj hread]
  · contradiction

/-- The line of an index declaration that was read. -/
theorem takeDeclaration_eq_ok {d : Declaration} (h : takeDeclaration width c = .ok (d, c')) :
    ∃ l, c.rest = l :: c'.rest ∧
      ∃ index, readDeclaration width l = .ok (d.column, index) ∧
        IndexType.parse index = .ok d.index := by
  obtain ⟨⟨column, text⟩, c₁, hline, h⟩ := bind_eq_ok h
  obtain ⟨index, c₂, hindex, h⟩ := bind_eq_ok h
  obtain ⟨rfl, rfl⟩ := pure_eq_ok h
  obtain ⟨hparse, rfl⟩ := liftM_eq_ok hindex
  obtain ⟨l, hrest, hread⟩ := line_eq_ok hline
  exact ⟨l, hrest, text, hread, hparse⟩

/-- What was read of indexes, by the kind of the table. -/
structure TakenIndexes (kind : TableKind) (width : Nat) (c c' : LineCursor)
    (keyColumn : Option Nat) (declarations : List Declaration) : Prop where
  single : kind.hasSingleKey → ∃ l column, c.rest = l :: c'.rest ∧
    readKeyColumn width l = .ok column ∧ keyColumn = some column
  multi : kind = .multi → ∃ l c₁ count, c.rest = l :: c₁.rest ∧
    readInt "declaration count" l = .ok count ∧
      times (takeDeclaration width) count.toNat c₁ = .ok (declarations, c')
  keyColumn_eq_none : kind.hasSingleKey = false → keyColumn = none
  declarations_eq_nil : kind ≠ .multi → declarations = []

theorem takeIndexes_eq_ok {kind : TableKind} {keyColumn : Option Nat}
    {declarations : List Declaration}
    (h : takeIndexes kind width c = .ok ((keyColumn, declarations), c')) :
    TakenIndexes kind width c c' keyColumn declarations := by
  have hsingle : (do return (some (← .line "key column" (readKeyColumn width)), []) :
      LineReader (Option Nat × List Declaration)) c = .ok ((keyColumn, declarations), c') →
      declarations = [] ∧ ∃ l column, c.rest = l :: c'.rest ∧
        readKeyColumn width l = .ok column ∧ keyColumn = some column := by
    intro h
    obtain ⟨column, c₁, hline, h⟩ := bind_eq_ok h
    obtain ⟨heq, rfl⟩ := pure_eq_ok h
    cases heq
    obtain ⟨l, hl, hread⟩ := line_eq_ok hline
    exact ⟨rfl, l, column, hl, hread, rfl⟩
  cases kind with
  | hash =>
    obtain ⟨hnil, hkey⟩ := hsingle h
    exact ⟨fun _ => hkey, nofun, nofun, fun _ => hnil⟩
  | tree =>
    obtain ⟨hnil, hkey⟩ := hsingle h
    exact ⟨fun _ => hkey, nofun, nofun, fun _ => hnil⟩
  | set =>
    cases h
    exact ⟨nofun, nofun, fun _ => rfl, fun _ => rfl⟩
  | list =>
    cases h
    exact ⟨nofun, nofun, fun _ => rfl, fun _ => rfl⟩
  | multi =>
    obtain ⟨count, c₁, hcount, h⟩ := bind_eq_ok h
    obtain ⟨ds, c₂, hds, h⟩ := bind_eq_ok h
    obtain ⟨heq, rfl⟩ := pure_eq_ok h
    cases heq
    obtain ⟨l, hl, hread⟩ := line_eq_ok hcount
    exact ⟨nofun, fun _ => ⟨l, c₁, count, hl, hread, hds⟩, fun _ => rfl, fun h => absurd rfl h⟩

/-- The indexes that are read are on columns of the schema. -/
theorem lt_of_takeIndexes {f : TableFile} {kind : TableKind} {rest : List String} {number : Nat}
    {indexes : Option Nat × List Declaration}
    (h : takeIndexes kind width ⟨f.indexLines kind ++ rest, number⟩ = .ok (indexes, c')) :
    (kind.hasSingleKey → f.keyColumn.getD 0 < width) ∧
      (kind = .multi → ∀ d ∈ f.declarations, d.column < width) := by
  have htaken := takeIndexes_eq_ok h
  constructor
  · intro hkind
    obtain ⟨l, column, hl, hread, -⟩ := htaken.single hkind
    have hlines : f.indexLines kind ++ rest = toString (f.keyColumn.getD 0) :: rest := by
      cases kind with
      | hash => rfl
      | tree => rfl
      | _ => exact absurd hkind Bool.false_ne_true
    obtain ⟨rfl, -⟩ := List.cons.inj (hlines.symm.trans hl)
    exact lt_of_readKeyColumn hread
  · rintro rfl d hd
    obtain ⟨l, c₁, count, hl, hcount, hds⟩ := htaken.multi rfl
    obtain ⟨rfl, hrest⟩ := List.cons.inj hl
    obtain rfl := eq_of_readInt_toString hcount
    obtain ⟨hlength, ls, hls, hall⟩ := times_eq_ok (fun _ _ _ => takeDeclaration_eq_ok) hds
    have hlines : ls = f.declarations.map declarationLine := by
      have hlength' : ls.length = (f.declarations.map declarationLine).length := by
        rw [hall.length_eq, hlength, List.length_map, Int.toNat_natCast]
      exact (List.append_inj (hls.symm.trans hrest.symm) hlength').1
    have hmem : declarationLine d ∈ ls := hlines ▸ List.mem_map_of_mem hd
    obtain ⟨_, -, index, hread, -⟩ := exists_of_forall₂ hall _ hmem
    exact lt_of_readDeclaration hread

/-! ### Whole files -/

/-- The parts of a file that was read. -/
theorem decode_eq_ok {kind : TableKind} {text : String} {f : TableFile}
    (h : decode kind text = .ok f) :
    ∃ c c', takeSchema ⟨Text.lines text, 0⟩ = .ok (f.schema, c) ∧
      takeIndexes kind f.schema.width c = .ok ((f.keyColumn, f.declarations), c') ∧
        f.name = f.schema.table ∧ ∃ c'', rest (readRow f.schema) c' = .ok (f.rows, c'') := by
  have hrun : ∃ c, take kind ⟨Text.lines text, 0⟩ = .ok (f, c) := by
    rw [decode, StateT.run'] at h
    cases htake : take kind ⟨Text.lines text, 0⟩ with
    | error e =>
      rw [htake] at h
      contradiction
    | ok p =>
      rw [htake] at h
      cases h
      exact ⟨p.2, rfl⟩
  obtain ⟨c, htake⟩ := hrun
  obtain ⟨s, c₁, hschema, h⟩ := bind_eq_ok htake
  obtain ⟨⟨keyColumn, declarations⟩, c₂, hindexes, h⟩ := bind_eq_ok h
  obtain ⟨rows, c₃, hrows, h⟩ := bind_eq_ok h
  obtain ⟨rfl, rfl⟩ := pure_eq_ok h
  exact ⟨c₁, c₂, hschema, hindexes, rfl, c₃, hrows⟩

/-- A schema that is read is carried, unless the name of the table ends with a carriage return. -/
theorem carried_of_getLast?_ne {f : TableFile} {kind : TableKind} {text : String}
    (h : decode kind text = .ok f) (hreturn : f.schema.table.toList.getLast? ≠ some '\r') :
    f.schema.Carried := by
  obtain ⟨c, c', hschema, -, -⟩ := decode_eq_ok h
  obtain ⟨widthLine, columnLines, keyLine, hlines, hwidth, hcolumns, -, -⟩ :=
    takeSchema_eq_ok hschema
  have hline : ∀ l ∈ f.schema.table :: widthLine :: (columnLines ++ keyLine :: c.rest),
      '\n' ∉ l.toList := by
    rw [← hlines]
    exact fun l => Text.not_mem_of_mem_lines
  have hcolumn : ∀ column ∈ f.schema.columns,
      ∃ l, '\n' ∉ l.toList ∧ readColumn l = .ok column := by
    intro column hmem
    obtain ⟨l, hl, hread⟩ := exists_of_forall₂ hcolumns.flip column hmem
    refine ⟨l, hline l ?_, hread⟩
    exact List.mem_cons_of_mem _ (List.mem_cons_of_mem _ (List.mem_append_left _ hl))
  refine ⟨⟨hline _ List.mem_cons_self, hreturn⟩, fun column hmem => ?_, fun column hmem => ?_,
    readWidth_le hwidth⟩
  · obtain ⟨l, hl, hread⟩ := hcolumn column hmem
    obtain ⟨hsubset, hseparator, -⟩ := readColumn_eq_ok hread
    exact ⟨fun hnewline => hl (hsubset hnewline), hseparator⟩
  · obtain ⟨l, -, hread⟩ := hcolumn column hmem
    exact (readColumn_eq_ok hread).2.2

/-- A schema that is read back is carried. -/
theorem carried_of_decode {f : TableFile} {kind : TableKind} {tail : List String}
    (h : decode kind (Text.unlines (schemaLines f.schema ++ tail)) = .ok f) : f.schema.Carried := by
  obtain ⟨c, c', hschema, -, -⟩ := decode_eq_ok h
  obtain ⟨widthLine, columnLines, keyLine, hlines, -⟩ := takeSchema_eq_ok hschema
  obtain ⟨others, hothers⟩ : ∃ others, schemaLines f.schema ++ tail = f.schema.table :: others :=
    ⟨_, rfl⟩
  have hkept : Text.lines (Text.unlines (f.schema.table :: others)) =
      f.schema.table :: widthLine :: (columnLines ++ keyLine :: c.rest) := hothers ▸ hlines
  exact carried_of_getLast?_ne h (Text.isKept_of_lines_unlines_cons hkept).2

/-- A file that is read back has its indexes on columns of the schema. -/
theorem lt_of_decode {f g : TableFile} {kind : TableKind} (hcarried : f.schema.Carried)
    (hcheck : f.schema.check = .ok ()) (hrows : ∀ row ∈ f.rows, row.check f.schema = .ok ())
    (h : decode kind (Text.unlines
      (schemaLines f.schema ++ (f.indexLines kind ++ f.rows.map rowText))) = .ok g) :
    (kind.hasSingleKey → f.keyColumn.getD 0 < f.schema.width) ∧
      (kind = .multi → ∀ d ∈ f.declarations, d.column < f.schema.width) := by
  obtain ⟨c, c', hschema, hindexes, -⟩ := decode_eq_ok h
  rw [lines_unlines_of_carried hcarried hrows,
    takes_schema hcarried hcheck (f.indexLines kind ++ f.rows.map rowText) 0] at hschema
  obtain ⟨hsame, rfl⟩ := Prod.mk.inj (Except.ok.inj hschema)
  rw [← hsame] at hindexes
  exact lt_of_takeIndexes hindexes

variable {t : Table}

/-- The indexes of a coherent table are those of its file. -/
theorem inRange_of_lt (h : t.storage.Coherent t.schema)
    (hkey : t.kind.hasSingleKey → (ofTable t).keyColumn.getD 0 < t.schema.width)
    (hdeclarations : t.kind = .multi → ∀ d ∈ t.declarations, d.column < t.schema.width) :
    t.InRange where
  keyColumn_lt column hcolumn := by
    have hsome : (ofTable t).keyColumn = some column := hcolumn
    have hsingle : t.kind.hasSingleKey := by
      rw [Table.kind, t.storage.hasSingleKey_iff]
      exact Option.isSome_iff_exists.2 ⟨column, hcolumn⟩
    have hlt := hkey hsingle
    rwa [hsome] at hlt
  declarations_lt d hd := by
    have hmulti : t.kind = .multi := by
      by_contra hkind
      have hnil : t.layout.declarations = [] := h.declarations_eq_nil hkind
      rw [hnil] at hd
      exact absurd hd List.not_mem_nil
    exact hdeclarations hmulti d hd

/-- Any table whose rows pass their check can be written.  The text reads as a table with the same
header and as many rows exactly if it carries the schema and the indexes are on columns of it. -/
theorem reads_back_iff_carried (ht : t.Filled fun _ _ => True) (hname : t.name = t.schema.table)
    (hcheck : t.schema.check = .ok ()) (hfit : ∀ row ∈ t.records, row.check t.schema = .ok ()) :
    ∃ text, (ofTable t).encode t.kind = .ok text ∧
      ((∃ f, decode t.kind text = .ok f ∧ f.name = t.name ∧ f.schema = t.schema ∧
          f.rows.length = t.records.length) ↔
        t.schema.Carried ∧ t.InRange) := by
  have hcoherent := ht.coherent
  have hencode := encode_eq (f := ofTable t) hname hfit t.kind
  refine ⟨_, hencode, ?_, ?_⟩
  · rintro ⟨f, hdecode, -, hschema, -⟩
    have hcarried : t.schema.Carried := by
      rw [show (ofTable t).schema = f.schema from hschema.symm] at hdecode
      exact hschema ▸ carried_of_decode hdecode
    obtain ⟨hkey, hdeclarations⟩ := lt_of_decode hcarried hcheck hfit hdecode
    exact ⟨hcarried, inRange_of_lt hcoherent hkey hdeclarations⟩
  · rintro ⟨hcarried, hrange⟩
    obtain ⟨text, hencode', hdecode⟩ :=
      decode_encode (fits_of_carried hcoherent hname hcheck hrange hfit hcarried)
    obtain rfl := Except.ok.inj (hencode.symm.trans hencode')
    exact ⟨ofTable t, hdecode, rfl, rfl, rfl⟩

/-- A carriage return at the end of a column's name is carried. -/
theorem reads_back_iff_carried_return :
    let s : Schema := ⟨"t", [⟨"c\r", .varchar 3⟩], some 0⟩
    let t : Table := { Header.base "t" s with storage := .keyed (.tree 0 .standard) }
    let t := (t.insertAll [[.text "b"], [.text ""]]).2
    ¬ t.schema.Storable ∧ ∃ text, (ofTable t).encode t.kind = .ok text ∧
      ∃ f, decode t.kind text = .ok f ∧ f.name = "t" ∧ f.schema = s ∧ f.rows.length = 2 := by
  intro s t t'
  have hfilled : t'.Filled fun _ _ => True := by
    refine .insertAll (.empty (?_ : Table.empty .tree "t" s none [] .standard = .ok t)) _ ?_
    · rfl
    · exact fun _ _ => trivial
  have hcarried : t'.schema.Carried := ⟨by decide, by decide, by decide, by decide⟩
  obtain ⟨text, hencode, hread⟩ := reads_back_iff_carried hfilled rfl rfl (by decide)
  refine ⟨fun hstorable => absurd (hstorable.name _ List.mem_cons_self) (by decide), text, hencode,
    hread.2 ⟨hcarried, by decide, by decide⟩⟩

/-- A column whose bound is no signed machine integer is written, and not read back. -/
theorem exists_not_read_back :
    let s : Schema := ⟨"t", [⟨"c", .varchar 0x8000000000000000⟩], none⟩
    let t : Table := { Header.base "t" s with storage := .keyed (.tree 0 .standard) }
    t.Filled (fun _ _ => True) ∧ t.schema.check = .ok () ∧ t.InRange ∧ t.records = [] ∧
      ∃ text, (ofTable t).encode t.kind = .ok text ∧
        ∀ f, decode t.kind text = .ok f → f.schema ≠ s := by
  intro s t
  have hfilled : t.Filled fun _ _ => True :=
    .empty (rfl : Table.empty .tree "t" s none [] .standard = .ok t)
  have hrows : ∀ row ∈ (ofTable t).rows, row.check s = .ok () :=
    fun row hrow => absurd hrow List.not_mem_nil
  have hencode := encode_eq rfl hrows .tree
  refine ⟨hfilled, rfl, ⟨by decide, by decide⟩, rfl, _, hencode, fun f hdecode hschema => ?_⟩
  rw [show (ofTable t).schema = f.schema from hschema.symm] at hdecode
  have hcarried : s.Carried := hschema ▸ carried_of_decode hdecode
  exact absurd (hcarried.limit _ List.mem_cons_self _ rfl) (by decide)

end TableFile

end RelStore
