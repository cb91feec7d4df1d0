import RelStore.Proofs.TableFile.Header

/-!
# Normal forms of table files

Any text that is read at all is read as a sound file: its schema and its rows pass their checks, and
it says of indexes what tables of the kind have (`TableFile.Sound`).  One file has many texts, which
differ in the ends of lines, in blanks and signs about numbers and in the codes of types, and one
table has many files, which differ in declarations that do not count.

`TableFile.decode_stable` is the main result.  The table that is restored from a file is written as
the text of the file's normal form (`TableFile.normal`), and that text stays as it is, however often
it is read, restored and written again.
-/

namespace RelStore

namespace TableFile

open LineReader

variable {f : TableFile} {kind : TableKind} {width : Nat} {c c' : LineCursor}

/-! ### Files that are read -/

/-- What holds of any file that is read as one of a table of the kind. -/
structure Sound (f : TableFile) (kind : TableKind) : Prop where
  check : f.schema.check = .ok ()
  name_eq : f.name = f.schema.table
  keyColumn : if kind.hasSingleKey then ∃ column < f.schema.width, f.keyColumn = some column
    else f.keyColumn = none
  declarations_eq_nil : kind ≠ .multi → f.declarations = []
  declarations_lt : ∀ d ∈ f.declarations, d.column < f.schema.width
  rows : ∀ row ∈ f.rows, row.check f.schema = .ok ()

/-- The declarations that are read are on columns of the schema. -/
theorem lt_of_times_takeDeclaration {n : Nat} {ds : List Declaration}
    (h : times (takeDeclaration width) n c = .ok (ds, c')) : ∀ d ∈ ds, d.column < width := by
  obtain ⟨-, ls, -, hall⟩ := times_eq_ok (fun _ _ _ => takeDeclaration_eq_ok) h
  intro d hd
  obtain ⟨_, -, index, hread, -⟩ := exists_of_forall₂ hall.flip d hd
  obtain ⟨_, -, -, hlt⟩ := readDeclaration_eq_ok hread
  exact hlt

/-- A row is checked when it is read. -/
theorem check_of_readRow {s : Schema} {l : String} {row : Row} (h : readRow s l = .ok row) :
    row.check s = .ok () := by
  simp only [readRow] at h
  split at h
  · contradiction
  · obtain ⟨row', -, h⟩ := bind_eq_ok_iff.1 h
    obtain ⟨_, hcheck, h⟩ := bind_eq_ok_iff.1 h
    cases h
    cases hrow : row.check s with
    | ok _ => rfl
    | error e =>
      rw [hrow] at hcheck
      contradiction

/-- Whatever the text, the file that is read is sound. -/
theorem sound_of_decode {text : String} (h : decode kind text = .ok f) : f.Sound kind := by
  obtain ⟨c, c', hschema, hindexes, hname, c'', hrows⟩ := decode_eq_ok h
  obtain ⟨_, _, _, -, -, -, -, hcheck⟩ := takeSchema_eq_ok hschema
  have htaken := takeIndexes_eq_ok hindexes
  refine ⟨hcheck, hname, ?_, htaken.declarations_eq_nil, fun d hd => ?_, fun row hrow => ?_⟩
  · split
    · next hsingle =>
      obtain ⟨l, column, -, hread, hcolumn⟩ := htaken.single hsingle
      exact ⟨column, (readKeyColumn_eq_ok hread).2, hcolumn⟩
    · next hsingle => exact htaken.keyColumn_eq_none (Bool.eq_false_of_not_eq_true hsingle)
  · by_cases hmulti : kind = .multi
    · obtain ⟨_, _, _, -, -, hds⟩ := htaken.multi hmulti
      exact lt_of_times_takeDeclaration hds d hd
    · rw [htaken.declarations_eq_nil hmulti] at hd
      exact absurd hd List.not_mem_nil
  · obtain ⟨l, -, hread⟩ := rest_eq_ok hrows row hrow
    exact check_of_readRow hread

/-! ### Restored tables -/

/-- The file with the declarations that count. -/
def normal (f : TableFile) : TableFile :=
  { f with declarations := Declaration.effective f.declarations }

variable {shape : Shape} {t : Table}

/-- A restored table was made and filled. -/
theorem filled_of_restore (h : f.restore kind shape = .ok t) : t.Filled fun _ _ => True := by
  obtain ⟨e, hmake, hinsert⟩ := bind_eq_ok_iff.1 h
  cases hinsert
  exact .insertAll (.empty hmake) f.rows fun _ _ => trivial

/-- The table that is restored from a sound file is of the kind, and its file is the normal form. -/
theorem Sound.ofTable_eq (h : f.Sound kind) (ht : f.restore kind shape = .ok t) :
    t.kind = kind ∧ ofTable t = f.normal := by
  obtain ⟨e, hmake, hinsert⟩ := bind_eq_ok_iff.1 ht
  cases hinsert
  obtain ⟨hheader, -, hnil, hlayout⟩ := Table.isEmpty_of_empty hmake
  have halias : e.isAlias = false := congrArg Header.isAlias hheader
  obtain ⟨-, hheader', hlayout', hrecords⟩ := Table.insertAll_stores halias f.rows
  rw [hlayout] at hlayout'
  have hkeyColumn : (e.insertAll f.rows).2.keyColumn? = f.keyColumn := by
    have hkey := h.keyColumn
    refine (congrArg Layout.keyColumn hlayout').trans ?_
    simp only [Table.layoutOf]
    split at hkey
    · next hsingle =>
      obtain ⟨column, -, hcolumn⟩ := hkey
      rw [if_pos hsingle, hcolumn]
      rfl
    · next hsingle => rw [if_neg hsingle, hkey]
  have hdeclarations : (e.insertAll f.rows).2.declarations =
      Declaration.effective f.declarations := by
    refine (congrArg Layout.declarations hlayout').trans ?_
    simp only [Table.layoutOf]
    split
    · rfl
    · next hmulti =>
      rw [h.declarations_eq_nil hmulti]
      rfl
  refine ⟨congrArg Layout.kind hlayout', ?_⟩
  rw [ofTable, hkeyColumn, hdeclarations, hrecords, hheader', hheader, hnil]
  rfl

/-- The indexes of a table are in range if those of its file are. -/
theorem Sound.inRange (h : f.Sound kind) (ht : ofTable t = f.normal) : t.InRange where
  keyColumn_lt column hcolumn := by
    have hschema : t.schema = f.schema := congrArg TableFile.schema ht
    have hkey : f.keyColumn = some column := (congrArg TableFile.keyColumn ht).symm.trans hcolumn
    have hsound := h.keyColumn
    rw [hkey] at hsound
    rw [hschema]
    split at hsound
    · obtain ⟨column', hlt, heq⟩ := hsound
      rwa [Option.some.inj heq]
    · contradiction
  declarations_lt d hd := by
    have hschema : t.schema = f.schema := congrArg TableFile.schema ht
    have hdeclarations : t.declarations = Declaration.effective f.declarations :=
      congrArg TableFile.declarations ht
    have hmem : d ∈ t.declarations := hd
    rw [hdeclarations] at hmem
    rw [hschema]
    exact h.declarations_lt d (Declaration.mem_effective hmem)

/-- The table that is restored from a file that was read can be written if the schema is carried. -/
theorem Sound.fits (h : f.Sound kind) (ht : f.restore kind shape = .ok t)
    (hcarried : f.schema.Carried) : (ofTable t).Fits t.kind := by
  obtain ⟨-, hfile⟩ := h.ofTable_eq ht
  have hname : t.name = f.name := congrArg TableFile.name hfile
  have hschema : t.schema = f.schema := congrArg TableFile.schema hfile
  have hrecords : t.records = f.rows := congrArg TableFile.rows hfile
  apply fits_of_carried (filled_of_restore ht).coherent
  · rw [hname, hschema, h.name_eq]
  · rw [hschema]
    exact h.check
  · exact h.inRange hfile
  · rw [hrecords, hschema]
    exact h.rows
  · rwa [hschema]

/-- A table and the one that is restored from its file have the same file. -/
theorem exists_restore_ofTable (h : t.storage.Coherent t.schema) (hrange : t.InRange)
    (shape : Shape) :
    ∃ t', (ofTable t).restore t.kind shape = .ok t' ∧ t'.kind = t.kind ∧
      ofTable t' = ofTable t := by
  obtain ⟨t', hrestore, hheader, -, hlayout, hrecords⟩ := exists_restore h hrange shape
  have hkeyColumn : t'.keyColumn? = t.keyColumn? := congrArg Layout.keyColumn hlayout
  have hdeclarations : t'.declarations = t.declarations := congrArg Layout.declarations hlayout
  refine ⟨t', hrestore, congrArg Layout.kind hlayout, ?_⟩
  rw [ofTable, hkeyColumn, hdeclarations, hrecords, hheader]
  rfl

/-- Whatever the text, a file that is read is sound.  If its table can be made and the table's name
does not end with a carriage return, the table is restored, and written as a text that is read as
the normal form of the file; and the table of the normal form is written as the same text again. -/
theorem decode_stable {text : String} (h : decode kind text = .ok f) :
    f.Sound kind ∧ ∀ shape e,
      Table.empty kind f.name f.schema f.keyColumn f.declarations shape = .ok e →
        f.name.toList.getLast? ≠ some '\r' →
          ∃ t text', f.restore kind shape = .ok t ∧ t.kind = kind ∧
            (ofTable t).encode t.kind = .ok text' ∧ decode kind text' = .ok f.normal ∧
              ∀ shape', ∃ t', f.normal.restore kind shape' = .ok t' ∧ t'.kind = kind ∧
                (ofTable t').encode t'.kind = .ok text' := by
  have hsound := sound_of_decode h
  refine ⟨hsound, fun shape e hmake hreturn => ?_⟩
  obtain ⟨t, hrestore⟩ : ∃ t, f.restore kind shape = .ok t :=
    ⟨_, bind_eq_ok_iff.2 ⟨e, hmake, rfl⟩⟩
  obtain ⟨hkind, hfile⟩ := hsound.ofTable_eq hrestore
  rw [hsound.name_eq] at hreturn
  obtain ⟨text', hencode, hdecode⟩ :=
    decode_encode (hsound.fits hrestore (carried_of_getLast?_ne h hreturn))
  have hagain := exists_restore_ofTable (filled_of_restore hrestore).coherent (hsound.inRange hfile)
  rw [hfile, hkind] at hencode hdecode hagain
  refine ⟨t, text', hrestore, hkind, ?_, hdecode, fun shape' => ?_⟩
  · rwa [hfile, hkind]
  · obtain ⟨t', hrestore', hkind', hfile'⟩ := hagain shape'
    refine ⟨t', hrestore', hkind', ?_⟩
    rwa [hfile', hkind']

/-- A text with both ends of lines and none at the last, blanks and signs about numbers, a column's
name that ends with a carriage return, and declarations that do not count. -/
theorem decode_stable_multi :
    let text := "t\r\n +2 \na\x00-7\nb\r\x00+3\n-5\n3\n1\x00 hash\n+0\x00none\r\n01\x00btree \n" ++
      "+007\x00null\r\nnull\x00"
    let s : Schema := ⟨"t", [⟨"a", .int⟩, ⟨"b\r", .varchar 3⟩], none⟩
    let f : TableFile := ⟨"t", s, none, [⟨1, .hash⟩, ⟨0, .none⟩, ⟨1, .tree⟩],
      [[.int 7, .null], [.null, .text ""]]⟩
    decode .multi text = .ok f ∧ f.name.toList.getLast? ≠ some '\r' ∧
      ∃ t text', f.restore .multi .standard = .ok t ∧ (ofTable t).encode t.kind = .ok text' ∧
        decode .multi text' = .ok { f with declarations := [⟨1, .hash⟩] } := by
  intro text s f
  have hdecode : decode .multi text = .ok f := by decide +kernel
  have hname : f.name.toList.getLast? ≠ some '\r' := by decide
  obtain ⟨e, hmake⟩ : ∃ e, Table.empty .multi f.name f.schema f.keyColumn f.declarations .standard =
      .ok e := ⟨_, rfl⟩
  obtain ⟨t, text', hrestore, -, hencode, hagain, -⟩ :=
    (decode_stable hdecode).2 .standard e hmake hname
  exact ⟨hdecode, hname, t, text', hrestore, hencode, hagain⟩

end TableFile

end RelStore
