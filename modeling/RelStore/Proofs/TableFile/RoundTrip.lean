import RelStore.Proofs.Row
import RelStore.Proofs.Schema
import RelStore.Proofs.TableFile.Reader
import RelStore.Proofs.Text.Decimal
import RelStore.Proofs.Text.Lines
import RelStore.Proofs.Text.Upper
import RelStore.TableFile.Encode

/-!
# Table files read back

`TableFile.decode_encode` is the main result: the text of a file that fits its kind reads as that
file.  `TableFile.Fits` lists what is asked of the file.  A text has to carry its schema
(`Schema.Carried`), its schema and its rows have to pass their checks, and what it says of indexes
has to be what tables of the kind have.  A schema without control characters is carried if its
numbers are signed machine integers (`Schema.Storable`).

Each line of a file is the image of a part of it (`columnLine`, `primaryKeyLine`, `declarationLine`,
`rowLine`), and for each there is a lemma that the line reads as the part.
-/

namespace RelStore

open LineReader

/-! ### Headers -/

/-- Whether a table file carries the schema.  The table's name ends its line, and so does not end
with a carriage return; a column's name may. -/
structure Schema.Carried (s : Schema) : Prop where
  table : Text.IsKept s.table
  name : ∀ c ∈ s.columns, '\n' ∉ c.name.toList ∧ TableFile.separator ∉ c.name.toList
  limit : ∀ c ∈ s.columns, ∀ limit ∈ c.type.limit?, limit ≤ Text.greatestSigned
  width : s.width ≤ Text.greatestSigned

/-- Whether the schema is without control characters.  The bounds and the number of columns have to
be signed machine integers, and no list that a machine holds is longer. -/
structure Schema.Storable (s : Schema) : Prop where
  table : Text.IsLine s.table
  name : ∀ c ∈ s.columns, Text.IsLine c.name ∧ TableFile.separator ∉ c.name.toList
  limit : ∀ c ∈ s.columns, ∀ limit ∈ c.type.limit?, limit ≤ Text.greatestSigned
  width : s.width ≤ Text.greatestSigned

theorem Schema.Storable.carried {s : Schema} (h : s.Storable) : s.Carried where
  table := h.table.isKept
  name c hc := ⟨(h.name c hc).1.1, (h.name c hc).2⟩
  limit := h.limit
  width := h.width

namespace TableFile

/-- Whether a file is one of a table of the kind, and can be written. -/
structure Fits (f : TableFile) (kind : TableKind) : Prop where
  carried : f.schema.Carried
  check : f.schema.check = .ok ()
  name_eq : f.name = f.schema.table
  rows : ∀ row ∈ f.rows, row.check f.schema = .ok ()
  keyColumn : if kind.hasSingleKey then ∃ c, f.keyColumn = some c ∧ c < f.schema.width
    else f.keyColumn = none
  declarations : if kind = .multi then
      f.declarations.length ≤ Text.greatestSigned ∧ ∀ d ∈ f.declarations, d.column < f.schema.width
    else f.declarations = []

/-! ### Numbers -/

theorem isLine_of_isNumeral {s : String} (h : ∀ c ∈ s.toList, Text.IsNumeral c) :
    Text.IsLine s ∧ separator ∉ s.toList := by
  have hnot : ∀ c : Char, ¬ Text.IsNumeral c → c ∉ s.toList := fun c hc hmem => hc (h c hmem)
  have hrange : ∀ c : Char, Text.IsNumeral c → 45 ≤ c.toNat := fun c hc => hc.toNat_range.1
  refine ⟨⟨hnot _ fun hc => ?_, hnot _ fun hc => ?_⟩, hnot _ fun hc => ?_⟩
  · exact absurd (hrange _ hc) (by decide)
  · exact absurd (hrange _ hc) (by decide)
  · exact absurd (hrange _ hc) (by decide)

theorem isLine_toString_int (i : Int) :
    Text.IsLine (toString i) ∧ separator ∉ (toString i).toList :=
  isLine_of_isNumeral Text.isNumeral_of_mem_toString

theorem toString_nat (n : Nat) : toString n = toString (n : Int) := by
  rw [Nat.toString_eq_repr, Int.toString_eq_repr, Int.repr_eq_if, if_pos (Int.natCast_nonneg n),
    Int.toNat_natCast]

theorem readInt_toString {what : String} {i : Int} (hlow : -(Text.greatestSigned : Int) ≤ i + 1)
    (hhigh : i ≤ Text.greatestSigned) : readInt what (toString i) = .ok i := by
  have hread : Text.signed64 (toString i) = .ok (Int64.ofInt i) := by
    rw [Text.signed64, Text.signedChars_toString hlow hhigh]
    rfl
  rw [readInt, Text.trim_toString, hread]
  have hgreatest : Text.greatestSigned = 9223372036854775807 := rfl
  exact congrArg Except.ok (Int64.toInt_ofInt_of_le (by omega) (by omega))

theorem readInt_toString_nat (what : String) (n : Nat) :
    readInt what (toString n) =
      if n ≤ Text.greatestSigned then .ok (n : Int)
      else .error (.badInteger what (toString n)) := by
  split
  · rw [toString_nat]
    exact readInt_toString (by omega) (by omega)
  · next hnot =>
    have htrim : Text.trim (toString n) = toString n := by
      rw [toString_nat]
      exact Text.trim_toString n
    rw [readInt, htrim, Text.signed64, Nat.toString_eq_repr, Text.signedChars_repr, if_neg hnot]
    rfl

theorem toColumn_natCast {what : String} {width n : Nat} (h : n < width) :
    toColumn what width (n : Int) = .ok n := by
  rw [toColumn, if_pos (by omega), Int.toNat_natCast]

/-! ### Lines of the schema -/

theorem readWidth_toString {n : Nat} (hpos : 0 < n) (h : n ≤ Text.greatestSigned) :
    readWidth (toString n) = .ok n := by
  have hnot : ¬ (n : Int) ≤ 0 := by omega
  simp only [readWidth, readInt_toString_nat, if_pos h, bind, Except.bind]
  rw [if_neg hnot, Int.toNat_natCast]

/-- The code of a type whose bound is a signed machine integer denotes the type. -/
theorem ofCode_code {type : DataType} (h : ∀ limit ∈ type.limit?, limit ≤ Text.greatestSigned) :
    DataType.ofCode type.code = type := by
  cases type with
  | int => decide
  | varchar limit =>
    have hlimit := h limit.toNat rfl
    have hcode : limit.toInt64.toInt = (limit.toNat : Int) := by
      have hofNat : limit.toInt64 = Int64.ofNat limit.toNat := by
        rw [← UInt64.toInt64_ofNat', UInt64.ofNat_toNat]
      have hgreatest : Text.greatestSigned = 9223372036854775807 := rfl
      rw [hofNat, Int64.toInt_ofNat_of_lt (by omega)]
    have hnot : ¬ limit.toInt64 < 0 := by
      rw [Int64.lt_iff_toInt_lt, hcode, Int64.toInt_zero]
      omega
    rw [DataType.code, DataType.ofCode, if_neg hnot, UInt64.toUInt64_toInt64]

theorem readColumn_columnLine {c : Column} (hname : separator ∉ c.name.toList)
    (hlimit : ∀ limit ∈ c.type.limit?, limit ≤ Text.greatestSigned) :
    readColumn (columnLine c) = .ok c := by
  rw [readColumn, columnLine, Text.cutFirst?_joined hname]
  simp only [Text.signed64_toString, ofCode_code hlimit]

theorem readPrimaryKey_primaryKeyLine {width : Nat} {key : Option Nat}
    (h : ∀ k ∈ key, k < width) (hwidth : width ≤ Text.greatestSigned) :
    readPrimaryKey width (primaryKeyLine key) = .ok key := by
  cases key with
  | none =>
    have hminus : "-1" = toString (-1 : Int) := by decide
    have hread : readInt "primary key" (toString (-1 : Int)) = .ok (-1) :=
      readInt_toString (by omega) (by omega)
    rw [primaryKeyLine, hminus, readPrimaryKey, hread]
    rfl
  | some k =>
    have hk := h k rfl
    have hgreatest : Text.greatestSigned = 9223372036854775807 := rfl
    have hint : (Int64.ofNat k).toInt = (k : Int) := Int64.toInt_ofNat_of_lt (by omega)
    have hnot : ¬ (k : Int) < 0 := by omega
    rw [primaryKeyLine, hint, readPrimaryKey, readInt_toString (by omega) (by omega)]
    simp only [bind, Except.bind]
    rw [if_neg hnot, toColumn_natCast hk]
    rfl

/-- The lines that tell the schema. -/
def schemaLines (s : Schema) : List String :=
  [s.table] ++ ([toString s.width] ++ (s.columns.map columnLine ++ [primaryKeyLine s.primaryKey]))

theorem takes_schema {s : Schema} (h : s.Carried) (hcheck : s.check = .ok ()) :
    Takes takeSchema (schemaLines s) s := by
  obtain ⟨hpos, -, hkey⟩ := Schema.check_eq_ok_iff.1 hcheck
  have hcolumns : Takes (LineReader.times (.line "attribute" readColumn) s.columns.length)
      (s.columns.map columnLine) s.columns :=
    takes_times fun c hc => takes_line (readColumn_columnLine (h.name c hc).2 (h.limit c hc))
  have hlast : Takes (do
      (liftM s.check : LineReader Unit)
      return s) [] s := .seq hcheck (takes_pure s)
  have htable : Takes (.line "table name" .ok) [s.table] s.table := takes_line rfl
  have hwidth : Takes (.line "attribute count" readWidth) [toString s.width] s.width :=
    takes_line (readWidth_toString hpos h.width)
  have hprimaryKey : Takes (.line "primary key" (readPrimaryKey s.width))
      [primaryKeyLine s.primaryKey] s.primaryKey :=
    takes_line (readPrimaryKey_primaryKeyLine hkey h.width)
  have hrest := hprimaryKey.bind (k := fun primaryKey => do
    let s : Schema := { s with primaryKey }
    (liftM s.check : LineReader Unit)
    return s) hlast
  rw [List.append_nil] at hrest
  exact htable.bind (hwidth.bind (hcolumns.bind hrest))

/-! ### Lines of the indexes -/

theorem separator_not_mem_toString (n : Nat) : separator ∉ (toString n).toList := by
  rw [toString_nat]
  exact (isLine_toString_int n).2

theorem parse_toString (index : IndexType) : IndexType.parse (toString index) = .ok index := by
  have htrim : Text.trim (toString index) = toString index := by
    cases index <;> decide
  have hupper : Text.upper (toString index) = toString index := by
    have hall : (toString index).toList.all fun c => c.toNat < 0x61 := by
      cases index <;> decide
    apply Text.upper_eq_self
    simpa only [List.all_eq_true, decide_eq_true_eq] using hall
  rw [IndexType.parse, htrim, hupper]
  cases index <;> rfl

theorem takes_declaration {width : Nat} {d : Declaration} (h : d.column < width)
    (hwidth : width ≤ Text.greatestSigned) :
    Takes (takeDeclaration width) [declarationLine d] d := by
  have hgreatest : Text.greatestSigned ≤ Text.greatestUnsigned := by decide
  have hread : readDeclaration width (declarationLine d) = .ok (d.column, toString d.index) := by
    rw [readDeclaration, declarationLine, Text.cutFirst?_joined (separator_not_mem_toString _)]
    simp only [Text.unsigned64_toString, if_pos (by omega : d.column ≤ Text.greatestUnsigned)]
    rw [if_pos h]
  have hindex : Takes (do
      let index ← (liftM (IndexType.parse (toString d.index)) : LineReader IndexType)
      return ({ column := d.column, index } : Declaration)) [] d :=
    .seq (parse_toString d.index) (takes_pure d)
  exact (takes_line hread).bind hindex

theorem takes_keyColumn {width column : Nat} (h : column < width)
    (hwidth : width ≤ Text.greatestSigned) :
    Takes (.line "key column" (readKeyColumn width)) [toString column] column := by
  have hread : readKeyColumn width (toString column) = .ok column := by
    have hint : readInt "key column" (toString column) = .ok (column : Int) := by
      rw [readInt_toString_nat, if_pos (by omega)]
    simp only [readKeyColumn, hint, bind, Except.bind]
    exact toColumn_natCast h
  exact takes_line hread

theorem takes_indexes {f : TableFile} {kind : TableKind} (h : f.Fits kind) :
    Takes (takeIndexes kind f.schema.width) (f.indexLines kind) (f.keyColumn, f.declarations) := by
  have hwidth := h.carried.width
  have hkey := h.keyColumn
  have hdeclarations := h.declarations
  have hsingle : kind.hasSingleKey = true → f.declarations = [] → Takes (do
      return (some (← .line "key column" (readKeyColumn f.schema.width)), []))
      [toString (f.keyColumn.getD 0)] (f.keyColumn, f.declarations) := by
    intro hkind hnil
    rw [if_pos hkind] at hkey
    obtain ⟨column, hcolumn, hlt⟩ := hkey
    rw [hcolumn, hnil]
    exact (takes_keyColumn hlt hwidth).bind (takes_pure (some column, []))
  cases kind with
  | hash => exact hsingle rfl hdeclarations
  | tree => exact hsingle rfl hdeclarations
  | set =>
    have hnone : f.keyColumn = none := hkey
    have hnil : f.declarations = [] := hdeclarations
    rw [hnone, hnil]
    exact takes_pure (none, [])
  | list =>
    have hnone : f.keyColumn = none := hkey
    have hnil : f.declarations = [] := hdeclarations
    rw [hnone, hnil]
    exact takes_pure (none, [])
  | multi =>
    have hnone : f.keyColumn = none := hkey
    obtain ⟨hlength, hcolumns⟩ := hdeclarations
    have hcount : Takes (.line "declaration count" (readInt "declaration count"))
        [toString f.declarations.length] (f.declarations.length : Int) :=
      takes_line (by rw [readInt_toString_nat, if_pos hlength])
    have hall : Takes (LineReader.times (takeDeclaration f.schema.width) f.declarations.length)
        (f.declarations.map declarationLine) f.declarations :=
      takes_times fun d hd => takes_declaration (hcolumns d hd) hwidth
    have hrest : Takes (do
        return (none, ← LineReader.times (takeDeclaration f.schema.width) f.declarations.length))
        (f.declarations.map declarationLine ++ []) ((none : Option Nat), f.declarations) :=
      hall.bind (takes_pure (none, f.declarations))
    rw [List.append_nil] at hrest
    rw [hnone]
    exact hcount.bind hrest

/-! ### Rows -/

section Fields

variable {v : Value} {c : Column} (h : Row.checkField v c = .ok ())

include h

theorem storable_of_checkField {s : String} (hv : v = .text s) : Value.Storable s :=
  ((Row.checkField_eq_ok_iff.1 h).2 s hv).2

theorem isLine_field : Text.IsLine v.field ∧ separator ∉ v.field.toList := by
  cases v with
  | null => exact ⟨⟨by decide, by decide⟩, by decide⟩
  | int n => exact isLine_toString_int n.toInt
  | text s =>
    obtain ⟨hseparator, hline, hreturn, -⟩ := storable_of_checkField h rfl
    exact ⟨⟨hline, hreturn⟩, hseparator⟩

theorem fieldOf_eq : fieldOf v c = .ok v.field := by
  cases v with
  | null => rfl
  | int n => rfl
  | text s =>
    obtain ⟨hseparator, hline, hreturn, hnull⟩ := storable_of_checkField h rfl
    have hany : (s.toList.any fun ch => ch == separator || ch == '\n' || ch == '\r') = false := by
      rw [List.any_eq_false]
      rintro ch hch
      simp only [Bool.or_eq_true, beq_iff_eq]
      rintro ((rfl | rfl) | rfl)
      · exact hseparator hch
      · exact hline hch
      · exact hreturn hch
    simp [fieldOf, hany, hnull, Value.field, pure, Except.pure]

/-- A field is read back by its column: no numeral is taken for an absent value. -/
theorem readField_field : c.type.readField v.field = .ok v := by
  have haccepts := (Row.checkField_eq_ok_iff.1 h).1
  cases v with
  | null => rfl
  | int n =>
    have hnull : toString n.toInt ≠ Value.nullField := by
      intro hnull
      have hmem : 'n' ∈ (toString n.toInt).toList := by
        rw [hnull]
        decide
      have hnumeral := (Text.isNumeral_of_mem_toString 'n' hmem).toNat_range
      exact absurd hnumeral (by decide)
    cases htype : c.type with
    | int =>
      rw [Value.field, DataType.readField, if_neg hnull]
      simp only [Text.signed64_toString]
      rfl
    | varchar limit =>
      rw [htype] at haccepts
      contradiction
  | text s =>
    obtain ⟨-, -, -, hnull⟩ := storable_of_checkField h rfl
    cases htype : c.type with
    | int =>
      rw [htype] at haccepts
      contradiction
    | varchar limit =>
      rw [Value.field, DataType.readField, if_neg hnull]

end Fields

/-- The line that a row is written as. -/
def rowText (row : Row) : String :=
  Text.joined separator (row.map Value.field)

section Rows

variable {s : Schema} {row : Row} (h : row.check s = .ok ())

include h

theorem forall_field {p : String → Prop}
    (hp : ∀ v c, Row.checkField v c = .ok () → p v.field) :
    ∀ field ∈ row.map Value.field, p field := by
  obtain ⟨hlength, hfields⟩ := Row.check_eq_ok_iff.1 h
  intro field hfield
  obtain ⟨v, hv, rfl⟩ := List.mem_map.1 hfield
  have hfst : (row.zip s.columns).map Prod.fst = row := List.map_fst_zip (Nat.le_of_eq hlength)
  rw [← hfst] at hv
  obtain ⟨⟨v, c⟩, hmem, rfl⟩ := List.mem_map.1 hv
  exact hp v c (hfields _ hmem)

theorem isLine_rowText : Text.IsLine (rowText row) :=
  Text.isLine_joined (by decide) (by decide)
    (forall_field h fun _ _ hfield => (isLine_field hfield).1)

theorem rowLine_eq : rowLine s row = .ok (rowText row) := by
  obtain ⟨hlength, hfields⟩ := Row.check_eq_ok_iff.1 h
  have hmap : (row.zip s.columns).mapM (fun p => fieldOf p.1 p.2) =
      pure ((row.zip s.columns).map fun p => p.1.field) :=
    mapM_eq_pure fun p hp => fieldOf_eq (hfields p hp)
  have hzip : (row.zip s.columns).map Prod.fst = row := List.map_fst_zip (Nat.le_of_eq hlength)
  have hfst : (row.zip s.columns).map (fun p => p.1.field) = row.map Value.field :=
    calc (row.zip s.columns).map (fun p => p.1.field)
        = ((row.zip s.columns).map Prod.fst).map Value.field := by
          rw [List.map_map]
          rfl
      _ = row.map Value.field := by rw [hzip]
  rw [hfst] at hmap
  exact congrArg (fun fields => fields >>= fun fields => pure (Text.joined separator fields)) hmap

/-- A row is read back. -/
theorem readRow_rowText (hpos : 0 < s.width) : readRow s (rowText row) = .ok row := by
  obtain ⟨hlength, hfields⟩ := Row.check_eq_ok_iff.1 h
  have hne : row.map Value.field ≠ [] := by
    rw [← List.length_pos_iff, List.length_map, hlength]
    exact hpos
  have hpieces : Text.pieces separator (rowText row) = row.map Value.field :=
    Text.pieces_joined (forall_field h fun _ _ hfield => (isLine_field hfield).2) hne
  have hwide : (row.map Value.field).length = s.width := by
    rw [List.length_map, hlength]
  let read : String × Column → Except LineFault Value := fun p =>
    (p.2.type.readField p.1).mapError (.badField p.2.name)
  have hread : ∀ p ∈ row.zip s.columns, (read ∘ Prod.map Value.field id) p = pure p.1 := by
    intro p hp
    simp only [Function.comp_apply, Prod.map, read, id, readField_field (hfields p hp)]
    rfl
  have hvalues : ((row.map Value.field).zip s.columns).mapM read = pure row := by
    rw [List.zip_map_left, List.mapM_map, mapM_eq_pure hread,
      List.map_fst_zip (Nat.le_of_eq hlength)]
  simp only [readRow, hpieces]
  rw [if_neg fun hne => hne hwide]
  have hcheck : ((row.check s).mapError fun e => LineFault.unfitRow e.message) = .ok () := by
    rw [h]
    rfl
  refine (congrArg (fun values => values >>= fun row : Row => do
    (row.check s).mapError fun e => LineFault.unfitRow e.message
    return row) hvalues).trans ?_
  exact congrArg (fun checked => checked >>= fun _ => pure row) hcheck

end Rows

/-! ### Whole files -/

theorem headerLines_eq (f : TableFile) (kind : TableKind) (h : f.name = f.schema.table) :
    f.headerLines kind = schemaLines f.schema ++ f.indexLines kind := by
  simp [headerLines, schemaLines, h]

theorem isLine_pair {a b : String} (ha : Text.IsLine a) (hb : Text.IsLine b) :
    Text.IsLine (Text.joined separator [a, b]) :=
  Text.isLine_joined (by decide) (by decide) (by simp [ha, hb])

/-- The code at the end of a column's line keeps a carriage return in the name from ending it. -/
theorem isKept_columnLine {c : Column} (h : '\n' ∉ c.name.toList) : Text.IsKept (columnLine c) := by
  obtain ⟨⟨hline, hreturn⟩, -⟩ := isLine_toString_int c.type.code.toInt
  refine ⟨fun hmem => ?_, fun hlast => ?_⟩
  · rcases Text.mem_joined hmem with heq | ⟨s, hs, hmem⟩
    · exact absurd heq (by decide)
    · rcases List.mem_cons.1 hs with rfl | hs
      · exact h hmem
      · exact hline (List.mem_singleton.1 hs ▸ hmem)
  · have hchars : (columnLine c).toList =
        c.name.toList ++ separator :: (toString c.type.code.toInt).toList := by
      rw [columnLine, Text.toList_joined]
      simp [List.intercalate]
    rw [hchars, List.getLast?_append, List.getLast?_cons, Option.some_or, ← List.getLast?_cons]
      at hlast
    rcases List.mem_cons.1 (List.mem_of_getLast? hlast) with heq | hmem
    · exact absurd heq (by decide)
    · exact hreturn hmem

theorem isKept_schemaLines {s : Schema} (h : s.Carried) : ∀ l ∈ schemaLines s, Text.IsKept l := by
  have hkey : Text.IsLine (primaryKeyLine s.primaryKey) := by
    cases s.primaryKey with
    | none => exact ⟨by decide, by decide⟩
    | some key => exact (isLine_toString_int _).1
  intro l hl
  simp only [schemaLines, List.mem_append, List.mem_singleton, List.mem_map] at hl
  rcases hl with rfl | rfl | ⟨c, hc, rfl⟩ | rfl
  · exact h.table
  · rw [toString_nat]
    exact (isLine_toString_int _).1.isKept
  · exact isKept_columnLine (h.name c hc).1
  · exact hkey.isKept

theorem isLine_toString_index (index : IndexType) : Text.IsLine (toString index) := by
  cases index <;> exact ⟨by decide, by decide⟩

theorem isLine_indexLines (f : TableFile) (kind : TableKind) :
    ∀ l ∈ f.indexLines kind, Text.IsLine l := by
  have hnat : ∀ n : Nat, Text.IsLine (toString n) := by
    intro n
    rw [toString_nat]
    exact (isLine_toString_int _).1
  have hdeclaration : ∀ d, Text.IsLine (declarationLine d) := by
    intro d
    exact isLine_pair (hnat d.column) (isLine_toString_index d.index)
  intro l hl
  cases kind <;>
    simp only [indexLines, List.mem_cons, List.mem_map, List.not_mem_nil, or_false] at hl
  case hash => exact hl ▸ hnat _
  case tree => exact hl ▸ hnat _
  case multi =>
    rcases hl with rfl | ⟨d, -, rfl⟩
    · exact hnat _
    · exact hdeclaration d

/-- A file whose rows pass their check can be written. -/
theorem encode_eq {f : TableFile} (hname : f.name = f.schema.table)
    (hrows : ∀ row ∈ f.rows, row.check f.schema = .ok ()) (kind : TableKind) :
    f.encode kind = .ok (Text.unlines
      (schemaLines f.schema ++ (f.indexLines kind ++ f.rows.map rowText))) := by
  have hlines : f.rows.mapM (rowLine f.schema) = pure (f.rows.map rowText) :=
    mapM_eq_pure fun row hrow => rowLine_eq (hrows row hrow)
  simp only [encode, hlines, headerLines_eq f kind hname, List.append_assoc]
  rfl

/-- All lines are kept if those of the schema are. -/
theorem lines_unlines_of_carried {f : TableFile} (h : f.schema.Carried)
    (hrows : ∀ row ∈ f.rows, row.check f.schema = .ok ()) (kind : TableKind) :
    Text.lines (Text.unlines (schemaLines f.schema ++ (f.indexLines kind ++ f.rows.map rowText))) =
      schemaLines f.schema ++ (f.indexLines kind ++ f.rows.map rowText) := by
  refine Text.lines_unlines fun l hl => ?_
  rcases List.mem_append.1 hl with hl | hl
  · exact isKept_schemaLines h l hl
  rcases List.mem_append.1 hl with hl | hl
  · exact (isLine_indexLines f kind l hl).isKept
  · obtain ⟨row, hrow, rfl⟩ := List.mem_map.1 hl
    exact (isLine_rowText (hrows row hrow)).isKept

/-- The text of a file that fits its kind is read as the file. -/
theorem decode_encode {f : TableFile} {kind : TableKind} (h : f.Fits kind) :
    ∃ text, f.encode kind = .ok text ∧ decode kind text = .ok f := by
  have hpos := (Schema.check_eq_ok_iff.1 h.check).1
  refine ⟨_, encode_eq h.name_eq h.rows kind, ?_⟩
  have hschema := takes_schema h.carried h.check (f.indexLines kind ++ f.rows.map rowText) 0
  have hindexes := takes_indexes h (f.rows.map rowText) (0 + (schemaLines f.schema).length)
  have hrows := rest_eq (fun row hrow => readRow_rowText (h.rows row hrow) hpos)
    (0 + (schemaLines f.schema).length + (f.indexLines kind).length)
  rw [decode, lines_unlines_of_carried h.carried h.rows, StateT.run']
  simp only [take, bind, StateT.bind, Except.bind, hschema, hindexes, hrows]
  rw [← h.name_eq]
  rfl

end TableFile

end RelStore
