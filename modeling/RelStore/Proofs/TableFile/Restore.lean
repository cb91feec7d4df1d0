import Mathlib.Data.List.Perm.Subperm
import RelStore.Proofs.Table.Alike
import RelStore.Proofs.TableFile.RoundTrip

/-!
# Tables restored from their files

`TableFile.restore_decode_encode` is the main result: the file of a table can be written, and the
text is read as a file that is restored as a table with the same rows and the same answers.

A coherent storage is laid out as a table that is made from its kind, key column and declarations
(`Storage.Coherent.layout_eq`), and two coherent storages with the same layout and the same rows
give the same answers (`Storage.Coherent.sameAnswers`).
-/

namespace RelStore

namespace MultiKeyed

variable {s : Schema} {m : MultiKeyed}

theorem Coherent.nodup_declarations (h : m.Coherent s) :
    (m.declarations.map (·.column)).Nodup := by
  have hcolumns : m.declarations.map (·.column) = m.parts.map (·.column) := by
    rw [declarations, List.map_map]
    rfl
  rw [hcolumns]
  exact h.nodup_columns

theorem Coherent.effective_declarations (h : m.Coherent s) :
    Declaration.effective m.declarations = m.declarations := by
  refine Declaration.effective_eq_self (fun d hd => ?_) h.nodup_declarations
  obtain ⟨k, -, rfl⟩ := List.mem_map.1 hd
  cases hindex : k.index <;> simp [KeyIndex.type]

theorem declarations_ne_nil (m : MultiKeyed) : m.declarations ≠ [] :=
  List.cons_ne_nil _ _

end MultiKeyed

namespace Storage

variable {s : Schema} {st : Storage}

/-- A storage is laid out as a table that is made from what its file says of it. -/
theorem Coherent.layout_eq (h : st.Coherent s) :
    st.layout = Table.layoutOf st.kind s st.keyColumn? st.declarations := by
  cases st with
  | set d => rfl
  | keyed k =>
    cases hindex : k.index <;>
      simp [layout, Table.layoutOf, kind, hindex, keyColumn?, declarations, TableKind.hasSingleKey]
  | multi m =>
    have heffective := MultiKeyed.Coherent.effective_declarations h
    simp [layout, Table.layoutOf, kind, keyColumn?, declarations, TableKind.hasSingleKey,
      heffective]
  | list rows => rfl

/-- Only a table with several indexes declares them. -/
theorem Coherent.declarations_eq_nil (h : st.Coherent s) (hkind : st.kind ≠ .multi) :
    st.declarations = [] := by
  have hlayout : st.declarations = _ := congrArg Layout.declarations h.layout_eq
  rw [hlayout]
  exact if_neg hkind

/-- Declarations on columns of the schema are no more than the columns. -/
theorem Coherent.length_declarations_le (h : st.Coherent s) (hrange : st.layout.InRange s) :
    st.declarations.length ≤ s.width := by
  cases st with
  | multi m =>
    have hnodup := MultiKeyed.Coherent.nodup_declarations h
    have hsubset : m.declarations.map (·.column) ⊆ List.range s.width := by
      intro column hcolumn
      obtain ⟨d, hd, rfl⟩ := List.mem_map.1 hcolumn
      exact List.mem_range.2 (hrange.declarations_lt d hd)
    have hle := (List.subperm_of_subset hnodup hsubset).length_le
    rwa [List.length_map, List.length_range] at hle
  | _ => exact Nat.zero_le _

end Storage

namespace TableFile

variable {t : Table}

/-- The file of a coherent table fits the table's kind. -/
theorem fits_of_carried (h : t.storage.Coherent t.schema) (hname : t.name = t.schema.table)
    (hcheck : t.schema.check = .ok ()) (hrange : t.InRange)
    (hfit : ∀ row ∈ t.records, row.check t.schema = .ok ()) (hcarried : t.schema.Carried) :
    (ofTable t).Fits t.kind where
  carried := hcarried
  check := hcheck
  name_eq := hname
  rows := hfit
  keyColumn := by
    have hkind := t.storage.hasSingleKey_iff
    split
    · next hsingle =>
      have hsome : t.storage.keyColumn?.isSome := by rw [← hkind]; exact hsingle
      obtain ⟨column, hcolumn⟩ := Option.isSome_iff_exists.1 hsome
      exact ⟨column, hcolumn, hrange.keyColumn_lt column hcolumn⟩
    · next hsingle =>
      have hnone : ¬ t.storage.keyColumn?.isSome := by rw [← hkind]; exact hsingle
      exact Option.not_isSome_iff_eq_none.1 hnone
  declarations := by
    have hle : t.declarations.length ≤ t.schema.width := h.length_declarations_le hrange
    have hwidth := hcarried.width
    split
    · exact ⟨Nat.le_trans hle hwidth, hrange.declarations_lt⟩
    · next hmulti => exact h.declarations_eq_nil hmulti

theorem fits_ofTable (h : t.storage.Coherent t.schema) (hname : t.name = t.schema.table)
    (hcheck : t.schema.check = .ok ()) (hrange : t.InRange)
    (hfit : ∀ row ∈ t.records, row.check t.schema = .ok ()) (hstorable : t.schema.Storable) :
    (ofTable t).Fits t.kind :=
  fits_of_carried h hname hcheck hrange hfit hstorable.carried

/-- A file of a coherent table can be restored, whatever the shape of the trees. -/
theorem exists_restore (h : t.storage.Coherent t.schema) (hrange : t.InRange) (shape : Shape) :
    ∃ t', (ofTable t).restore t.kind shape = .ok t' ∧
      t'.toHeader = Header.base t.name t.schema ∧ t'.storage.Coherent t.schema ∧
      t'.layout = t.layout ∧ t'.records = t.records := by
  have hlayout : t.layout = Table.layoutOf t.kind t.schema t.keyColumn? t.declarations :=
    h.layout_eq
  have hmulti : t.kind = .multi → Declaration.effective t.declarations ≠ [] ∧
      Declaration.outOfRange? t.schema.width t.declarations = none := by
    intro hkind
    have heffective : t.declarations = Declaration.effective t.declarations := by
      have hdeclarations : t.declarations = _ := congrArg Layout.declarations hlayout
      have hall : (Table.layoutOf t.kind t.schema t.keyColumn? t.declarations).declarations =
          Declaration.effective t.declarations := if_pos hkind
      exact hdeclarations.trans hall
    have hne : t.declarations ≠ [] := by
      have hst : t.storage.kind = .multi := hkind
      rw [Table.declarations]
      cases hstorage : t.storage with
      | multi m => exact m.declarations_ne_nil
      | keyed k => cases hindex : k.index <;> simp [hstorage, Storage.kind, hindex] at hst
      | _ => simp [hstorage, Storage.kind] at hst
    refine ⟨heffective ▸ hne, List.find?_eq_none.2 fun d hd hle => ?_⟩
    have hlt := hrange.declarations_lt d hd
    simp only [decide_eq_true_eq] at hle
    omega
  obtain ⟨e, hmake⟩ := Table.exists_empty t.kind t.name t.schema t.keyColumn? shape hmulti
  obtain ⟨hheader, hcoherent, hnil, hlayout'⟩ := Table.isEmpty_of_empty hmake
  have halias : e.isAlias = false := by rw [hheader, Header.base]
  have hschema : e.schema = t.schema := by rw [hheader, Header.base]
  have hext := e.storage.extends_insertAll t.schema t.records
  refine ⟨{ e with storage := e.storage.insertAll t.schema t.records }, ?_, hheader,
    hcoherent.insertAll t.records, ?_, ?_⟩
  · have hinsert : (e.insertAll t.records).2 =
        { e with storage := e.storage.insertAll t.schema t.records } := by
      rw [Table.insertAll_eq, halias, hschema]
      rfl
    simp only [restore, ofTable, hmake, bind, Except.bind, hinsert, pure, Except.pure]
  · exact (hext.layout_eq.trans hlayout').trans hlayout.symm
  · have hrecords := hext.records_eq
    rw [show e.storage.records = [] from hnil, List.nil_append] at hrecords
    exact hrecords

/-- Writing a table and restoring it loses nothing: neither its header nor its rows change, nor does
any answer, whatever the shape of the trees. -/
theorem restore_decode_encode (ht : t.Filled fun _ _ => True) (hname : t.name = t.schema.table)
    (hcheck : t.schema.check = .ok ()) (hrange : t.InRange)
    (hfit : ∀ row ∈ t.records, row.check t.schema = .ok ()) (hstorable : t.schema.Storable) :
    ∃ text f, (ofTable t).encode t.kind = .ok text ∧ decode t.kind text = .ok f ∧
      ∀ shape, ∃ t', f.restore t.kind shape = .ok t' ∧
        t'.toHeader = Header.base t.name t.schema ∧ t'.kind = t.kind ∧
        t'.keyColumn? = t.keyColumn? ∧ t'.declarations = t.declarations ∧
        t'.records = t.records ∧ (∀ row, t'.check row = t.check row) ∧
        (∀ column, t'.sorted column = t.sorted column) ∧
        (∀ column op key, t'.query column op key =
          { t.query column op key with sources := .single t.name }) ∧
        ∀ column range, t'.queryRange column range =
          { t.queryRange column range with sources := .single t.name } := by
  have hcoherent := ht.coherent
  obtain ⟨text, hencode, hdecode⟩ :=
    decode_encode (fits_ofTable hcoherent hname hcheck hrange hfit hstorable)
  refine ⟨text, ofTable t, hencode, hdecode, fun shape => ?_⟩
  obtain ⟨t', hrestore, hheader, hcoherent', hlayout, hrecords⟩ :=
    exists_restore hcoherent hrange shape
  have hanswers := hcoherent'.sameAnswers hcoherent hlayout hrecords
  refine ⟨t', hrestore, hheader, congrArg Layout.kind hlayout, congrArg Layout.keyColumn hlayout,
    congrArg Layout.declarations hlayout, hrecords, fun row => ?_, hanswers.sorted_eq,
    fun column op key => ?_, fun column range => ?_⟩
  · rw [Table.check, hheader]
    exact hanswers.check_eq row
  · rw [Table.query, Table.result, hheader]
    exact congrArg (Relation.mk t.name t.schema (.single t.name))
      (hanswers.query_eq column op key)
  · rw [Table.queryRange, Table.result, hheader]
    exact congrArg (Relation.mk t.name t.schema (.single t.name))
      (hanswers.queryRange_eq column range)

/-- A tree on the only column of a table, with an empty text and an absent value. -/
theorem restore_decode_encode_empty_line :
    let s : Schema := ⟨"t", [⟨"c", .varchar 3⟩], none⟩
    let t : Table := { Header.base "t" s with storage := .keyed (.tree 0 .standard) }
    let t := (t.insertAll [[.text "b"], [.null], [.text ""]]).2
    t.schema.Storable ∧ ∃ text f, (ofTable t).encode t.kind = .ok text ∧
      decode t.kind text = .ok f ∧ ∀ shape, ∃ t', f.restore t.kind shape = .ok t' ∧
        t'.records = [[.text "b"], [.null], [.text ""]] ∧
        t'.sorted 0 = t.sorted 0 := by
  intro s t t'
  have hfilled : t'.Filled fun _ _ => True := by
    refine .insertAll (.empty (?_ : Table.empty .tree "t" s none [] .standard = .ok t)) _ ?_
    · rfl
    · exact fun _ _ => trivial
  have hstorable : t'.schema.Storable := ⟨by decide, by decide, by decide, by decide⟩
  obtain ⟨text, f, hencode, hdecode, hrestore⟩ := restore_decode_encode hfilled rfl rfl
    ⟨by decide, by decide⟩ (by decide) hstorable
  refine ⟨hstorable, text, f, hencode, hdecode, fun shape => ?_⟩
  obtain ⟨t'', h, -, -, -, -, hrecords, -, hsorted, -⟩ := hrestore shape
  exact ⟨t'', h, hrecords, hsorted 0⟩

end TableFile

end RelStore
