import RelStore.Proofs.Database.Reachable
import RelStore.Proofs.Query.Evaluate
import RelStore.Proofs.Query.Selection

/-!
# Selections from a database

In a database whose column names hold no point, a selection that succeeds gives the meaning of its
condition list over the tables that it reads (`Database.Reachable.select_eq_meaning`): the tables of
the scope are readable, their evaluation denotes the formula that the list stands for, and the
projection takes the chosen columns of it.
-/

namespace RelStore

/-- No column name holds a point. -/
def Schema.Plain (s : Schema) : Prop :=
  ∀ c ∈ s.columns, '.' ∉ c.name.toList

theorem Table.Sound.readable_aliased {t : Table} (h : t.Sound Schema.Plain) (name : String) :
    (t.aliased name).Readable where
  table_eq := rfl
  plain := h.schema
  nodup := (Schema.check_eq_ok_iff.1 h.check_eq).2.1
  filled := h.filled.aliased name
  inRange := ⟨h.inRange.keyColumn_lt, h.inRange.declarations_lt⟩
  sources_eq := rfl

theorem Scope.add_eq_ok {s s' : Scope} {t : Table} (h : s.add t = .ok s') :
    s'.tables = s.tables ++ [t] := by
  unfold add at h
  split at h
  · contradiction
  · cases h
    rfl

namespace Database

variable {db : Database} {entries : List FromEntry} {conditions : List Condition}
  {targets : List Target} {answer : Selection}

/-- The scope of a selection holds the tables that are read, in the order of the entries. -/
theorem scope_eq_ok {s : Scope} (h : db.scope entries = .ok s) :
    db.visibleTables entries = .ok s.tables := by
  refine foldlM_induction (motive := fun done s => db.visibleTables done = .ok s.tables) rfl ?_ h
  intro done e rest s s' _ hdone hstep
  obtain ⟨t, ht, hadd⟩ := bind_eq_ok_iff.1 hstep
  rw [visibleTables] at hdone ⊢
  rw [List.mapM_append, hdone, Scope.add_eq_ok hadd]
  simp [ht, bind, Except.bind, pure, Except.pure]

theorem Reachable.readable {tables : List Table} (hdb : db.Reachable Schema.Plain)
    (h : db.visibleTables entries = .ok tables) : ∀ t ∈ tables, t.Readable := by
  intro t ht
  obtain ⟨e, -, he⟩ := (mem_of_mapM_eq_ok h).1 ht
  obtain ⟨base, hbase, he⟩ := bind_eq_ok_iff.1 he
  cases he
  exact (hdb.sound base (mem_of_table_eq_ok hbase).1).readable_aliased e.visibleName

/-- A selection gives the meaning of the formula that its condition list stands for.  Every
reference means one column of one table.  The columns are the chosen ones of all columns in some
order, and the rows have their values in the same order; a formula without connectives gives each
row as often as its meaning has it. -/
theorem Reachable.select_eq_meaning (hdb : db.Reachable Schema.Plain)
    (h : db.select entries conditions targets = .ok answer) :
    ∃ tables f order,
      db.visibleTables entries = .ok tables ∧
      Formula.ofPostfix? conditions = some f ∧
      (∀ ref ∈ f.references ++ targets.flatMap Target.references,
        ∃ l, (labelsOf tables).filter (·.isNamed ref) = [l]) ∧
      (labelsOf tables).Nodup ∧
      order.Perm (labelsOf tables) ∧
      answer.columns = (chosen order targets).map (Label.heading (decide (tables.length ≤ 1))) ∧
      (∀ row, row ∈ answer.rows.map some ↔ row ∈ meaning tables f (chosen order targets)) ∧
      ((∀ c ∈ conditions, ¬ c.isConnective) →
        (answer.rows.map some).Perm (meaning tables f (chosen order targets))) := by
  obtain ⟨s, hscope, h⟩ := bind_eq_ok_iff.1 h
  obtain ⟨r, hevaluate, hselect⟩ := bind_eq_ok_iff.1 h
  have htables := scope_eq_ok hscope
  have hs : s.Readable := hdb.readable htables
  obtain ⟨f, parts, hf, hperm, hr⟩ := Scope.evaluate_denotes hs hevaluate
  have hlabels : (labelsOf parts).Perm (labelsOf s.tables) := hperm.flatMap_right _
  refine ⟨s.tables, f, labelsOf parts, htables, hf, ?_, ?_, hlabels, ?_, ?_, ?_⟩
  · intro ref href
    rcases List.mem_append.1 href with href | href
    · obtain ⟨l, -, hl⟩ := hr.covered ref href
      exact ⟨l, hl⟩
    · exact hr.references_of_select hperm hselect ref href
  · exact hlabels.nodup_iff.1 hr.partsOf.nodup_labels
  · rw [hr.columns_eq hselect, hperm.length_eq]
  · exact hr.mem_select hperm hselect
  · intro hconditions
    exact hr.perm_select hperm hselect (Formula.isPlain_of_ofPostfix? hconditions hf)

/-- A table of two rows, read under its own name and another; the product takes the table that the
condition refers to first. -/
theorem Reachable.select_eq_meaning_product :
    let s : Schema := ⟨"t", [⟨"a", .int⟩], none⟩
    let stored (rows : Array Row) : Database := { inMemory with
      tables := [{ Header.base "t" s with storage := .list rows }] }
    let db := stored #[[.int 1], [.int 2]]
    let entries : List FromEntry := [⟨"t", none⟩, ⟨"t", some "u"⟩]
    let a : Operand := .column ⟨some "u", "a"⟩
    let two : Operand := .constant (.int 2)
    let answer : Selection := ⟨["u.a", "t.a"], [[.int 1, .int 1], [.int 1, .int 2]]⟩
    db.Reachable Schema.Plain ∧ db.select entries [.compare a .lt two] [] = .ok answer ∧
      ∃ tables order, db.visibleTables entries = .ok tables ∧
        order.map Label.text = answer.columns ∧
        (answer.rows.map some).Perm (meaning tables (.compare a .lt two) order) := by
  intro s stored db entries a two answer
  have hempty : (stored #[]).Reachable Schema.Plain := by
    have hplain : s.Plain := by
      intro c hc
      rw [List.mem_singleton.1 hc]
      decide
    have hcreate : inMemory.create s [] (some .list) = .ok (.list, stored #[]) := rfl
    exact .create (.empty {}) hplain hcreate
  have hone : (stored #[]).insert "t" [.int 1] = .ok (.success, stored #[[.int 1]]) := rfl
  have htwo : (stored #[[.int 1]]).insert "t" [.int 2] = .ok (.success, db) := rfl
  have hdb : db.Reachable Schema.Plain := .insert (.insert hempty hone) htwo
  have hselect : db.select entries [.compare a .lt two] [] = .ok answer := by
    simp only [s, stored, db, entries, a, two, answer]
    rfl
  obtain ⟨tables, f, order, htables, hf, -, -, -, hcolumns, -, hperm⟩ :=
    hdb.select_eq_meaning hselect
  cases hf
  cases htables
  have hchosen : chosen order [] = order := List.append_nil order
  rw [hchosen] at hcolumns hperm
  exact ⟨hdb, hselect, _, order, rfl, hcolumns.symm, hperm (by simp [Condition.isConnective])⟩

end Database

end RelStore
