import RelStore.Proofs.Query.Results

/-!
# The rows and columns of a selection

The meaning of a selection does not depend on the order of the tables (`meaning_perm`).  The
positions of targets in a result are those of the chosen labels
(`Relation.Denotes.exists_positions`), so that the columns and the rows that are selected at these
positions move together (`Relation.Denotes.columns_eq`, `Relation.Denotes.mem_select`,
`Relation.Denotes.perm_select`).
-/

namespace RelStore

/-! ### The order of the tables -/

theorem meaning_perm {tables parts : List Table} {f : Formula} (hparts : PartsOf tables parts)
    (hf : f.Covered tables parts) (hperm : parts.Perm tables) (wanted : List Label) :
    (meaning parts f wanted).Perm (meaning tables f wanted) := by
  let value (env : Env) : Option (Option Row) :=
    if f.holds env then some (env.project wanted) else none
  have hvalue : ∀ ts, meaning ts f wanted = ((environments ts).map value).filterMap id := by
    intro ts
    rw [meaning, List.filterMap_map]
    induction environments ts with
    | nil => rfl
    | cons env envs ih => by_cases h : f.holds env <;> simp [value, h, ih]
  have hsame : ∀ ts, ts.Perm parts → ∀ env ∈ environments ts, ∀ env', env'.Perm env →
      value env' = value env := by
    intro ts hts env henv env' henv'
    have hts' := hparts.perm hts
    have hnodup := (hts'.within henv).nodup
    simp only [value, hts'.holds_perm (hf.perm hts) henv henv', Env.project_perm hnodup henv']
  rw [hvalue, hvalue]
  apply List.Perm.filterMap
  apply map_environments_perm hperm
  · exact hsame parts (.refl _)
  · exact hsame tables hperm.symm

theorem PartsOf.meaning_eq {tables parts : List Table} {f : Formula} (h : PartsOf tables parts)
    (wanted : List Label) :
    meaning parts f wanted =
      (answers f parts).map fun row => Env.project ((labelsOf parts).zip row) wanted := by
  rw [meaning, answers, List.map_map]
  apply List.map_congr_left
  intro env henv
  have hlabels := h.labels_eq (List.mem_of_mem_filter henv)
  rw [Function.comp_apply, ← hlabels, Env.zip_labels_row]

/-! ### Positions and columns -/

namespace Relation.Denotes

variable {s : Scope} {f : Formula} {parts : List Table} {r : Relation}

/-- A result comes from as many tables as it has parts. -/
theorem size_sources (h : r.Denotes s f parts) : r.sources.size = parts.length := by
  have hperm : r.sources.names.Perm (parts.map (·.name)) := by
    rw [List.perm_ext_iff_of_nodup r.sources.nodup_names h.partsOf.nodup]
    exact h.mem_sources
  rw [Sources.size, hperm.length_eq, List.length_map]

/-- The columns go by the headings of their labels. -/
theorem heading_eq (h : r.Denotes s f parts) :
    r.schema.columns.map r.heading =
      (labelsOf parts).map (Label.heading (decide (parts.length ≤ 1))) := by
  have hheading : r.heading = fun c =>
      if 1 < parts.length then r.schema.qualified c else c.localName := by
    funext c
    rw [heading, h.size_sources]
  rw [hheading]
  by_cases hmany : 1 < parts.length
  · simp only [if_pos hmany, decide_eq_false (Nat.not_le.2 hmany)]
    exact h.shows.qualifiedNames_eq
  · simp only [if_neg hmany, decide_eq_true (Nat.not_lt.1 hmany)]
    exact h.shows.localNames_eq

theorem positions_eq_ok (h : r.Denotes s f parts) {t : Target} {ps : List Nat}
    (ht : r.positions t = .ok ps) :
    ps.map ((labelsOf parts)[·]?) = (t.labels (labelsOf parts)).map some := by
  cases t with
  | all =>
    cases ht
    rw [h.shows.length_eq]
    exact map_getElem?_range (labelsOf parts)
  | column ref =>
    obtain ⟨i, hresolve, rfl⟩ := positions_column_eq_ok ht
    obtain ⟨l, hl, hfilter⟩ := h.shows.resolve_eq_ok_iff.1 hresolve
    rw [Target.labels, hfilter, List.map_singleton, List.map_singleton, hl]

/-- A reference of a target is the name of one label. -/
theorem exists_means (h : r.Denotes s f parts) (hperm : parts.Perm s.tables) {ref : ColumnRef}
    {ps : List Nat} (ht : r.positions (.column ref) = .ok ps) : ∃ l, Means s.tables ref l := by
  obtain ⟨i, hresolve, -⟩ := positions_column_eq_ok ht
  obtain ⟨l, -, hmeans⟩ := h.shows.resolve_eq_ok_iff.1 hresolve
  exact ⟨l, (means_perm hperm).1 hmeans⟩

/-! ### Columns and rows of a selection -/

section Select

variable {targets : List Target} {answer : Selection}

/-- A selection takes the positions of the chosen labels, of the columns and of every row. -/
theorem exists_positions (h : r.Denotes s f parts) (hselect : r.select targets = .ok answer) :
    ∃ ps, ps.map ((labelsOf parts)[·]?) = (chosen (labelsOf parts) targets).map some ∧
      answer.columns = ps.filterMap (fun i => r.schema.columns[i]?.map r.heading) ∧
      r.rows.mapM (·.select ps) = .ok answer.rows := by
  obtain ⟨pss, hpss, hselect⟩ := bind_eq_ok_iff.1 hselect
  obtain ⟨rows, hrows, hselect⟩ := bind_eq_ok_iff.1 hselect
  cases hselect
  refine ⟨pss.flatten, ?_, rfl, hrows⟩
  have hlists := map_eq_of_mapM_eq_ok (g := fun ps => ps.map ((labelsOf parts)[·]?)) hpss
    fun t _ ps ht => h.positions_eq_ok ht
  rw [List.map_flatten, hlists, chosen, List.map_flatMap]
  rfl

/-- Each reference of the targets is the name of one label. -/
theorem references_of_select (h : r.Denotes s f parts) (hperm : parts.Perm s.tables)
    (hselect : r.select targets = .ok answer) :
    ∀ ref ∈ targets.flatMap Target.references, ∃ l, Means s.tables ref l := by
  intro ref href
  obtain ⟨t, ht, href⟩ := List.mem_flatMap.1 href
  cases t with
  | all => exact absurd href List.not_mem_nil
  | column ref' =>
    rw [Target.references, List.mem_singleton] at href
    subst href
    obtain ⟨pss, hpss, -⟩ := bind_eq_ok_iff.1 hselect
    have hsome : targets.isEmpty = false := List.isEmpty_eq_false_iff.2 (List.ne_nil_of_mem ht)
    rw [hsome, if_neg Bool.false_ne_true] at hpss
    obtain ⟨ps, hps⟩ := exists_of_mapM_eq_ok hpss ht
    exact h.exists_means hperm hps

/-- Headings and chosen labels go together. -/
theorem columns_eq (h : r.Denotes s f parts) (hselect : r.select targets = .ok answer) :
    answer.columns = (chosen (labelsOf parts) targets).map
      (Label.heading (decide (parts.length ≤ 1))) := by
  obtain ⟨ps, hps, hcolumns, -⟩ := h.exists_positions hselect
  have hheading : ∀ i : Nat, r.schema.columns[i]?.map r.heading =
      (labelsOf parts)[i]?.map (Label.heading (decide (parts.length ≤ 1))) := by
    intro i
    rw [← List.getElem?_map, ← List.getElem?_map, h.heading_eq]
  calc answer.columns
      = (ps.map ((labelsOf parts)[·]?)).filterMap
          (Option.map (Label.heading (decide (parts.length ≤ 1)))) := by
        rw [hcolumns, List.filterMap_map]
        simp only [hheading]
        rfl
    _ = (chosen (labelsOf parts) targets).map (Label.heading (decide (parts.length ≤ 1))) := by
        rw [hps, List.filterMap_map]
        simp

/-- Each row of the selection has the chosen values of a row of the result. -/
theorem rows_eq (h : r.Denotes s f parts) (hselect : r.select targets = .ok answer) :
    answer.rows.map some = r.rows.map fun row =>
      Env.project ((labelsOf parts).zip row) (chosen (labelsOf parts) targets) := by
  obtain ⟨ps, hps, -, hrows⟩ := h.exists_positions hselect
  apply map_eq_of_mapM_eq_ok hrows
  intro row hrow values hvalues
  obtain ⟨env, henv, -, rfl⟩ := mem_answers.1 ((h.mem_rows row).1 hrow)
  have hlabels := h.partsOf.labels_eq henv
  have hnodup := (h.partsOf.within henv).nodup
  obtain ⟨values', hselected, hproject⟩ := Env.select_row hnodup (hlabels ▸ hps)
  rw [hselected] at hvalues
  cases hvalues
  rw [← hlabels, Env.zip_labels_row, hproject]

/-- The rows of the selection are those of the meaning. -/
theorem mem_select (h : r.Denotes s f parts) (hperm : parts.Perm s.tables)
    (hselect : r.select targets = .ok answer) (row : Option Row) :
    row ∈ answer.rows.map some ↔
      row ∈ meaning s.tables f (chosen (labelsOf parts) targets) := by
  rw [← (meaning_perm h.partsOf h.covered hperm _).mem_iff, h.partsOf.meaning_eq,
    h.rows_eq hselect, List.mem_map, List.mem_map]
  simp only [h.mem_rows]

/-- Without connectives the rows of the selection are those of the meaning, as often. -/
theorem perm_select (h : r.Denotes s f parts) (hperm : parts.Perm s.tables)
    (hselect : r.select targets = .ok answer) (hplain : f.IsPlain) :
    (answer.rows.map some).Perm (meaning s.tables f (chosen (labelsOf parts) targets)) := by
  rw [h.rows_eq hselect]
  apply ((h.perm_rows hplain).map _).trans
  rw [← h.partsOf.meaning_eq]
  exact meaning_perm h.partsOf h.covered hperm _

end Select

end Relation.Denotes

end RelStore
