import RelStore.Proofs.Query.Environments

/-!
# Answers

`answers f parts` lists the rows of the environments of some of the tables that a selection reads,
those in which a formula holds.  The formula may refer to columns of these tables only
(`Formula.Covered`), so that its truth does not depend on the cells of further tables
(`Formula.holds_of_subset`).  Products extend answers (`answers_append_single`), and answers of a
conjunction or a disjunction are those of both or of either side (`mem_answers_and`,
`mem_answers_or`).
-/

namespace RelStore

/-- The rows of the environments in which a formula holds. -/
def answers (f : Formula) (parts : List Table) : List Row :=
  ((environments parts).filter f.holds).map Env.row

/-! ### References -/

/-- Whether a reference is the name of one label only, among those of the tables. -/
def Means (tables : List Table) (r : ColumnRef) (l : Label) : Prop :=
  (labelsOf tables).filter (·.isNamed r) = [l]

/-- Whether the tables have the columns that the formula refers to. -/
def Formula.Covered (tables parts : List Table) (f : Formula) : Prop :=
  ∀ r ∈ f.references, ∃ l ∈ labelsOf parts, Means tables r l

variable {tables parts parts' : List Table} {f g : Formula} {env env' : Env}

theorem Means.isNamed_iff {r : ColumnRef} {l l' : Label} (h : Means tables r l)
    (hl' : l' ∈ labelsOf tables) : l'.isNamed r ↔ l' = l := by
  have hmem : l' ∈ (labelsOf tables).filter (·.isNamed r) ↔ l' = l := by
    rw [h, List.mem_singleton]
  rw [List.mem_filter] at hmem
  exact ⟨fun hnamed => hmem.1 ⟨hl', hnamed⟩, fun heq => (hmem.2 heq).2⟩

/-- An environment of different labels, all of them labels of the tables. -/
structure Env.Within (tables : List Table) (env : Env) : Prop where
  nodup : env.labels.Nodup
  mem_labels : ∀ l ∈ env.labels, l ∈ labelsOf tables

theorem Env.Within.value?_eq (h : env.Within tables) {r : ColumnRef} {l : Label}
    (hl : l ∈ env.labels) (hr : Means tables r l) : env.value? r = env.lookup l :=
  value?_eq_lookup h.nodup hl fun l' hl' => hr.isNamed_iff (h.mem_labels l' hl')

namespace Formula

/-- A formula looks at an environment through its references only. -/
theorem holds_congr (h : ∀ r ∈ f.references, env'.value? r = env.value? r) :
    f.holds env' = f.holds env := by
  induction f with
  | always => rfl
  | compare left op right =>
    have hoperand : ∀ o : Operand, (∀ r ∈ o.references, env'.value? r = env.value? r) →
        o.value? env' = o.value? env := by
      intro o ho
      cases o with
      | constant v => rfl
      | column r => exact ho r (List.mem_singleton_self r)
    have hleft := hoperand left fun r hr => h r (List.mem_append_left _ hr)
    have hright := hoperand right fun r hr => h r (List.mem_append_right _ hr)
    simp only [holds, hleft, hright]
  | and f g ihf ihg =>
    simp only [holds, ihf fun r hr => h r (List.mem_append_left _ hr),
      ihg fun r hr => h r (List.mem_append_right _ hr)]
  | or f g ihf ihg =>
    simp only [holds, ihf fun r hr => h r (List.mem_append_left _ hr),
      ihg fun r hr => h r (List.mem_append_right _ hr)]

/-- Cells that a formula does not refer to do not matter, nor does the order of the cells. -/
theorem holds_of_subset (hwithin : env.Within tables) (hwithin' : env'.Within tables)
    (hsubset : env ⊆ env') (hcovered : ∀ r ∈ f.references, ∃ l ∈ env.labels, Means tables r l) :
    f.holds env' = f.holds env := by
  apply holds_congr
  intro r hr
  obtain ⟨l, hl, hmeans⟩ := hcovered r hr
  obtain ⟨v, hv⟩ := Env.exists_lookup hl
  have hl' : l ∈ env'.labels := List.mem_map.2 ⟨(l, v), hsubset hv, rfl⟩
  rw [hwithin.value?_eq hl hmeans, hwithin'.value?_eq hl' hmeans,
    (Env.lookup_eq_some_iff hwithin.nodup).2 hv,
    (Env.lookup_eq_some_iff hwithin'.nodup).2 (hsubset hv)]

end Formula

/-! ### Parts of the tables that are read -/

/-- Some of the tables, under different names; their rows are as wide as their schemas and their
columns are well named. -/
structure PartsOf (tables parts : List Table) : Prop where
  subset : ∀ t ∈ parts, t ∈ tables
  nodup : (parts.map (·.name)).Nodup
  named : ∀ t ∈ parts, t.Named
  wide : ∀ t ∈ parts, t.Wide

namespace PartsOf

theorem nodup_labels (h : PartsOf tables parts) : (labelsOf parts).Nodup :=
  nodup_labelsOf h.named h.nodup

theorem mem_labels (h : PartsOf tables parts) {l : Label} (hl : l ∈ labelsOf parts) :
    l ∈ labelsOf tables := by
  obtain ⟨t, ht, hl⟩ := List.mem_flatMap.1 hl
  exact List.mem_flatMap.2 ⟨t, h.subset t ht, hl⟩

theorem labels_eq (h : PartsOf tables parts) (henv : env ∈ environments parts) :
    env.labels = labelsOf parts :=
  labels_of_mem_environments h.wide henv

theorem within (h : PartsOf tables parts) (henv : env ∈ environments parts) :
    env.Within tables := by
  constructor
  · rw [h.labels_eq henv]
    exact h.nodup_labels
  · intro l hl
    rw [h.labels_eq henv] at hl
    exact h.mem_labels hl

/-- An environment is determined by its row. -/
theorem row_injective (h : PartsOf tables parts) (henv : env ∈ environments parts)
    (henv' : env' ∈ environments parts) (hrow : env.row = env'.row) : env = env' := by
  have hlabels : env.labels = env'.labels := by
    rw [h.labels_eq henv, h.labels_eq henv']
  rw [← env.zip_labels_row, ← env'.zip_labels_row, hlabels, hrow]

theorem perm (h : PartsOf tables parts) (hperm : parts'.Perm parts) : PartsOf tables parts' where
  subset t ht := h.subset t (hperm.mem_iff.1 ht)
  nodup := (hperm.map _).nodup_iff.2 h.nodup
  named t ht := h.named t (hperm.mem_iff.1 ht)
  wide t ht := h.wide t (hperm.mem_iff.1 ht)

theorem left (h : PartsOf tables (parts ++ parts')) : PartsOf tables parts where
  subset t ht := h.subset t (List.mem_append_left _ ht)
  nodup := by
    have hnodup := h.nodup
    rw [List.map_append] at hnodup
    exact (List.nodup_append.1 hnodup).1
  named t ht := h.named t (List.mem_append_left _ ht)
  wide t ht := h.wide t (List.mem_append_left _ ht)

end PartsOf

theorem mem_labelsOf_perm (hperm : parts'.Perm parts) {l : Label} :
    l ∈ labelsOf parts' ↔ l ∈ labelsOf parts := by
  simp only [labelsOf, List.mem_flatMap, hperm.mem_iff]

/-- What a reference means does not depend on the order of the tables. -/
theorem means_perm (hperm : parts'.Perm parts) {r : ColumnRef} {l : Label} :
    Means parts' r l ↔ Means parts r l := by
  have hlabels : (labelsOf parts').Perm (labelsOf parts) := hperm.flatMap_right _
  have hfilter := hlabels.filter (·.isNamed r)
  constructor
  · intro h
    rw [h] at hfilter
    exact (List.singleton_perm.1 hfilter).symm
  · intro h
    rw [h] at hfilter
    exact List.perm_singleton.1 hfilter

theorem Formula.Covered.perm (h : f.Covered tables parts) (hperm : parts'.Perm parts) :
    f.Covered tables parts' := by
  intro r hr
  obtain ⟨l, hl, hmeans⟩ := h r hr
  exact ⟨l, (mem_labelsOf_perm hperm).2 hl, hmeans⟩

/-- The order of the cells does not matter to a formula that refers to them. -/
theorem PartsOf.holds_perm (h : PartsOf tables parts) (hf : f.Covered tables parts)
    (henv : env ∈ environments parts) (hperm : env'.Perm env) : f.holds env' = f.holds env := by
  have hwithin := h.within henv
  have hwithin' : env'.Within tables := by
    constructor
    · exact (hperm.map _).nodup_iff.2 hwithin.nodup
    · intro l hl
      exact hwithin.mem_labels l ((hperm.map _).mem_iff.1 hl)
  apply Formula.holds_of_subset hwithin hwithin' hperm.symm.subset
  rw [h.labels_eq henv]
  exact hf

/-! ### Answers -/

theorem mem_answers {row : Row} :
    row ∈ answers f parts ↔ ∃ env ∈ environments parts, f.holds env ∧ env.row = row := by
  simp [answers, and_assoc]

theorem answers_single {t : Table} (h : t.Wide) :
    answers f [t] = t.records.filter fun row => f.holds (t.cells row) := by
  have hrow : ∀ row ∈ t.records.filter fun row => f.holds (t.cells row),
      Env.row (t.cells row) = row := fun row hrow => h.row_cells (List.mem_of_mem_filter hrow)
  rw [answers, environments_single, List.filter_map, List.map_map]
  exact (List.map_congr_left hrow).trans (List.map_id _)

theorem row_append (env env' : Env) : Env.row (env ++ env') = env.row ++ env'.row :=
  List.map_append

theorem answers_pair {t t' : Table} (ht : t.Wide) (ht' : t'.Wide) :
    answers f [t, t'] = t.records.flatMap fun row =>
      (t'.records.filter fun row' => f.holds (t.cells row ++ t'.cells row')).map (row ++ ·) := by
  have hcons : environments [t, t'] =
      t.records.flatMap fun row => (environments [t']).map (t.cells row ++ ·) := rfl
  rw [answers, hcons, List.filter_flatMap, List.map_flatMap]
  apply List.flatMap_congr
  intro row hrow
  rw [environments_single, List.map_map, List.filter_map, List.map_map]
  apply List.map_congr_left
  intro row' hrow'
  simp only [Function.comp_apply, row_append, ht.row_cells hrow,
    ht'.row_cells (List.mem_of_mem_filter hrow')]

theorem mem_answers_and (h : PartsOf tables parts) {row : Row} :
    row ∈ answers (f.and g) parts ↔ row ∈ answers f parts ∧ row ∈ answers g parts := by
  simp only [mem_answers, Formula.holds, Bool.and_eq_true]
  constructor
  · rintro ⟨env, henv, ⟨hf, hg⟩, hrow⟩
    exact ⟨⟨env, henv, hf, hrow⟩, env, henv, hg, hrow⟩
  · rintro ⟨⟨env, henv, hf, hrow⟩, env', henv', hg, hrow'⟩
    have heq : env = env' := h.row_injective henv henv' (hrow.trans hrow'.symm)
    subst heq
    exact ⟨env, henv, ⟨hf, hg⟩, hrow⟩

theorem mem_answers_or {row : Row} :
    row ∈ answers (f.or g) parts ↔ row ∈ answers f parts ∨ row ∈ answers g parts := by
  simp only [mem_answers, Formula.holds, Bool.or_eq_true]
  constructor
  · rintro ⟨env, henv, hf | hg, hrow⟩
    · exact .inl ⟨env, henv, hf, hrow⟩
    · exact .inr ⟨env, henv, hg, hrow⟩
  · rintro (⟨env, henv, hf, hrow⟩ | ⟨env, henv, hg, hrow⟩)
    · exact ⟨env, henv, .inl hf, hrow⟩
    · exact ⟨env, henv, .inr hg, hrow⟩

theorem flatMap_eq_flatMap_filter {α β : Type} {p : α → Bool} {g k : α → List β} {l : List α}
    (h : ∀ a ∈ l, g a = if p a then k a else []) : l.flatMap g = (l.filter p).flatMap k := by
  induction l with
  | nil => rfl
  | cons a l ih =>
    rw [List.forall_mem_cons] at h
    rw [List.flatMap_cons, h.1, ih h.2]
    by_cases hp : p a <;> simp [hp]

/-- A further table multiplies the answers. -/
theorem answers_append_single {t : Table} (h : PartsOf tables (parts ++ [t]))
    (hf : f.Covered tables parts) :
    answers f (parts ++ [t]) = (answers f parts).flatMap fun row => t.records.map (row ++ ·) := by
  have ht : t.Wide := h.wide t (by simp)
  have hholds : ∀ env ∈ environments parts, ∀ row ∈ t.records,
      f.holds (env ++ t.cells row) = f.holds env := by
    intro env henv row hrow
    have hmem : env ++ t.cells row ∈ environments (parts ++ [t]) := by
      rw [environments_append, environments_single]
      simp only [List.mem_flatMap, List.map_map, List.mem_map]
      exact ⟨env, henv, row, hrow, rfl⟩
    apply Formula.holds_of_subset (h.left.within henv) (h.within hmem)
    · exact List.subset_append_left _ _
    · rw [h.left.labels_eq henv]
      exact hf
  have hextend : ∀ env ∈ environments parts,
      (((environments [t]).map (env ++ ·)).filter f.holds).map Env.row =
        if f.holds env then t.records.map (env.row ++ ·) else [] := by
    intro env henv
    rw [environments_single, List.map_map]
    by_cases hf : f.holds env
    · have hall : ∀ e ∈ t.records.map ((env ++ ·) ∘ t.cells), f.holds e := by
        intro e he
        obtain ⟨row, hrow, rfl⟩ := List.mem_map.1 he
        exact (hholds env henv row hrow).trans hf
      rw [if_pos hf, List.filter_eq_self.2 hall, List.map_map]
      apply List.map_congr_left
      intro row hrow
      simp only [Function.comp_apply, row_append, ht.row_cells hrow]
    · have hnone : ∀ e ∈ t.records.map ((env ++ ·) ∘ t.cells), ¬ f.holds e := by
        intro e he
        obtain ⟨row, hrow, rfl⟩ := List.mem_map.1 he
        rw [Function.comp_apply, hholds env henv row hrow]
        exact hf
      rw [if_neg hf, List.filter_eq_nil_iff.2 hnone]
      rfl
  rw [answers, environments_append, List.filter_flatMap, List.map_flatMap,
    flatMap_eq_flatMap_filter hextend, answers, List.flatMap_map]

end RelStore
