import RelStore.Proofs.Query.Results

/-!
# Results of condition lists

A result keeps denoting its formula when it is multiplied with a further table
(`Relation.Denotes.product`), so two results can be aligned, and their union and intersection denote
the disjunction and the conjunction.  The stack of results and the stack of formulas therefore go
together (`Scope.step_denotes`), and the completed result denotes the whole formula over all tables
of the scope (`Scope.evaluate_denotes`).
-/

namespace RelStore

variable {s : Scope} {f g : Formula} {parts : List Table} {r : Relation}

/-! ### Products -/

namespace Relation.Denotes

theorem plain (h : r.Denotes s f parts) {l : Label} (hl : l ∈ labelsOf parts) :
    '.' ∉ l.column.toList :=
  plain_of_mem_labelsOf h.partsOf.named hl

theorem product (hs : s.Readable) (h : r.Denotes s f parts) {t : Table} (ht : t ∈ s.tables)
    (hnew : t.name ∉ r.sources) : (r.product t).Denotes s f (parts ++ [t]) := by
  have hreadable := hs t ht
  have hlabels : labelsOf (parts ++ [t]) = labelsOf parts ++ t.labels := by
    simp [labelsOf]
  have hparts : PartsOf s.tables (parts ++ [t]) := by
    apply hs.partsOf
    · intro t' ht'
      rcases List.mem_append.1 ht' with ht' | ht'
      · exact h.partsOf.subset t' ht'
      · rwa [List.mem_singleton.1 ht']
    · rw [h.mem_sources] at hnew
      rw [List.map_append, List.map_singleton, List.nodup_append]
      refine ⟨h.partsOf.nodup, by simp, ?_⟩
      rintro name hname name' hname' rfl
      rw [List.mem_singleton.1 hname'] at hname
      exact hnew hname
  have hrows : (r.product t).rows = r.rows.flatMap fun row => t.records.map (row ++ ·) := by
    have hrecords : (Table.ofRelation r).records = r.rows := by
      simp [Table.records, Table.ofRelation, Storage.records, Storage.rowArray]
    have hproduct : (r.product t).rows = (Table.ofRelation r).productRows t := rfl
    rw [hproduct, Table.productRows, hrecords]
  refine ⟨hparts, ?_, ?_, ?_, ?_, ?_, ?_⟩
  · intro r' hr'
    obtain ⟨l, hl, hmeans⟩ := h.covered r' hr'
    rw [hlabels]
    exact ⟨l, List.mem_append_left _ hl, hmeans⟩
  · rw [hlabels]
    exact h.shows.join hreadable.shows (fun l hl => h.plain hl) fun l hl =>
      hreadable.plain_of_mem hl
  · have hschema : (r.product t).schema = r.schema.join t.schema := rfl
    rw [hschema, Schema.qualifiedColumns_join, h.columns]
    simp
  · intro name
    rw [r.mem_sources_product hreadable.sources_eq, h.mem_sources, List.map_append,
      List.mem_append, List.map_singleton, List.mem_singleton]
  · intro row
    rw [hrows, answers_append_single hparts h.covered]
    simp only [List.mem_flatMap, h.mem_rows]
  · intro hplain
    rw [hrows, answers_append_single hparts h.covered]
    exact (h.perm_rows hplain).flatMap_right _

end Relation.Denotes

namespace Scope

variable (hs : s.Readable)

include hs

/-- Products with tables under given names. -/
theorem extend_denotes {names : List String} (hnodup : names.Nodup)
    (hnew : ∀ name ∈ names, name ∉ r.sources) (h : r.Denotes s f parts) {r' : Relation}
    (hextend : s.extend r names = .ok r') :
    ∃ parts', r'.Denotes s f parts' ∧
      ∀ name, name ∈ r'.sources ↔ name ∈ r.sources ∨ name ∈ names := by
  refine foldlM_induction (motive := fun done r' => ∃ parts', r'.Denotes s f parts' ∧
    ∀ name, name ∈ r'.sources ↔ name ∈ r.sources ∨ name ∈ done) ⟨parts, h, by simp⟩ ?_ hextend
  intro done name rest c c' hsplit hc hstep
  obtain ⟨parts', hdenotes, hsources⟩ := hc
  obtain ⟨t, htable, hstep⟩ := bind_eq_ok_iff.1 hstep
  cases hstep
  obtain ⟨ht, rfl⟩ := table_eq_ok htable
  have hfresh : t.name ∉ c.sources := by
    rw [hsources]
    rintro (hmem | hmem)
    · exact hnew t.name (by rw [← hsplit]; simp) hmem
    · rw [← hsplit, List.nodup_append] at hnodup
      exact hnodup.2.2 _ hmem _ List.mem_cons_self rfl
  refine ⟨_, hdenotes.product hs ht hfresh, fun name => ?_⟩
  rw [c.mem_sources_product (hs t ht).sources_eq, hsources, List.mem_append, List.mem_singleton,
    or_assoc]

/-- Products with those of some tables that the result does not come from. -/
theorem foldl_product_denotes {tables : List Table} (htables : ∀ t ∈ tables, t ∈ s.tables)
    (h : r.Denotes s f parts) :
    let r' := tables.foldl (fun r t => if t.name ∈ r.sources then r else r.product t) r
    (∃ parts', r'.Denotes s f parts') ∧ (∀ name, name ∈ r.sources → name ∈ r'.sources) ∧
      ∀ t ∈ tables, t.name ∈ r'.sources := by
  induction tables generalizing r parts with
  | nil => exact ⟨⟨parts, h⟩, fun _ hname => hname, fun _ ht => absurd ht List.not_mem_nil⟩
  | cons t tables ih =>
    rw [List.forall_mem_cons] at htables
    by_cases hmem : t.name ∈ r.sources
    · obtain ⟨hdenotes, hkept, hadded⟩ := ih htables.2 h
      simp only [List.foldl_cons, if_pos hmem, List.forall_mem_cons]
      exact ⟨hdenotes, hkept, hkept _ hmem, hadded⟩
    · obtain ⟨hdenotes, hkept, hadded⟩ := ih htables.2 (h.product hs htables.1 hmem)
      have hsources := fun name => (r.mem_sources_product (hs t htables.1).sources_eq name).2
      simp only [List.foldl_cons, if_neg hmem, List.forall_mem_cons]
      exact ⟨hdenotes, fun name hname => hkept name (hsources name (.inl hname)),
        hkept _ (hsources _ (.inr rfl)), hadded⟩

/-- The completed result has all tables of the scope as its parts. -/
theorem complete_denotes (h : r.Denotes s f parts) :
    ∃ parts', parts'.Perm s.tables ∧ (s.complete r).Denotes s f parts' := by
  obtain ⟨⟨parts', hdenotes⟩, -, hadded⟩ := foldl_product_denotes hs (fun _ ht => ht) h
  refine ⟨parts', perm_of_names hdenotes.partsOf.subset hdenotes.partsOf.nodup (fun _ ht => ht)
    s.nodup_names ?_, hdenotes⟩
  intro name
  constructor
  · intro hname
    obtain ⟨t, ht, rfl⟩ := List.mem_map.1 hname
    exact List.mem_map.2 ⟨t, hdenotes.partsOf.subset t ht, rfl⟩
  · intro hname
    obtain ⟨t, ht, rfl⟩ := List.mem_map.1 hname
    rw [← hdenotes.mem_sources]
    exact hadded t ht

/-! ### Unions and intersections -/

omit hs in
/-- The row of an environment, brought in the order of the columns of another result. -/
theorem project_row {l r : Relation} {parts parts' : List Table} (hl : l.Denotes s f parts)
    (hr : r.Denotes s g parts') {mapping : List Nat}
    (hmapping : columnMapping l.schema r.schema = .ok mapping) {env env' : Env}
    (henv : env ∈ environments parts') (henv' : env' ∈ environments parts)
    (hperm : env'.Perm env) : Row.project mapping env.row = .ok env'.row := by
  have hwithin := hr.partsOf.within henv
  have hpositions : mapping.map (env.labels[·]?) = env'.labels.map some := by
    rw [hr.partsOf.labels_eq henv, hl.partsOf.labels_eq henv']
    exact columnMapping_labels hl.shows hr.shows (fun _ => hl.plain) (fun _ => hr.plain) hmapping
  obtain ⟨row, hselect, hproject⟩ := Env.select_row hwithin.nodup hpositions
  have hrow : env.project env'.labels = some env'.row := by
    rw [← Env.project_perm hwithin.nodup hperm]
    exact Env.project_labels (hl.partsOf.within henv').nodup
  rw [hproject] at hrow
  rw [Row.project_eq_select, hselect, Option.some.inj hrow]

omit hs in
/-- The rows of a result, brought in the order of the columns of another result with the same
sources. -/
theorem mem_projected {l r : Relation} {parts parts' : List Table} (hl : l.Denotes s f parts)
    (hr : r.Denotes s g parts') (hperm : parts.Perm parts') {mapping : List Nat}
    (hmapping : columnMapping l.schema r.schema = .ok mapping) {rows : List Row}
    (hrows : r.rows.mapM (Row.project mapping) = .ok rows) (row : Row) :
    row ∈ rows ↔ row ∈ answers g parts := by
  have hcovered := hr.covered.perm hperm
  rw [mem_of_mapM_eq_ok hrows, mem_answers]
  simp only [hr.mem_rows, mem_answers]
  constructor
  · rintro ⟨-, ⟨env, henv, hg, rfl⟩, hproject⟩
    obtain ⟨env', henv', hcells⟩ := exists_mem_environments_perm hperm.symm henv
    rw [project_row hl hr hmapping henv henv' hcells] at hproject
    cases hproject
    refine ⟨env', henv', ?_, rfl⟩
    rw [hr.partsOf.holds_perm hr.covered henv hcells]
    exact hg
  · rintro ⟨env', henv', hg, rfl⟩
    obtain ⟨env, henv, hcells⟩ := exists_mem_environments_perm hperm henv'
    refine ⟨env.row, ⟨env, henv, ?_, rfl⟩, project_row hl hr hmapping henv henv' hcells.symm⟩
    rw [hl.partsOf.holds_perm hcovered henv' hcells]
    exact hg

/-- Two results are aligned: the rows of both are answers of the parts of the first, in the order of
its columns. -/
theorem alignRows_denotes {l r : Relation} {parts parts' : List Table} (hl : l.Denotes s f parts)
    (hr : r.Denotes s g parts') {left : Relation} {sources : Sources} {rows : List Row}
    (h : s.alignRows l r = .ok (left, sources, rows)) :
    ∃ parts, left.Denotes s f parts ∧ g.Covered s.tables parts ∧
      (∀ name, name ∈ sources ↔ name ∈ left.sources) ∧ ∀ row, row ∈ rows ↔ row ∈ answers g parts := by
  obtain ⟨⟨left', right⟩, halign, h⟩ := bind_eq_ok_iff.1 h
  obtain ⟨mapping, hmapping, h⟩ := bind_eq_ok_iff.1 h
  obtain ⟨rows', hrows, h⟩ := bind_eq_ok_iff.1 h
  cases h
  obtain ⟨left'', hleft, halign⟩ := bind_eq_ok_iff.1 halign
  obtain ⟨right', hright, halign⟩ := bind_eq_ok_iff.1 halign
  cases halign
  obtain ⟨ps, hl', hlsources⟩ := extend_denotes hs (Sources.nodup_diff _ _)
    (fun name hname => (Sources.mem_diff.1 hname).2) hl hleft
  obtain ⟨ps', hr', hrsources⟩ := extend_denotes hs (Sources.nodup_diff _ _)
    (fun name hname => (Sources.mem_diff.1 hname).2) hr hright
  have hsources : ∀ name, name ∈ left.sources ↔ name ∈ right.sources := by
    intro name
    rw [hlsources, hrsources, Sources.mem_diff, Sources.mem_diff]
    by_cases hname : name ∈ l.sources <;> by_cases hname' : name ∈ r.sources <;>
      simp [hname, hname']
  have hperm : ps.Perm ps' := by
    apply perm_of_names hl'.partsOf.subset hl'.partsOf.nodup hr'.partsOf.subset hr'.partsOf.nodup
    intro name
    rw [← hl'.mem_sources, ← hr'.mem_sources, hsources]
  refine ⟨ps, hl', hr'.covered.perm hperm, ?_, ?_⟩
  · intro name
    rw [Sources.mem_union, ← hsources, or_self]
  · exact mem_projected hl' hr' hperm hmapping hrows

omit hs in
/-- A result under other rows, which are the answers to a formula on two aligned results. -/
theorem denotes_combined {left : Relation} (hleft : left.Denotes s f parts)
    (hcovered : g.Covered s.tables parts) {sources : Sources}
    (hsources : ∀ name, name ∈ sources ↔ name ∈ left.sources) {h : Formula}
    (hreferences : h.references = f.references ++ g.references) (hplain : ¬ h.IsPlain)
    {rows : List Row} (hrows : ∀ row, row ∈ rows ↔ row ∈ answers h parts) :
    Relation.Denotes s h parts { left with sources, rows } where
  partsOf := hleft.partsOf
  covered r hr := by
    rw [hreferences, List.mem_append] at hr
    rcases hr with hr | hr
    · exact hleft.covered r hr
    · exact hcovered r hr
  shows := hleft.shows
  columns := hleft.columns
  mem_sources name := by
    rw [← hleft.mem_sources]
    exact hsources name
  mem_rows := hrows
  perm_rows h := absurd h hplain

theorem union_denotes {l r r' : Relation} {parts parts' : List Table} (hl : l.Denotes s f parts)
    (hr : r.Denotes s g parts') (h : s.union l r = .ok r') :
    ∃ parts, r'.Denotes s (f.or g) parts := by
  obtain ⟨⟨left, sources, rows⟩, halign, h⟩ := bind_eq_ok_iff.1 h
  cases h
  obtain ⟨ps, hleft, hcovered, hsources, hrows⟩ := alignRows_denotes hs hl hr halign
  refine ⟨ps, denotes_combined hleft hcovered hsources rfl id fun row => ?_⟩
  rw [Row.mem_distinct, List.mem_append, hrows, hleft.mem_rows, mem_answers_or]

theorem intersect_denotes {l r r' : Relation} {parts parts' : List Table}
    (hl : l.Denotes s f parts) (hr : r.Denotes s g parts') (h : s.intersect l r = .ok r') :
    ∃ parts, r'.Denotes s (f.and g) parts := by
  obtain ⟨⟨left, sources, rows⟩, halign, h⟩ := bind_eq_ok_iff.1 h
  cases h
  obtain ⟨ps, hleft, hcovered, hsources, hrows⟩ := alignRows_denotes hs hl hr halign
  refine ⟨ps, denotes_combined hleft hcovered hsources rfl id fun row => ?_⟩
  have hmember : row ∈ Std.HashSet.ofList rows ↔ row ∈ rows := by
    rw [Std.HashSet.mem_ofList, List.contains_iff_mem]
  rw [Row.mem_distinct, List.mem_filter, Std.HashSet.contains_iff_mem, hmember, hrows,
    hleft.mem_rows, mem_answers_and hleft.partsOf]

/-! ### Condition lists -/

omit hs in
/-- The results on a stack denote formulas. -/
def StackDenotes (s : Scope) : List Relation → List Formula → Prop :=
  List.Forall₂ fun r f => ∃ parts, r.Denotes s f parts

/-- A step on the results goes together with a step on the formulas. -/
theorem step_denotes {stack stack' : List Relation} {fs : List Formula} {c : Condition}
    (hstack : s.StackDenotes stack fs) (h : s.step stack c = .ok stack') :
    ∃ fs', Formula.push fs c = some fs' ∧ s.StackDenotes stack' fs' := by
  cases c with
  | compare left op right =>
    obtain ⟨r, hquery, h⟩ := bind_eq_ok_iff.1 h
    cases h
    exact ⟨_, rfl, .cons (query_denotes hs hquery) hstack⟩
  | and =>
    cases hstack with
    | nil => contradiction
    | cons hr hrest =>
      cases hrest with
      | nil => contradiction
      | cons hl hrest =>
        obtain ⟨parts', hr⟩ := hr
        obtain ⟨parts, hl⟩ := hl
        obtain ⟨r, hintersect, h⟩ := bind_eq_ok_iff.1 h
        cases h
        exact ⟨_, rfl, .cons (intersect_denotes hs hl hr hintersect) hrest⟩
  | or =>
    cases hstack with
    | nil => contradiction
    | cons hr hrest =>
      cases hrest with
      | nil => contradiction
      | cons hl hrest =>
        obtain ⟨parts', hr⟩ := hr
        obtain ⟨parts, hl⟩ := hl
        obtain ⟨r, hunion, h⟩ := bind_eq_ok_iff.1 h
        cases h
        exact ⟨_, rfl, .cons (union_denotes hs hl hr hunion) hrest⟩

/-- The results after a run over a condition list denote the formulas read from the list. -/
theorem run_denotes {conditions : List Condition} {stack : List Relation}
    (h : conditions.foldlM s.step [] = .ok stack) :
    ∃ fs, conditions.foldlM Formula.push [] = some fs ∧ s.StackDenotes stack fs := by
  refine foldlM_induction (motive := fun done stack => ∃ fs,
    done.foldlM Formula.push [] = some fs ∧ s.StackDenotes stack fs) ⟨[], rfl, .nil⟩ ?_ h
  intro done c rest stack stack' _ hstack hstep
  obtain ⟨fs, hfs, hdenotes⟩ := hstack
  obtain ⟨fs', hpush, hdenotes'⟩ := step_denotes hs hdenotes hstep
  refine ⟨fs', ?_, hdenotes'⟩
  rw [List.foldlM_append, hfs]
  simpa using hpush

/-- The first table as a result, when there is no condition. -/
theorem firstTable_denotes {t : Table} (h : s.firstTable = .ok t) :
    (t.result t.records).Denotes s .always [t] := by
  have ht := firstTable_eq_ok h
  apply Relation.denotes_result hs ht (fun r hr => absurd hr List.not_mem_nil)
  rw [answers_single (hs t ht).wide]
  simp [Formula.holds]

/-- The result of a condition list denotes its formula, over all tables of the scope. -/
theorem evaluate_denotes {conditions : List Condition} (h : s.evaluate conditions = .ok r) :
    ∃ f parts, Formula.ofPostfix? conditions = some f ∧ parts.Perm s.tables ∧
      r.Denotes s f parts := by
  obtain ⟨stack, hrun, h⟩ := bind_eq_ok_iff.1 h
  obtain ⟨only, honly, h⟩ := bind_eq_ok_iff.1 h
  cases h
  obtain ⟨fs, hfs, hdenotes⟩ := run_denotes hs hrun
  have hcomplete : ∃ f parts, Formula.ofPostfix? conditions = some f ∧ only.Denotes s f parts := by
    simp only [Formula.ofPostfix?, hfs]
    cases hdenotes with
    | nil =>
      obtain ⟨t, hfirst, honly⟩ := bind_eq_ok_iff.1 honly
      cases honly
      exact ⟨.always, [t], rfl, firstTable_denotes hs hfirst⟩
    | cons hr hrest =>
      cases hrest with
      | nil =>
        cases honly
        obtain ⟨parts, hr⟩ := hr
        exact ⟨_, parts, rfl, hr⟩
      | cons hr' hrest => contradiction
  obtain ⟨f, parts, hf, hdenotes⟩ := hcomplete
  obtain ⟨parts', hperm, hdenotes'⟩ := complete_denotes hs hdenotes
  exact ⟨f, parts', hf, hperm, hdenotes'⟩

end Scope

namespace Formula

theorem isPlain_of_foldlM_push {conditions : List Condition} {fs fs' : List Formula}
    (hconditions : ∀ c ∈ conditions, ¬ c.isConnective) (hfs : ∀ f ∈ fs, f.IsPlain)
    (h : conditions.foldlM push fs = some fs') : ∀ f ∈ fs', f.IsPlain := by
  induction conditions generalizing fs with
  | nil =>
    cases h
    exact hfs
  | cons c conditions ih =>
    rw [List.forall_mem_cons] at hconditions
    cases c with
    | compare left op right =>
      apply ih hconditions.2 _ h
      rw [List.forall_mem_cons]
      exact ⟨trivial, hfs⟩
    | and => exact absurd rfl hconditions.1
    | or => exact absurd rfl hconditions.1

/-- A list without connectives stands for a formula without connectives. -/
theorem isPlain_of_ofPostfix? {conditions : List Condition} {f : Formula}
    (hconditions : ∀ c ∈ conditions, ¬ c.isConnective) (h : ofPostfix? conditions = some f) :
    f.IsPlain := by
  unfold ofPostfix? at h
  split at h
  · cases h
    trivial
  · next g hrun =>
    cases h
    exact isPlain_of_foldlM_push hconditions (fun _ hf => absurd hf List.not_mem_nil) hrun f
      (List.mem_singleton_self f)
  · contradiction

end Formula

end RelStore
