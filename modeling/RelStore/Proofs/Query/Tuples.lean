import Mathlib.Data.Set.Lattice
import RelStore.Proofs.Query.Provenance

/-!
# Tuples

A tuple is a row without the order of its columns: the value at each qualified name.  Where the
qualified names of a scope differ (`Scope.Separate`), rows as wide as their schema are determined by
their tuples, and the rows of an aligned operand have the same tuples in the new order of the
columns (`Scope.Reorders.tuple_valuesAt`).

`Scope.extended` says what it means to extend a result by tables that it lacks, without saying in
which order.  Multiplication with some of the tables does not change that
(`Scope.Multiplied.extended_eq`).
-/

namespace RelStore

/-- The values at qualified names. -/
abbrev Tuple := String → Option Value

/-- The first tuple has every value that the second has. -/
def Tuple.Extends (τ σ : Tuple) : Prop :=
  ∀ name v, σ name = some v → τ name = some v

/-- The tuple of a row. -/
def Schema.tuple (s : Schema) (row : Row) : Tuple :=
  fun name => (s.position? name).bind (row[·]?)

/-- The tuples of the rows of a relation. -/
def Relation.tuples (r : Relation) : Set Tuple :=
  {τ | ∃ row ∈ r.rows, r.schema.tuple row = τ}

/-- The tuples of the rows of a table. -/
def Table.tuples (t : Table) : Set Tuple :=
  {τ | ∃ row ∈ t.records, t.schema.tuple row = τ}

namespace Scope

/-- No qualified name stands for two columns of the scope. -/
def Separate (s : Scope) : Prop :=
  (s.tables.flatMap (·.schema.qualifiedNames)).Nodup

/-- The tuples of a relation, each extended by a tuple of every named table that the relation
lacks. -/
def extended (s : Scope) (names : Sources) (r : Relation) : Set Tuple :=
  {τ | (∃ σ ∈ r.tuples, τ.Extends σ) ∧
    (∀ t ∈ s.tables, t.name ∈ names → t.name ∉ r.sources → ∃ σ ∈ t.tuples, τ.Extends σ) ∧
    ∀ name, τ name ≠ none → ∃ t ∈ s.tables, t.name ∈ names ∧ name ∈ t.schema.qualifiedNames}

end Scope

/-! ### Extensions -/

namespace Tuple

variable {σ σ' τ : Tuple}

theorem Extends.refl (σ : Tuple) : σ.Extends σ :=
  fun _ _ h => h

/-- Two tuples at the same names that one tuple extends are equal. -/
theorem Extends.eq (h : τ.Extends σ) (h' : τ.Extends σ')
    (hnames : ∀ name, σ name ≠ none ↔ σ' name ≠ none) : σ = σ' := by
  funext name
  cases hσ : σ name with
  | none =>
    have hσ' : σ' name = none := by
      by_contra hne
      exact (hnames name).2 hne hσ
    exact hσ'.symm
  | some v =>
    obtain ⟨w, hw⟩ := Option.ne_none_iff_exists'.1 ((hnames name).1 (by simp [hσ]))
    rw [hw, ← h name v hσ, h' name w hw]

end Tuple

/-! ### Rows and tuples -/

namespace Schema

variable {s s' : Schema} {row row' : Row} {name : String} {v : Value}

/-- A tuple has the values that stand beside the names. -/
theorem tuple_eq_some_iff (h : s.qualifiedNames.Nodup) :
    s.tuple row name = some v ↔ (name, v) ∈ s.qualifiedNames.zip row := by
  have hposition : ∀ i, s.position? name = some i ↔ s.qualifiedNames[i]? = some name := by
    intro i
    rw [position?, List.findIdx?_eq_some_iff_getElem, List.getElem?_eq_some_iff]
    refine exists_congr fun hi => ?_
    rw [beq_iff_eq, and_iff_left_iff_imp]
    rintro rfl j hji hj
    have heq : j = i := h.getElem_inj_iff.1 (beq_iff_eq.1 hj)
    omega
  simp only [tuple, Option.bind_eq_some_iff, hposition, List.mem_iff_getElem?,
    List.getElem?_zip_eq_some]

/-- A row has a value at each name of the schema. -/
theorem tuple_ne_none_iff (h : s.qualifiedNames.Nodup) (hwide : row.length = s.width) :
    s.tuple row name ≠ none ↔ name ∈ s.qualifiedNames := by
  have hfst : (s.qualifiedNames.zip row).map Prod.fst = s.qualifiedNames :=
    List.map_fst_zip (by rw [hwide, length_qualifiedNames])
  rw [Option.ne_none_iff_exists']
  simp only [tuple_eq_some_iff h]
  nth_rewrite 2 [← hfst]
  simp

/-- Rows as wide as the schema are determined by their tuples. -/
theorem tuple_injective (h : s.qualifiedNames.Nodup) (hwide : row.length = s.width)
    (hwide' : row'.length = s.width) (heq : s.tuple row = s.tuple row') : row = row' := by
  apply List.ext_getElem (hwide.trans hwide'.symm)
  intro i hi hi'
  have hlt : i < s.qualifiedNames.length := by
    rw [length_qualifiedNames, ← hwide]
    exact hi
  have hvalue : ∀ (row : Row) (hi : i < row.length),
      s.tuple row s.qualifiedNames[i] = some row[i] := by
    intro row hi
    rw [tuple_eq_some_iff h]
    apply List.mem_of_getElem? (i := i)
    rw [List.getElem?_zip_eq_some]
    exact ⟨List.getElem?_eq_getElem hlt, List.getElem?_eq_getElem hi⟩
  have hsome := hvalue row hi
  rw [heq, hvalue row' hi'] at hsome
  exact (Option.some.inj hsome).symm

theorem qualifiedNames_join (s s' : Schema) :
    (s.join s').qualifiedNames = s.qualifiedNames ++ s'.qualifiedNames := by
  rw [qualifiedNames_eq, qualifiedColumns_join, List.map_append, ← qualifiedNames_eq,
    ← qualifiedNames_eq]

/-- A tuple extends that of a joined row if it extends both parts. -/
theorem extends_tuple_join_iff (h : (s.join s').qualifiedNames.Nodup)
    (hwide : row.length = s.width) {τ : Tuple} :
    τ.Extends ((s.join s').tuple (row ++ row')) ↔
      τ.Extends (s.tuple row) ∧ τ.Extends (s'.tuple row') := by
  have hparts := h
  rw [qualifiedNames_join] at hparts
  have hzip : (s.join s').qualifiedNames.zip (row ++ row') =
      s.qualifiedNames.zip row ++ s'.qualifiedNames.zip row' := by
    rw [qualifiedNames_join, List.zip_append (by rw [hwide, length_qualifiedNames])]
  simp only [Tuple.Extends, tuple_eq_some_iff h, tuple_eq_some_iff hparts.of_append_left,
    tuple_eq_some_iff hparts.of_append_right, hzip, List.mem_append]
  constructor
  · intro hτ
    exact ⟨fun name v hv => hτ name v (.inl hv), fun name v hv => hτ name v (.inr hv)⟩
  · rintro ⟨hleft, hright⟩ name v (hv | hv)
    · exact hleft name v hv
    · exact hright name v hv

end Schema

/-! ### Separate scopes -/

namespace Scope

variable {s : Scope} {parts parts' : List Table} {l r r' left right : Relation} {mapping : List Nat}
  {t t' : Table}

section Separate

variable (hnames : s.Separate)

include hnames

theorem nodup_qualifiedNames (h : r.Over s parts) : r.schema.qualifiedNames.Nodup := by
  obtain ⟨ts, hperm, hsublist⟩ := h.nodup.of_map.subperm h.subset
  rw [h.names, (hperm.flatMap_right _).nodup_iff.symm]
  exact hnames.sublist (hsublist.flatMap _)

/-- A name at which the tuples of a relation have a value belongs to a part. -/
theorem tuple_ne_none_iff_exists (h : r.Over s parts) {row : Row} (hrow : row ∈ r.rows)
    {name : String} : r.schema.tuple row name ≠ none ↔
      ∃ t ∈ s.tables, t.name ∈ r.sources ∧ name ∈ t.schema.qualifiedNames := by
  rw [Schema.tuple_ne_none_iff (nodup_qualifiedNames hnames h) (h.wide row hrow), h.names,
    List.mem_flatMap]
  constructor
  · rintro ⟨t, ht, hname⟩
    exact ⟨t, h.subset t ht, (h.mem_sources _).2 (List.mem_map_of_mem ht), hname⟩
  · rintro ⟨t, ht, hsource, hname⟩
    obtain ⟨t', ht', heq⟩ := List.mem_map.1 ((h.mem_sources _).1 hsource)
    rw [← eq_of_name_eq (h.subset t' ht') ht heq] at hname
    exact ⟨t', ht', hname⟩

/-! ### Extended results -/

/-- A result lacks none of the tables that it comes from. -/
theorem extended_sources (h : r.Over s parts) : s.extended r.sources r = r.tuples := by
  apply Set.ext
  intro τ
  constructor
  · rintro ⟨⟨σ, ⟨row, hrow, rfl⟩, hτ⟩, -, hdomain⟩
    refine ⟨row, hrow, hτ.eq (Tuple.Extends.refl τ) fun name => ?_⟩
    rw [tuple_ne_none_iff_exists hnames h hrow]
    constructor
    · rintro hname
      obtain ⟨v, hv⟩ := Option.ne_none_iff_exists'.1
        ((tuple_ne_none_iff_exists hnames h hrow).2 hname)
      rw [hτ name v hv]
      exact Option.some_ne_none v
    · exact hdomain name
  · rintro ⟨row, hrow, rfl⟩
    refine ⟨⟨_, ⟨row, hrow, rfl⟩, .refl _⟩, fun t _ hmem hnot => absurd hmem hnot, fun name => ?_⟩
    exact (tuple_ne_none_iff_exists hnames h hrow).1

theorem extended_product (hs : s.Rectangular) (h : r.Over s parts) (ht : t ∈ s.tables)
    (hnew : t.name ∉ r.sources) {names : Sources} (hmem : t.name ∈ names) :
    s.extended names (r.product t) = s.extended names r := by
  have hnodup := nodup_qualifiedNames hnames (over_product hs h ht hnew)
  have hrows : ∀ τ : Tuple, (∃ σ ∈ (r.product t).tuples, τ.Extends σ) ↔
      (∃ σ ∈ r.tuples, τ.Extends σ) ∧ ∃ σ ∈ t.tuples, τ.Extends σ := by
    intro τ
    constructor
    · rintro ⟨σ, ⟨pair, hpair, rfl⟩, hτ⟩
      obtain ⟨row, hrow, hpair⟩ := List.mem_flatMap.1 hpair
      obtain ⟨row', hrow', rfl⟩ := List.mem_map.1 hpair
      obtain ⟨hleft, hright⟩ := (Schema.extends_tuple_join_iff hnodup (h.wide row hrow)).1 hτ
      exact ⟨⟨_, ⟨row, hrow, rfl⟩, hleft⟩, _, ⟨row', hrow', rfl⟩, hright⟩
    · rintro ⟨⟨σ, ⟨row, hrow, rfl⟩, hleft⟩, σ', ⟨row', hrow', rfl⟩, hright⟩
      refine ⟨_, ⟨row ++ row', ?_, rfl⟩,
        (Schema.extends_tuple_join_iff hnodup (h.wide row hrow)).2 ⟨hleft, hright⟩⟩
      exact List.mem_flatMap.2 ⟨row, hrow, List.mem_map_of_mem hrow'⟩
  apply Set.ext
  intro τ
  simp only [extended, Set.mem_ofPred_eq, hrows,
    r.mem_sources_product (hs t ht).sources_eq]
  constructor
  · rintro ⟨⟨hrow, hadded⟩, hlacking, hdomain⟩
    refine ⟨hrow, fun u hu hmem hnot => ?_, hdomain⟩
    by_cases hname : u.name = t.name
    · rwa [eq_of_name_eq hu ht hname]
    · exact hlacking u hu hmem (not_or.2 ⟨hnot, hname⟩)
  · rintro ⟨hrow, hlacking, hdomain⟩
    exact ⟨⟨hrow, hlacking t ht hmem hnew⟩,
      fun u hu hmem hnot => hlacking u hu hmem (not_or.1 hnot).1, hdomain⟩

/-- A multiplication keeps what a result is extended to. -/
theorem Multiplied.extended_eq (hs : s.Rectangular) (h : s.Multiplied r r') (hr : r.Over s parts)
    {names : Sources} (hsubset : ∀ name ∈ r'.sources, name ∈ names) :
    s.extended names r' = s.extended names r := by
  induction h generalizing parts with
  | refl r => rfl
  | @product r r' t ht hnew h ih =>
    have hmem : t.name ∈ names :=
      hsubset _ (h.subset_sources hs ((r.mem_sources_product (hs t ht).sources_eq _).2 (.inr rfl)))
    rw [ih (over_product hs hr ht hnew) hsubset, extended_product hnames hs hr ht hnew hmem]

/-! ### Aligned operands -/

/-- A row has the same tuple in the order of the other operand. -/
theorem Reorders.tuple_valuesAt (h : Reorders left.schema right.schema mapping)
    (hleft : left.Over s parts) (hright : right.Over s parts')
    (hsources : ∀ name, name ∈ left.sources ↔ name ∈ right.sources) {row : Row}
    (hrow : row ∈ right.rows) :
    left.schema.tuple (row.valuesAt mapping) = right.schema.tuple row := by
  have hnodup := nodup_qualifiedNames hnames hleft
  have hnodup' := nodup_qualifiedNames hnames hright
  have hperm := (hleft.parts_perm hright hsources).flatMap_right (·.schema.qualifiedNames)
  have hextends : (right.schema.tuple row).Extends
      (left.schema.tuple (row.valuesAt mapping)) := by
    intro name v
    rw [Schema.tuple_eq_some_iff hnodup, Schema.tuple_eq_some_iff hnodup', List.mem_iff_getElem?]
    rintro ⟨k, hk⟩
    obtain ⟨hname, hvalue⟩ := List.getElem?_zip_eq_some.1 hk
    rw [Row.valuesAt, List.getElem?_map] at hvalue
    obtain ⟨i, hi, hvalue⟩ := Option.map_eq_some_iff.1 hvalue
    have hposition := congrArg (·[k]?) h
    simp only [List.getElem?_map, hi, hname, Option.map_some, Option.some.injEq] at hposition
    have hlt : i < row.length := by
      rw [hright.wide row hrow]
      exact h.lt_of_mem (List.mem_of_getElem? hi)
    rw [List.getElem?_eq_getElem hlt, Option.getD_some] at hvalue
    apply List.mem_of_getElem? (i := i)
    rw [List.getElem?_zip_eq_some]
    exact ⟨hposition, by rw [List.getElem?_eq_getElem hlt, hvalue]⟩
  refine hextends.eq (.refl _) fun name => ?_
  rw [Schema.tuple_ne_none_iff hnodup (h.length_valuesAt row),
    Schema.tuple_ne_none_iff hnodup' (hright.wide row hrow), hleft.names, hright.names,
    hperm.mem_iff]

end Separate

/-- Tables with plain and different column names, called like their schemas, are separate. -/
theorem separate_of_named (h : ∀ t ∈ s.tables, t.Named) : s.Separate := by
  have htexts : s.tables.flatMap (·.schema.qualifiedNames) = (labelsOf s.tables).map (·.text) := by
    rw [labelsOf, List.map_flatMap]
    exact List.flatMap_congr fun t ht => (h t ht).shows.qualifiedNames_eq
  rw [Separate, htexts]
  refine (nodup_labelsOf h s.nodup_names).map_on fun l hl l' hl' => ?_
  exact Label.eq_of_text_eq (plain_of_mem_labelsOf h hl) (plain_of_mem_labelsOf h hl')

end Scope

end RelStore
