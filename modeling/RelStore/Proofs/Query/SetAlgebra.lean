import RelStore.Proofs.Query.Columns

/-!
# The algebra of results

The results of a scope (`Scope.Obtained`) form a set algebra.  A union has the tuples of both
operands, each extended by the tables that only the other comes from (`Scope.computes_union`), and
an intersection those that both have (`Scope.computes_intersect`).  What a result is extended to
determines it, up to the order of its columns and rows (`Scope.Yields.sameResult`); so the laws of
sets hold of results.

`Scope.Yields` says what a computation of results is extended to, and `Scope.setAlgebra` is the main
result.
-/

namespace RelStore

/-- Two results with the same tuples from the same tables, whatever the order of columns and
rows. -/
structure Relation.Alike (r r' : Relation) : Prop where
  sources_eq : r.sources = r'.sources
  columns_perm : r.schema.qualifiedColumns.Perm r'.schema.qualifiedColumns
  tuples_eq : r.tuples = r'.tuples

/-- Two computations that succeed with results that are alike. -/
def SameResult (e e' : Except Error Relation) : Prop :=
  ∃ r r', e = .ok r ∧ e' = .ok r' ∧ r.Alike r'

namespace Scope

variable {s : Scope} {parts parts' : List Table} {l r u left right : Relation} {mapping : List Nat}
  {names : Sources}

/-! ### Results -/

/-- The results that can be obtained from a scope. -/
inductive Obtained (s : Scope) : Relation → Prop
  | query {c : Condition} {r : Relation} (h : s.query c = .ok r) : Obtained s r
  | join {t t' : Table} (ht : t ∈ s.tables) (ht' : t' ∈ s.tables) (hname : t.name ≠ t'.name)
      (on : Option JoinOn) : Obtained s (t.join t' on)
  | joinTable {r : Relation} {t : Table} (hr : Obtained s r) (ht : t ∈ s.tables)
      (hnew : t.name ∉ r.sources) (on : Option JoinOn) : Obtained s ((Table.ofRelation r).join t on)
  | union {l r u : Relation} (hl : Obtained s l) (hr : Obtained s r) (h : s.union l r = .ok u) :
      Obtained s u
  | intersect {l r u : Relation} (hl : Obtained s l) (hr : Obtained s r)
      (h : s.intersect l r = .ok u) : Obtained s u

/-- A table is its own source, so joins with it are joins of different tables. -/
theorem Obtained.derived (hs : s.Rectangular) (h : s.Obtained r) : s.Derived (.ofRelation r) := by
  induction h with
  | query h => exact .query h
  | join ht ht' hname on =>
    refine .join (.table ht) (.table ht') (fun name hmem hmem' => hname ?_) on
    rw [(hs _ ht).mem_sources] at hmem
    rw [(hs _ ht').mem_sources] at hmem'
    exact hmem.symm.trans hmem'
  | joinTable hr ht hnew on ih =>
    refine .join ih (.table ht) (fun name hmem hmem' => hnew ?_) on
    rwa [← ((hs _ ht).mem_sources name).1 hmem']
  | union hl hr h ihl ihr => exact .union ihl ihr h
  | intersect hl hr h ihl ihr => exact .intersect ihl ihr h

/-- A result comes from tables of the scope. -/
theorem Obtained.over (hs : s.Rectangular) (h : s.Obtained r) : ∃ parts, r.Over s parts := by
  obtain ⟨parts, hover⟩ := (h.derived hs).over hs
  exact ⟨parts, hover.result⟩

/-! ### Combined results -/

section Sources

variable (h : s.Aligned l r left right mapping)

include h

theorem Aligned.left_sources : left.sources = l.sources.union r.sources :=
  Sources.eq_of_mem_iff fun name => (h.mem_left name).trans Sources.mem_union.symm

theorem Aligned.right_sources : right.sources = l.sources.union r.sources :=
  Sources.eq_of_mem_iff fun name => (h.mem_right name).trans Sources.mem_union.symm

theorem Aligned.union_sources : left.sources.union right.sources = l.sources.union r.sources := by
  apply Sources.eq_of_mem_iff
  intro name
  rw [Sources.mem_union, h.left_sources, h.right_sources, or_self]

end Sources

theorem extended_of_tuples_eq_union (hl : l.sources = u.sources) (hr : r.sources = u.sources)
    (h : u.tuples = l.tuples ∪ r.tuples) :
    s.extended names u = s.extended names l ∪ s.extended names r := by
  apply Set.ext
  intro τ
  simp only [extended, hl, hr, h, Set.mem_ofPred_eq, Set.mem_union, or_and_right, exists_or]

/-- Where all tuples of both operands have values at the same names, a tuple extends at most one. -/
theorem extended_of_tuples_eq_inter (hl : l.sources = u.sources) (hr : r.sources = u.sources)
    (h : u.tuples = l.tuples ∩ r.tuples)
    (hdomain : ∀ σ ∈ l.tuples, ∀ σ' ∈ r.tuples, ∀ name, σ name ≠ none ↔ σ' name ≠ none) :
    s.extended names u = s.extended names l ∩ s.extended names r := by
  apply Set.ext
  intro τ
  simp only [extended, hl, hr, h, Set.mem_ofPred_eq, Set.mem_inter_iff]
  constructor
  · rintro ⟨⟨σ, ⟨hσ, hσ'⟩, hτ⟩, hrest⟩
    exact ⟨⟨⟨σ, hσ, hτ⟩, hrest⟩, ⟨σ, hσ', hτ⟩, hrest⟩
  · rintro ⟨⟨⟨σ, hσ, hτ⟩, hrest⟩, ⟨σ', hσ', hτ'⟩, -⟩
    obtain rfl := hτ.eq hτ' (hdomain σ hσ σ' hσ')
    exact ⟨⟨σ, ⟨hσ, hσ'⟩, hτ⟩, hrest⟩

section Combined

variable (hs : s.Rectangular) (hnames : s.Separate) (hl : l.Over s parts) (hr : r.Over s parts')

include hs hnames hl hr

/-- The rows of the second operand, under the columns of the first. -/
theorem Aligned.mem_tuples_right (h : s.Aligned l r left right mapping) (τ : Tuple) :
    τ ∈ right.tuples ↔
      ∃ row ∈ right.rows.map (Row.valuesAt mapping), left.schema.tuple row = τ := by
  obtain ⟨ps, hleft⟩ := h.left_multiplied.over hs hl
  obtain ⟨ps', hright⟩ := h.right_multiplied.over hs hr
  have htuple : ∀ row ∈ right.rows,
      left.schema.tuple (row.valuesAt mapping) = right.schema.tuple row := fun row hrow =>
    h.reorders.tuple_valuesAt hnames hleft hright
      (fun name => (h.mem_left name).trans (h.mem_right name).symm) hrow
  constructor
  · rintro ⟨row, hrow, rfl⟩
    exact ⟨_, List.mem_map_of_mem hrow, htuple row hrow⟩
  · rintro ⟨row', hrow', rfl⟩
    obtain ⟨row, hrow, rfl⟩ := List.mem_map.1 hrow'
    exact ⟨row, hrow, (htuple row hrow).symm⟩

/-- What a combination of aligned operands is extended to, as an operation on the operands. -/
theorem Aligned.extended_eq (h : s.Aligned l r left right mapping)
    {op : Set Tuple → Set Tuple → Set Tuple} (hsources : u.sources = l.sources.union r.sources)
    (hop : ∀ names, s.extended names u = op (s.extended names left) (s.extended names right))
    (names : Sources) (hsubset : ∀ name ∈ u.sources, name ∈ names) :
    s.extended names u = op (s.extended names l) (s.extended names r) := by
  rw [hsources] at hsubset
  have hleft : s.extended names left = s.extended names l := by
    refine h.left_multiplied.extended_eq hnames hs hl ?_
    rwa [h.left_sources]
  have hright : s.extended names right = s.extended names r := by
    refine h.right_multiplied.extended_eq hnames hs hr ?_
    rwa [h.right_sources]
  rw [hop, hleft, hright]

end Combined

/-- A combination of results that comes to an operation on what the operands are extended to. -/
def Computes (s : Scope) (combine : Relation → Relation → Except Error Relation)
    (op : Set Tuple → Set Tuple → Set Tuple) : Prop :=
  ∀ ⦃l r : Relation⦄ ⦃parts parts' : List Table⦄, l.Over s parts → r.Over s parts' →
    ∃ u parts, combine l r = .ok u ∧ u.Over s parts ∧ u.rows.Nodup ∧
      u.sources = l.sources.union r.sources ∧
      ∀ names : Sources, (∀ name ∈ u.sources, name ∈ names) →
        s.extended names u = op (s.extended names l) (s.extended names r)

section Computes

variable (hs : s.Rectangular) (hnames : s.Separate)

include hs hnames

/-- A union has the rows of either operand, each extended by the tables that only the other comes
from. -/
theorem computes_union : s.Computes s.union (· ∪ ·) := by
  intro l r parts parts' hl hr
  obtain ⟨left, right, mapping, haligned, hunion⟩ := exists_union hs hl hr
  obtain ⟨ps, hover⟩ := haligned.over hs hl fun row hrow =>
    List.mem_append.1 (Row.mem_distinct.1 hrow)
  have hsources := haligned.union_sources
  refine ⟨_, ps, hunion, hover, Row.nodup_distinct _, hsources,
    haligned.extended_eq hs hnames hl hr hsources fun names => ?_⟩
  refine extended_of_tuples_eq_union (haligned.left_sources.trans hsources.symm)
    (haligned.right_sources.trans hsources.symm) ?_
  apply Set.ext
  intro τ
  rw [Set.mem_union, haligned.mem_tuples_right hs hnames hl hr]
  simp only [Relation.tuples, Set.mem_ofPred_eq, Row.mem_distinct, List.mem_append, or_and_right,
    exists_or]

/-- An intersection has the rows that both operands have, once they are extended. -/
theorem computes_intersect : s.Computes s.intersect (· ∩ ·) := by
  intro l r parts parts' hl hr
  obtain ⟨left, right, mapping, haligned, hintersect⟩ := exists_intersect hs hl hr
  obtain ⟨ps, hover⟩ := haligned.over hs hl fun row hrow =>
    .inl (List.mem_filter.1 (Row.mem_distinct.1 hrow)).1
  have hsources := haligned.union_sources
  refine ⟨_, ps, hintersect, hover, Row.nodup_distinct _, hsources,
    haligned.extended_eq hs hnames hl hr hsources fun names => ?_⟩
  obtain ⟨ps, hleftOver⟩ := haligned.left_multiplied.over hs hl
  obtain ⟨ps', hrightOver⟩ := haligned.right_multiplied.over hs hr
  refine extended_of_tuples_eq_inter (haligned.left_sources.trans hsources.symm)
    (haligned.right_sources.trans hsources.symm) ?_ ?_
  · apply Set.ext
    intro τ
    rw [Set.mem_inter_iff, haligned.mem_tuples_right hs hnames hl hr]
    simp only [Relation.tuples, Set.mem_ofPred_eq, Row.mem_distinct, List.mem_filter,
      Std.HashSet.contains_iff_mem, Std.HashSet.mem_ofList, List.contains_iff_mem]
    constructor
    · rintro ⟨row, ⟨hrow, hrow'⟩, rfl⟩
      exact ⟨⟨row, hrow, rfl⟩, row, hrow', rfl⟩
    · rintro ⟨⟨row, hrow, rfl⟩, row', hrow', heq⟩
      obtain rfl : row' = row := by
        refine Schema.tuple_injective (nodup_qualifiedNames hnames hleftOver) ?_
          (hleftOver.wide row hrow) heq
        obtain ⟨row', -, rfl⟩ := List.mem_map.1 hrow'
        exact haligned.reorders.length_valuesAt row'
      exact ⟨row', ⟨hrow, hrow'⟩, rfl⟩
  · rintro - ⟨row, hrow, rfl⟩ - ⟨row', hrow', rfl⟩ name
    rw [tuple_ne_none_iff_exists hnames hleftOver hrow,
      tuple_ne_none_iff_exists hnames hrightOver hrow', haligned.left_sources,
      haligned.right_sources]

end Computes

/-! ### What computations yield -/

/-- The computation succeeds with a result from the named tables that is extended to given
tuples. -/
def Yields (s : Scope) (e : Except Error Relation) (sources : Set String)
    (X : Sources → Set Tuple) : Prop :=
  ∃ u parts, e = .ok u ∧ u.Over s parts ∧ (∀ name, name ∈ u.sources ↔ name ∈ sources) ∧
    ∀ names : Sources, (∀ name ∈ u.sources, name ∈ names) → s.extended names u = X names

variable {e e' : Except Error Relation} {S S' : Set String} {X X' : Sources → Set Tuple}
  {combine combine' : Relation → Relation → Except Error Relation}
  {op op' : Set Tuple → Set Tuple → Set Tuple}

theorem yields_ok (hr : r.Over s parts) :
    s.Yields (.ok r) {name | name ∈ r.sources} fun names => s.extended names r :=
  ⟨r, parts, rfl, hr, fun _ => Iff.rfl, fun _ _ => rfl⟩

theorem Computes.yields (h : s.Computes combine op) (hl : s.Yields e S X)
    (hr : s.Yields e' S' X') :
    s.Yields (do combine (← e) (← e')) (S ∪ S') fun names => op (X names) (X' names) := by
  obtain ⟨l, parts, rfl, hl, hlsources, hlextended⟩ := hl
  obtain ⟨r, parts', rfl, hr, hrsources, hrextended⟩ := hr
  obtain ⟨u, ps, hu, hover, -, hsources, hextended⟩ := h hl hr
  have hmem : ∀ name, name ∈ u.sources ↔ name ∈ l.sources ∨ name ∈ r.sources := by
    intro name
    rw [hsources, Sources.mem_union]
  refine ⟨u, ps, hu, hover, fun name => ?_, fun names hsubset => ?_⟩
  · rw [hmem, hlsources, hrsources, Set.mem_union]
  · have hleft := hlextended names fun name hname => hsubset name ((hmem name).2 (.inl hname))
    have hright := hrextended names fun name hname => hsubset name ((hmem name).2 (.inr hname))
    rw [hextended names hsubset, hleft, hright]

/-- Computations that yield the same from the same tables have the same result. -/
theorem Yields.sameResult (hnames : s.Separate) (h : s.Yields e S X) (h' : s.Yields e' S' X')
    (hS : S = S') (hX : ∀ names, X names = X' names) : SameResult e e' := by
  obtain ⟨r, parts, rfl, hr, hsources, hextended⟩ := h
  obtain ⟨r', parts', rfl, hr', hsources', hextended'⟩ := h'
  have hmem : ∀ name, name ∈ r.sources ↔ name ∈ r'.sources := by
    intro name
    rw [hsources, hsources', hS]
  have heq : r.sources = r'.sources := Sources.eq_of_mem_iff hmem
  refine ⟨r, r', rfl, rfl, heq, ?_, ?_⟩
  · rw [hr.columns, hr'.columns]
    exact (hr.parts_perm hr' hmem).flatMap_right _
  · rw [← extended_sources hnames hr, ← extended_sources hnames hr', ← heq,
      hextended _ fun _ hname => hname, hX, hextended' _ fun name hname => (hmem name).2 hname]

/-- Results combined one after the other. -/
theorem Computes.yields_foldlM (h : s.Computes combine op) {rs : List Relation}
    (hrs : ∀ l ∈ rs, ∃ parts, l.Over s parts) (hr : s.Yields (.ok r) S X) :
    s.Yields (rs.foldlM combine r) (S ∪ {name | ∃ l ∈ rs, name ∈ l.sources}) fun names =>
      (rs.map (s.extended names)).foldl op (X names) := by
  induction rs generalizing r S X with
  | nil =>
    have hunion : S ∪ {name | ∃ l ∈ ([] : List Relation), name ∈ l.sources} = S := by simp
    rw [hunion]
    exact hr
  | cons l rs ih =>
    rw [List.forall_mem_cons] at hrs
    obtain ⟨⟨parts, hl⟩, hrs⟩ := hrs
    have hstep : s.Yields (combine r l) _ _ := h.yields hr (yields_ok hl)
    obtain ⟨u, hu⟩ : ∃ u, combine r l = .ok u := by
      obtain ⟨u, -, hu, -⟩ := hstep
      exact ⟨u, hu⟩
    rw [hu] at hstep
    have hunion : S ∪ {name | ∃ l' ∈ l :: rs, name ∈ l'.sources} =
        S ∪ {name | name ∈ l.sources} ∪ {name | ∃ l' ∈ rs, name ∈ l'.sources} := by
      apply Set.ext
      intro name
      simp [or_assoc]
    rw [List.foldlM_cons, hu, hunion]
    exact ih hrs hstep

/-! ### Laws -/

/-- A combination of results is defined, has the tuples that an operation on sets gives, and obeys
the laws of such operations. -/
structure Lawful (s : Scope) (combine : Relation → Relation → Except Error Relation)
    (combineAll : List Relation → Except Error Relation)
    (op : Set Tuple → Set Tuple → Set Tuple) : Prop where
  exists_eq : ∀ ⦃l r⦄, s.Obtained l → s.Obtained r →
    ∃ u, combine l r = .ok u ∧ u.rows.Nodup ∧ u.sources = l.sources.union r.sources ∧
      u.tuples = op (s.extended u.sources l) (s.extended u.sources r)
  comm : ∀ ⦃l r⦄, s.Obtained l → s.Obtained r → SameResult (combine l r) (combine r l)
  assoc : ∀ ⦃l r q⦄, s.Obtained l → s.Obtained r → s.Obtained q →
    SameResult (do combine (← combine l r) q) (do combine l (← combine r q))
  idem : ∀ ⦃l⦄, s.Obtained l → SameResult (combine l l) (.ok l)
  all_perm : ∀ ⦃rs rs'⦄, rs ≠ [] → (∀ r ∈ rs, s.Obtained r) → rs.Perm rs' →
    SameResult (combineAll rs) (combineAll rs')

/-- One combination of results distributes over another. -/
def Distributes (s : Scope)
    (combine combine' : Relation → Relation → Except Error Relation) : Prop :=
  ∀ ⦃l r q⦄, s.Obtained l → s.Obtained r → s.Obtained q →
    SameResult (do combine l (← combine' r q)) (do combine' (← combine l r) (← combine l q))

section Laws

variable (hs : s.Rectangular) (hnames : s.Separate)

include hs

theorem Obtained.yields (h : s.Obtained r) :
    s.Yields (.ok r) {name | name ∈ r.sources} fun names => s.extended names r := by
  obtain ⟨parts, hover⟩ := h.over hs
  exact yields_ok hover

include hnames

theorem Computes.lawful [Std.Commutative op] [Std.Associative op] (h : s.Computes combine op)
    (hidem : ∀ X, op X X = X) {unit : Set Tuple} (hunit : ∀ X, op unit X = X)
    {combineAll : List Relation → Except Error Relation}
    (hall : ∀ r rs, combineAll (r :: rs) = rs.foldlM combine r) :
    s.Lawful combine combineAll op where
  exists_eq := by
    intro l r hl hr
    obtain ⟨parts, hl⟩ := hl.over hs
    obtain ⟨parts', hr⟩ := hr.over hs
    obtain ⟨u, ps, hu, hover, hnodup, hsources, hextended⟩ := h hl hr
    refine ⟨u, hu, hnodup, hsources, ?_⟩
    rw [← extended_sources hnames hover, hextended _ fun _ hname => hname]
  comm l r hl hr := by
    have hleft := h.yields (hl.yields hs) (hr.yields hs)
    have hright := h.yields (hr.yields hs) (hl.yields hs)
    exact hleft.sameResult hnames hright (Set.union_comm _ _) fun _ => Std.Commutative.comm _ _
  assoc l r q hl hr hq := by
    have hleft := h.yields (h.yields (hl.yields hs) (hr.yields hs)) (hq.yields hs)
    have hright := h.yields (hl.yields hs) (h.yields (hr.yields hs) (hq.yields hs))
    exact hleft.sameResult hnames hright (Set.union_assoc _ _ _) fun _ =>
      Std.Associative.assoc _ _ _
  idem l hl := by
    have hleft := h.yields (hl.yields hs) (hl.yields hs)
    exact hleft.sameResult hnames (hl.yields hs) (Set.union_self _) fun _ => hidem _
  all_perm := by
    -- What all results yield together does not depend on which of them is the first.
    have hyields : ∀ {rs}, rs ≠ [] → (∀ r ∈ rs, s.Obtained r) →
        s.Yields (combineAll rs) {name | ∃ r ∈ rs, name ∈ r.sources} fun names =>
          (rs.map (s.extended names)).foldl op unit := by
      intro rs hne hrs
      obtain ⟨r, rs, rfl⟩ := List.exists_cons_of_ne_nil hne
      rw [List.forall_mem_cons] at hrs
      have hfold := h.yields_foldlM (fun l hl => (hrs.2 l hl).over hs) (hrs.1.yields hs)
      have hunion : {name | ∃ l ∈ r :: rs, name ∈ l.sources} =
          {name | name ∈ r.sources} ∪ {name | ∃ l ∈ rs, name ∈ l.sources} := by
        apply Set.ext
        intro name
        simp
      rw [hall, hunion]
      simpa only [List.map_cons, List.foldl_cons, hunit] using hfold
    intro rs rs' hne hrs hperm
    have hne' : rs' ≠ [] := fun heq => hne (heq ▸ hperm).eq_nil
    have hrs' : ∀ r ∈ rs', s.Obtained r := fun r hr => hrs r (hperm.mem_iff.2 hr)
    refine (hyields hne hrs).sameResult hnames (hyields hne' hrs') ?_ fun names => ?_
    · apply Set.ext
      intro name
      simp only [Set.mem_ofPred_eq, hperm.mem_iff]
    · exact (hperm.map _).foldl_op_eq

theorem Computes.distributes (h : s.Computes combine op) (h' : s.Computes combine' op')
    (hdistrib : ∀ X Y Z, op X (op' Y Z) = op' (op X Y) (op X Z)) :
    s.Distributes combine combine' := by
  intro l r q hl hr hq
  have hleft := h.yields (hl.yields hs) (h'.yields (hr.yields hs) (hq.yields hs))
  have hright := h'.yields (h.yields (hl.yields hs) (hr.yields hs))
    (h.yields (hl.yields hs) (hq.yields hs))
  exact hleft.sameResult hnames hright (Set.union_union_distrib_left _ _ _) fun _ =>
    hdistrib _ _ _

/-- Union and intersection of the results of a scope always succeed, and form an algebra of sets
over the results extended by the tables that they lack; such an extension is what a product
gives. -/
theorem setAlgebra : s.Lawful s.union s.unionAll (· ∪ ·) ∧
    s.Lawful s.intersect s.intersectAll (· ∩ ·) ∧
    s.Distributes s.union s.intersect ∧ s.Distributes s.intersect s.union ∧
    ∀ ⦃r : Relation⦄ ⦃names : List String⦄, s.Obtained r → names.Nodup →
      (∀ name ∈ names, name ∈ s.names ∧ name ∉ r.sources) →
      ∃ r', s.extend r names = .ok r' ∧
        (∀ name, name ∈ r'.sources ↔ name ∈ r.sources ∨ name ∈ names) ∧
        r'.tuples = s.extended r'.sources r := by
  have hunion := computes_union hs hnames
  have hintersect := computes_intersect hs hnames
  refine ⟨hunion.lawful hs hnames Set.union_self Set.empty_union fun _ _ => rfl,
    hintersect.lawful hs hnames Set.inter_self Set.univ_inter fun _ _ => rfl,
    hunion.distributes hs hnames hintersect Set.union_inter_distrib_left,
    hintersect.distributes hs hnames hunion Set.inter_union_distrib_left, ?_⟩
  intro r names hr hnodup hlacking
  obtain ⟨parts, hover⟩ := hr.over hs
  obtain ⟨r', hextend, hmultiplied, hsources⟩ := exists_extend hs
    (fun name hname => (hlacking name hname).1) hnodup fun name hname => (hlacking name hname).2
  obtain ⟨parts', hover'⟩ := hmultiplied.over hs hover
  refine ⟨r', hextend, hsources, ?_⟩
  rw [← extended_sources hnames hover',
    hmultiplied.extended_eq hnames hs hover fun _ hname => hname]

end Laws

/-- A result of one table beside one of both, in either order and nested. -/
theorem setAlgebra_mixed :
    let a : Table := { Header.base "a" ⟨"a", [⟨"x", .int⟩, ⟨"y", .int⟩], none⟩ with
      storage := .list #[] }
    let a := (a.insertAll [[.int 1, .int 10], [.int 2, .int 20]]).2
    let s : Scope := ⟨[a, a.aliased "b"], by decide⟩
    let one : Condition := .compare (.column ⟨some "a", "x"⟩) .eq (.constant (.int 1))
    let below : Condition := .compare (.column ⟨some "b", "x"⟩) .lt (.column ⟨some "a", "y"⟩)
    s.Rectangular ∧ s.Separate ∧ ∃ l r, s.query one = .ok l ∧ s.query below = .ok r ∧
      l.sources ≠ r.sources ∧ SameResult (s.union l r) (s.union r l) ∧
      SameResult (do s.union l (← s.intersect r l))
        (do s.intersect (← s.union l r) (← s.union l l)) := by
  intro empty a s one below
  have ha : a.Filled fun s row => row.length = s.width := by
    refine .insertAll (.empty (?_ : Table.empty .list "a" empty.schema none [] .standard =
      .ok empty)) _ ?_
    · rfl
    · decide
  have hs : s.Rectangular :=
    List.forall_mem_cons.2 ⟨⟨ha, rfl⟩, List.forall_mem_singleton.2 ⟨ha.aliased "b", rfl⟩⟩
  have hnames : s.Separate := by
    refine separate_of_named (List.forall_mem_cons.2 ⟨⟨rfl, ?_, ?_⟩,
      List.forall_mem_singleton.2 ⟨rfl, ?_, ?_⟩⟩) <;> decide
  obtain ⟨l, hl⟩ : ∃ l, s.query one = .ok l := ⟨_, rfl⟩
  obtain ⟨r, hr⟩ : ∃ r, s.query below = .ok r := ⟨_, rfl⟩
  have hne : l.sources ≠ r.sources := by
    cases hl
    cases hr
    decide
  obtain ⟨hunion, -, hdistributes, -, -⟩ := setAlgebra hs hnames
  exact ⟨hs, hnames, l, r, hl, hr, hne, hunion.comm (.query hl) (.query hr),
    hdistributes (.query hl) (.query hr) (.query hl)⟩

/-- Results of tables with a row narrower than the schema, with two columns of one name, and over
schemas of one name: the union of a result with itself fails, or has a row more. -/
theorem union_self_irregular :
    let table (name : String) (s : Schema) (row : Row) : Table :=
      { Header.base name s with storage := .list #[row] }
    let x : Column := ⟨"x", .int⟩
    let narrow : Scope := ⟨[table "a" ⟨"a", [x, ⟨"y", .int⟩], none⟩ [.int 1]], by decide⟩
    let repeated : Scope := ⟨[table "a" ⟨"a", [x, x], none⟩ [.int 1, .int 2]], by decide⟩
    let shared : Scope :=
      ⟨[table "a" ⟨"t", [x], none⟩ [.int 1], table "b" ⟨"t", [x], none⟩ [.int 2]], by decide⟩
    (∀ s ∈ [narrow, repeated, shared], ∀ t ∈ s.tables, t.Filled (fun _ _ => True) ∧
      t.sources = .single t.name ∧ ∀ c ∈ t.schema.columns, '.' ∉ c.name.toList) ∧
    (∃ r, narrow.Obtained r ∧ narrow.union r r = .error (.columnOutOfBounds 1)) ∧
    ∀ s ∈ [repeated, shared], ∃ r, s.Obtained r ∧ r.rows = [[.int 1, .int 2]] ∧
      ∃ u, s.union r r = .ok u ∧ [.int 1, .int 1] ∈ u.rows := by
  intro table x narrow repeated shared
  have htable : ∀ name s row, (∀ c ∈ s.columns, '.' ∉ c.name.toList) →
      (table name s row).Filled (fun _ _ => True) ∧
        (table name s row).sources = .single (table name s row).name ∧
        ∀ c ∈ (table name s row).schema.columns, '.' ∉ c.name.toList := by
    intro name s row hplain
    have hempty : Table.empty .list name s none [] .standard =
        .ok { Header.base name s with storage := .list #[] } := rfl
    exact ⟨(Table.Filled.empty hempty).insert row trivial, rfl, hplain⟩
  have hunion : ∀ {s : Scope} {r : Relation} {row : Row},
      s.alignRows r r = .ok (r, r.sources.union r.sources, [row]) →
        ∃ u, s.union r r = .ok u ∧ row ∈ u.rows := by
    intro s r row halign
    refine ⟨{ r with
      sources := r.sources.union r.sources, rows := Row.distinct (r.rows ++ [row]) }, ?_, ?_⟩
    · rw [union, halign]
      rfl
    · exact Row.mem_distinct.2 (by simp)
  let always : Condition := .compare (.constant (.int 1)) .eq (.constant (.int 1))
  obtain ⟨r, hr⟩ : ∃ r, narrow.query always = .ok r := ⟨_, rfl⟩
  refine ⟨?_, ⟨r, .query hr, ?_⟩, ?_⟩
  · refine List.forall_mem_cons.2 ⟨List.forall_mem_singleton.2 (htable _ _ _ ?_),
      List.forall_mem_cons.2 ⟨List.forall_mem_singleton.2 (htable _ _ _ ?_),
        List.forall_mem_singleton.2 (List.forall_mem_cons.2 ⟨htable _ _ _ ?_,
          List.forall_mem_singleton.2 (htable _ _ _ ?_)⟩)⟩⟩ <;> decide
  · cases hr
    decide +kernel
  · refine List.forall_mem_cons.2 ⟨?_, List.forall_mem_singleton.2 ?_⟩
    · obtain ⟨r, hr⟩ : ∃ r, repeated.query always = .ok r := ⟨_, rfl⟩
      refine ⟨r, .query hr, ?_⟩
      cases hr
      exact ⟨rfl, hunion (by decide +kernel)⟩
    · refine ⟨_, .join List.mem_cons_self (List.mem_cons_of_mem _ List.mem_cons_self) ?_ none, rfl,
        hunion (by decide +kernel)⟩
      decide

end Scope

end RelStore
