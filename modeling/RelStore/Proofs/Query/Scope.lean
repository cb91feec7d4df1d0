import RelStore.Proofs.Except
import RelStore.Proofs.Query.Names

/-!
# References in a scope

In a scope of tables whose column names hold no point and differ, all labels are different
(`nodup_labelsOf`), and a reference that the scope resolves is the name of exactly one of them
(`Scope.resolve_ok`).
-/

namespace RelStore

/-- The column names of a table hold no point and differ, and its schema has the table's name. -/
structure Table.Named (t : Table) : Prop where
  table_eq : t.schema.table = t.name
  plain : ∀ c ∈ t.schema.columns, '.' ∉ c.name.toList
  nodup : t.schema.names.Nodup

/-! ### Labels of tables -/

namespace Table.Named

variable {t : Table} {l : Label}

theorem shows (h : t.Named) : t.schema.Shows t.labels :=
  Schema.shows_table h.table_eq h.plain

theorem plain_of_mem (h : t.Named) (hl : l ∈ t.labels) : '.' ∉ l.column.toList := by
  obtain ⟨c, hc, rfl⟩ := List.mem_map.1 hl
  exact h.plain c hc

theorem nodup_labels (h : t.Named) : t.labels.Nodup := by
  have hcolumns : t.labels.map (·.column) = t.schema.names := by
    rw [labels, List.map_map]
    rfl
  have hnodup : (t.labels.map (·.column)).Nodup := by
    rw [hcolumns]
    exact h.nodup
  exact List.Pairwise.of_map _ (fun l l' hne heq => hne (congrArg Label.column heq)) hnodup

end Table.Named

theorem table_of_mem_labels {t : Table} {l : Label} (hl : l ∈ t.labels) : l.table = t.name := by
  obtain ⟨c, -, rfl⟩ := List.mem_map.1 hl
  rfl

variable {tables : List Table}

theorem plain_of_mem_labelsOf (h : ∀ t ∈ tables, t.Named) {l : Label} (hl : l ∈ labelsOf tables) :
    '.' ∉ l.column.toList := by
  obtain ⟨t, ht, hl⟩ := List.mem_flatMap.1 hl
  exact (h t ht).plain_of_mem hl

theorem nodup_labelsOf (h : ∀ t ∈ tables, t.Named) (hnames : (tables.map (·.name)).Nodup) :
    (labelsOf tables).Nodup := by
  induction tables with
  | nil => exact .nil
  | cons t tables ih =>
    rw [List.forall_mem_cons] at h
    obtain ⟨hnew, hnames⟩ := List.nodup_cons.1 hnames
    have hcons : labelsOf (t :: tables) = t.labels ++ labelsOf tables := List.flatMap_cons
    rw [hcons, List.nodup_append]
    refine ⟨h.1.nodup_labels, ih h.2 hnames, ?_⟩
    rintro l hl l' hl' rfl
    obtain ⟨t', ht', hl'⟩ := List.mem_flatMap.1 hl'
    apply hnew
    have hname : t'.name = t.name := by
      rw [← table_of_mem_labels hl, table_of_mem_labels hl']
    exact List.mem_map.2 ⟨t', ht', hname⟩

/-! ### References -/

theorem isNamed_congr {r r' : ColumnRef} (h : toString r = toString r') (l : Label) :
    l.isNamed r = l.isNamed r' := by
  rw [Label.isNamed, h]
  rfl

theorem filter_isNamed_congr {r r' : ColumnRef} (h : toString r = toString r') (ls : List Label) :
    ls.filter (·.isNamed r) = ls.filter (·.isNamed r') :=
  List.filter_congr fun l _ => isNamed_congr h l

/-- The only element that satisfies a predicate is found once. -/
theorem filter_eq_singleton_of_nodup {α : Type} {p : α → Bool} {l : List α} {a : α}
    (hl : l.Nodup) (ha : a ∈ l) (h : ∀ b ∈ l, p b ↔ b = a) : l.filter p = [a] := by
  induction l with
  | nil => exact absurd ha List.not_mem_nil
  | cons b l ih =>
    obtain ⟨hb, hl⟩ := List.nodup_cons.1 hl
    rw [List.forall_mem_cons] at h
    by_cases heq : b = a
    · subst heq
      have hnil : l.filter p = [] := by
        rw [List.filter_eq_nil_iff]
        intro c hc hp
        rw [(h.2 c hc).1 hp] at hc
        exact hb hc
      rw [List.filter_cons_of_pos (h.1.2 rfl), hnil]
    · have hp : ¬ p b := fun hp => heq (h.1.1 hp)
      have hmem : a ∈ l := (List.mem_cons.1 ha).resolve_left (Ne.symm heq)
      rw [List.filter_cons_of_neg hp, ih hl hmem h.2]

/-- A full name is the name of no other label. -/
theorem filter_isNamed_of_point (h : ∀ t ∈ tables, t.Named)
    (hnames : (tables.map (·.name)).Nodup) {r : ColumnRef} (hpoint : '.' ∈ (toString r).toList)
    {l : Label} (hl : l ∈ labelsOf tables) (hnamed : l.isNamed r) :
    (labelsOf tables).filter (·.isNamed r) = [l] := by
  have htext : ∀ l : Label, l.isNamed r ↔ l.text = toString r := by
    intro l
    rw [Label.isNamed, if_pos hpoint, beq_iff_eq]
  apply filter_eq_singleton_of_nodup (nodup_labelsOf h hnames) hl
  intro l' hl'
  rw [htext]
  constructor
  · intro heq
    apply Label.eq_of_text_eq (plain_of_mem_labelsOf h hl') (plain_of_mem_labelsOf h hl)
    rw [heq, (htext l).1 hnamed]
  · rintro rfl
    exact (htext l').1 hnamed

namespace Scope

variable {s : Scope}

/-- Splitting a reference does not change its text. -/
theorem toString_splitReference (r : ColumnRef) : toString (splitReference r) = toString r := by
  obtain ⟨table, name⟩ := r
  cases table with
  | some table => rfl
  | none =>
    cases hcut : Text.cutFirst? '.' name with
    | none => simp only [splitReference, hcut]
    | some p =>
      have hname : name = Schema.dotted p.1 p.2 := eq_dotted_of_cutFirst? hcut
      simp only [splitReference, hcut]
      exact hname.symm

/-- The table of a name, if there is one, is a table of the scope. -/
theorem table_eq_ok {name : String} {t : Table} (h : s.table name = .ok t) :
    t ∈ s.tables ∧ t.name = name := by
  unfold table at h
  split at h
  · next hfind =>
    cases h
    exact ⟨List.mem_of_find?_eq_some hfind, by simpa using List.find?_some hfind⟩
  · contradiction

/-- What the search for a name has found in the tables that it has looked at. -/
def Found (r : ColumnRef) (seen : List Table) (found : Option Place) : Prop :=
  match found with
  | none => (labelsOf seen).filter (·.isNamed r) = []
  | some place => place.table ∈ seen ∧ ∃ l, place.table.labels[place.column]? = some l ∧
      (labelsOf seen).filter (·.isNamed r) = [l]

theorem labelsOf_append (ts ts' : List Table) :
    labelsOf (ts ++ ts') = labelsOf ts ++ labelsOf ts' :=
  List.flatMap_append

theorem found_searchIn {r : ColumnRef} (hnone : r.table = none) {seen : List Table} {t : Table}
    (ht : t.Named) {found found' : Option Place} (h : Found r seen found)
    (hstep : searchIn r.name found t = .ok found') : Found r (seen ++ [t]) found' := by
  have hlabels : (labelsOf (seen ++ [t])).filter (·.isNamed r) =
      (labelsOf seen).filter (·.isNamed r) ++ t.labels.filter (·.isNamed r) := by
    have hsingle : labelsOf [t] = t.labels := by simp [labelsOf]
    rw [labelsOf_append, List.filter_append, hsingle]
  unfold searchIn at hstep
  rw [← hnone] at hstep
  split at hstep
  · next column hresolve =>
    obtain ⟨l, hl, hfilter⟩ := ht.shows.resolve_eq_ok_iff.1 hresolve
    cases found with
    | some place => simp at hstep
    | none =>
      simp only [Option.isSome_none, Bool.false_eq_true, if_false] at hstep
      cases hstep
      have hnil : (labelsOf seen).filter (·.isNamed r) = [] := h
      refine ⟨by simp, l, hl, ?_⟩
      rw [hlabels, hnil, hfilter]
      rfl
  · next hresolve =>
    cases hstep
    have hnil := ht.shows.resolve_notFound_iff.1 ⟨_, hresolve⟩
    rw [hnil, List.append_nil] at hlabels
    cases found with
    | none => exact hlabels.trans h
    | some place =>
      obtain ⟨hmem, l, hl, hfilter⟩ := h
      exact ⟨List.mem_append_left _ hmem, l, hl, hlabels.trans hfilter⟩
  · contradiction

/-- A reference that the scope resolves is the name of exactly one label. -/
theorem resolve_ok (hs : ∀ t ∈ s.tables, t.Named) {r : ColumnRef} {place : Place}
    (h : s.resolve r = .ok place) :
    place.table ∈ s.tables ∧ ∃ l, place.table.labels[place.column]? = some l ∧
      (labelsOf s.tables).filter (·.isNamed r) = [l] := by
  rw [filter_isNamed_congr (toString_splitReference r).symm]
  simp only [resolve] at h
  generalize splitReference r = r' at h ⊢
  obtain ⟨table, name⟩ := r'
  cases table with
  | some table =>
    obtain ⟨t, htable, h⟩ := bind_eq_ok_iff.1 h
    obtain ⟨i, hresolve, h⟩ := bind_eq_ok_iff.1 h
    cases h
    have ht := (table_eq_ok htable).1
    have hshows := (hs t ht).shows.resolve_eq_ok_iff (r := ⟨some table, name⟩) (i := i)
    obtain ⟨l, hl, hown⟩ := hshows.1 hresolve
    have hnamed : l ∈ t.labels.filter (·.isNamed ⟨some table, name⟩) := by
      rw [hown]
      exact List.mem_singleton_self l
    rw [List.mem_filter] at hnamed
    have hpoint : '.' ∈ (toString (⟨some table, name⟩ : ColumnRef)).toList := by
      rw [toString_reference]
      exact point_mem_dotted table name
    have hmem : l ∈ labelsOf s.tables := List.mem_flatMap.2 ⟨t, ht, hnamed.1⟩
    exact ⟨ht, l, hl, filter_isNamed_of_point hs s.nodup_names hpoint hmem hnamed.2⟩
  | none =>
    simp only [search] at h
    obtain ⟨found, hloop, h⟩ := bind_eq_ok_iff.1 h
    have hstart : Found ⟨none, name⟩ [] none := rfl
    have hfound := foldlM_induction (motive := Found ⟨none, name⟩) hstart
      (fun seen t rest c c' hsplit hc hstep => by
        have ht : t ∈ s.tables := by
          rw [← hsplit]
          simp
        exact found_searchIn rfl (hs t ht) hc hstep) hloop
    cases found with
    | none => contradiction
    | some place' =>
      cases h
      exact hfound

end Scope

end RelStore
