import Mathlib.Data.Multiset.Bind
import RelStore.Proofs.Query.Scope

/-!
# Environments

The environments of tables are built up table by table (`environments_append`), and the order of the
tables matters for the order of the cells only (`exists_mem_environments_perm`,
`map_environments_perm`).  An environment of different labels gives the same values in any order of
its cells (`Env.project_perm`).
-/

namespace RelStore

/-- The values of an environment in their order. -/
def Env.row (env : Env) : Row :=
  env.map (·.2)

/-- The labels of an environment. -/
def Env.labels (env : Env) : List Label :=
  env.map (·.1)

theorem Env.zip_labels_row (env : Env) : env.labels.zip env.row = env := by
  rw [labels, row, ← List.unzip_fst, ← List.unzip_snd]
  exact List.zip_unzip env

/-! ### Building up -/

/-- All rows have as many values as the schema has columns. -/
def Table.Wide (t : Table) : Prop :=
  ∀ row ∈ t.records, row.length = t.schema.width

namespace Table

variable {t : Table} {row : Row}

theorem length_labels (t : Table) : t.labels.length = t.schema.width :=
  List.length_map _

theorem Wide.labels_cells (h : t.Wide) (hrow : row ∈ t.records) :
    Env.labels (t.cells row) = t.labels := by
  apply List.map_fst_zip
  rw [length_labels, h row hrow]

theorem Wide.row_cells (h : t.Wide) (hrow : row ∈ t.records) : Env.row (t.cells row) = row := by
  apply List.map_snd_zip
  rw [length_labels, h row hrow]

end Table

theorem environments_append (ts ts' : List Table) :
    environments (ts ++ ts') =
      (environments ts).flatMap fun env => (environments ts').map (env ++ ·) := by
  induction ts with
  | nil => simp [environments]
  | cons t ts ih =>
    simp only [List.cons_append, environments, ih, List.map_flatMap, List.map_map,
      List.flatMap_assoc, List.flatMap_map]
    simp [Function.comp_def]

theorem environments_single (t : Table) : environments [t] = t.records.map t.cells := by
  simp only [environments, List.map_cons, List.map_nil, List.append_nil]
  exact List.flatMap_pure_eq_map _ _

variable {tables : List Table} {env env' : Env}

theorem labels_of_mem_environments (h : ∀ t ∈ tables, t.Wide) (henv : env ∈ environments tables) :
    env.labels = labelsOf tables := by
  induction tables generalizing env with
  | nil =>
    rw [List.mem_singleton.1 henv]
    rfl
  | cons t tables ih =>
    rw [List.forall_mem_cons] at h
    simp only [environments, List.mem_flatMap, List.mem_map] at henv
    obtain ⟨row, hrow, rest, hrest, rfl⟩ := henv
    have hcells := h.1.labels_cells hrow
    have htail := ih h.2 hrest
    rw [Env.labels] at hcells htail ⊢
    rw [List.map_append, hcells, htail]
    rfl

/-! ### Order of the tables -/

/-- The cells of an environment without their order. -/
def Env.cells (env : Env) : Multiset (Label × Value) :=
  ↑env

theorem Env.cells_eq_iff : env'.cells = env.cells ↔ env'.Perm env :=
  Multiset.coe_eq_coe

/-- The environments of tables, each without the order of its cells. -/
def cellSets (tables : List Table) : Multiset (Multiset (Label × Value)) :=
  (environments tables : Multiset Env).map Env.cells

theorem cellSets_cons (t : Table) (tables : List Table) :
    cellSets (t :: tables) = (t.records : Multiset Row).bind fun row =>
      (cellSets tables).map (Env.cells (t.cells row) + ·) := by
  simp only [cellSets, environments]
  rw [← Multiset.coe_bind, Multiset.map_bind]
  simp only [← Multiset.map_coe, Multiset.map_map]
  rfl

theorem cellSets_perm {tables tables' : List Table} (h : tables.Perm tables') :
    cellSets tables = cellSets tables' := by
  induction h with
  | nil => rfl
  | cons t h ih => rw [cellSets_cons, cellSets_cons, ih]
  | swap t t' tables =>
    simp only [cellSets_cons, Multiset.map_bind, Multiset.map_map]
    rw [Multiset.bind_bind]
    simp only [Function.comp_def, add_left_comm]
  | trans h h' ih ih' => exact ih.trans ih'

/-- Each environment of tables is one of the tables in any other order, but for the order of its
cells. -/
theorem exists_mem_environments_perm {tables tables' : List Table} (h : tables.Perm tables')
    (henv : env ∈ environments tables) : ∃ env' ∈ environments tables', env'.Perm env := by
  have hmem : env.cells ∈ cellSets tables' := by
    rw [← cellSets_perm h]
    exact Multiset.mem_map_of_mem _ henv
  obtain ⟨env', henv', heq⟩ := Multiset.mem_map.1 hmem
  exact ⟨env', henv', Env.cells_eq_iff.1 heq⟩

/-- What does not depend on the order of the cells does not depend on that of the tables. -/
theorem map_environments_perm {α : Type} {tables tables' : List Table} (h : tables.Perm tables')
    {g : Env → α} (hg : ∀ env ∈ environments tables, ∀ env', env'.Perm env → g env' = g env)
    (hg' : ∀ env ∈ environments tables', ∀ env', env'.Perm env → g env' = g env) :
    ((environments tables).map g).Perm ((environments tables').map g) := by
  have hcells : ∀ ts : List Table,
      (∀ env ∈ environments ts, ∀ env', env'.Perm env → g env' = g env) →
      ((environments ts).map g : Multiset α) = (cellSets ts).map fun m => g m.toList := by
    intro ts hts
    rw [cellSets, Multiset.map_map, ← Multiset.map_coe]
    apply Multiset.map_congr rfl
    intro env henv
    exact (hts env henv _ (Env.cells_eq_iff.1 (Multiset.coe_toList _))).symm
  rw [← Multiset.coe_eq_coe, hcells tables hg, hcells tables' hg', cellSets_perm h]

/-! ### Order of the cells -/

namespace Env

variable {l : Label} {v : Value} {r : ColumnRef}

theorem lookup_eq_some_iff (h : env.labels.Nodup) : env.lookup l = some v ↔ (l, v) ∈ env := by
  induction env with
  | nil => simp
  | cons cell env ih =>
    obtain ⟨l', v'⟩ := cell
    obtain ⟨hnew, hnodup⟩ := List.nodup_cons.1 h
    rw [List.lookup_cons, List.mem_cons]
    by_cases heq : l = l'
    · subst heq
      have hnot : (l, v) ∉ env := fun hmem => hnew (List.mem_map.2 ⟨(l, v), hmem, rfl⟩)
      simp [hnot, eq_comm]
    · have hbeq : (l == l') = false := by simpa using heq
      rw [hbeq]
      simp [ih hnodup, heq]

theorem exists_lookup (h : l ∈ env.labels) : ∃ v, (l, v) ∈ env := by
  obtain ⟨⟨l', v⟩, hmem, rfl⟩ := List.mem_map.1 h
  exact ⟨v, hmem⟩

theorem lookup_perm (h : env.labels.Nodup) (hperm : env'.Perm env) (l : Label) :
    env'.lookup l = env.lookup l := by
  have hlabels : env'.labels.Nodup := (hperm.map _).nodup_iff.2 h
  apply Option.ext
  intro v
  rw [lookup_eq_some_iff h, lookup_eq_some_iff hlabels]
  exact hperm.mem_iff

theorem project_perm (h : env.labels.Nodup) (hperm : env'.Perm env) (labels : List Label) :
    env'.project labels = env.project labels := by
  have hlookup : (env'.lookup ·) = (env.lookup ·) := funext (lookup_perm h hperm)
  rw [project, project, hlookup]

/-- A reference that is the name of one label has the value of that label. -/
theorem value?_eq_lookup (h : env.labels.Nodup) (hl : l ∈ env.labels)
    (hr : ∀ l' ∈ env.labels, l'.isNamed r ↔ l' = l) : env.value? r = env.lookup l := by
  obtain ⟨v, hv⟩ := exists_lookup hl
  rw [(lookup_eq_some_iff h).2 hv, value?]
  cases hfind : env.find? fun cell => cell.1.isNamed r with
  | none =>
    have hnone := List.find?_eq_none.1 hfind (l, v) hv
    exact absurd ((hr l hl).2 rfl) hnone
  | some cell =>
    have hcell := List.mem_of_find?_eq_some hfind
    have hnamed := List.find?_some hfind
    have heq : cell.1 = l := (hr _ (List.mem_map.2 ⟨cell, hcell, rfl⟩)).1 hnamed
    have hlookup : env.lookup l = some cell.2 := by
      rw [lookup_eq_some_iff h, ← heq]
      exact hcell
    rw [(lookup_eq_some_iff h).2 hv] at hlookup
    exact hlookup.symm

end Env

end RelStore
