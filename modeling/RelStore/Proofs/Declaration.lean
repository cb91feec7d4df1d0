import RelStore.Declaration

/-!
# Declarations that count

`Declaration.effective` keeps declarations of indexes on distinct columns, and keeps all of them if
they are such (`Declaration.effective_eq_self`).
-/

namespace RelStore.Declaration

variable {seen : List Nat} {ds : List Declaration} {d : Declaration}

theorem mem_effective_go (h : d ∈ effective.go seen ds) :
    d ∈ ds ∧ d.index ≠ .none ∧ d.column ∉ seen := by
  induction ds generalizing seen with
  | nil => exact absurd h List.not_mem_nil
  | cons first ds ih =>
    rw [effective.go] at h
    split at h
    · obtain ⟨hmem, hrest⟩ := ih h
      exact ⟨List.mem_cons_of_mem _ hmem, hrest⟩
    · next hkeep =>
      rw [not_or] at hkeep
      rcases List.mem_cons.1 h with rfl | h
      · exact ⟨List.mem_cons_self, hkeep⟩
      · obtain ⟨hmem, hindex, hcolumn⟩ := ih h
        exact ⟨List.mem_cons_of_mem _ hmem, hindex, fun hseen =>
          hcolumn (List.mem_cons_of_mem _ hseen)⟩

theorem nodup_effective_go (seen : List Nat) (ds : List Declaration) :
    ((effective.go seen ds).map (·.column)).Nodup := by
  induction ds generalizing seen with
  | nil => exact .nil
  | cons first ds ih =>
    rw [effective.go]
    split
    · exact ih seen
    · refine List.nodup_cons.2 ⟨fun hmem => ?_, ih _⟩
      obtain ⟨d, hd, hcolumn⟩ := List.mem_map.1 hmem
      exact (mem_effective_go hd).2.2 (hcolumn ▸ List.mem_cons_self)

theorem effective_go_eq_self (hindex : ∀ d ∈ ds, d.index ≠ .none)
    (hseen : ∀ d ∈ ds, d.column ∉ seen) (hnodup : (ds.map (·.column)).Nodup) :
    effective.go seen ds = ds := by
  induction ds generalizing seen with
  | nil => rfl
  | cons first ds ih =>
    rw [List.forall_mem_cons] at hindex hseen
    obtain ⟨hfirst, htail⟩ := List.nodup_cons.1 hnodup
    rw [effective.go, if_neg (not_or.2 ⟨hindex.1, hseen.1⟩), ih hindex.2 (fun d hd hmem => ?_) htail]
    rcases List.mem_cons.1 hmem with heq | hmem
    · exact hfirst (List.mem_map.2 ⟨d, hd, heq⟩)
    · exact hseen.2 d hd hmem

theorem mem_effective (h : d ∈ effective ds) : d ∈ ds :=
  (mem_effective_go h).1

theorem index_ne_none_of_mem_effective (h : d ∈ effective ds) : d.index ≠ .none :=
  (mem_effective_go h).2.1

theorem nodup_effective (ds : List Declaration) : ((effective ds).map (·.column)).Nodup :=
  nodup_effective_go [] ds

/-- Declarations of indexes on distinct columns all count. -/
theorem effective_eq_self (hindex : ∀ d ∈ ds, d.index ≠ .none)
    (hnodup : (ds.map (·.column)).Nodup) : effective ds = ds :=
  effective_go_eq_self hindex (fun _ _ => List.not_mem_nil) hnodup

end RelStore.Declaration
