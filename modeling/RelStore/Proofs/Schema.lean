import RelStore.Schema

/-!
# Schemas that define tables

`Schema.check_eq_ok_iff` says which schemas pass their check: they have columns, the names of the
columns differ, and the primary key is a column.
-/

namespace RelStore

section Repeats

variable {α : Type} [DecidableEq α]

theorem firstRepeat?_go_eq_none_iff {seen l : List α} :
    firstRepeat?.go seen l = none ↔ l.Nodup ∧ ∀ a ∈ l, a ∉ seen := by
  induction l generalizing seen with
  | nil => simp [firstRepeat?.go]
  | cons a l ih =>
    rw [firstRepeat?.go]
    by_cases ha : a ∈ seen
    · simp [ha]
    · rw [if_neg ha, ih, List.nodup_cons, List.forall_mem_cons]
      simp only [List.mem_cons, not_or]
      constructor
      · rintro ⟨hnodup, hseen⟩
        exact ⟨⟨fun hmem => (hseen a hmem).1 rfl, hnodup⟩, ha, fun b hb => (hseen b hb).2⟩
      · rintro ⟨⟨hnew, hnodup⟩, -, hseen⟩
        refine ⟨hnodup, fun b hb => ⟨?_, hseen b hb⟩⟩
        rintro rfl
        exact hnew hb

theorem firstRepeat?_eq_none_iff {l : List α} : firstRepeat? l = none ↔ l.Nodup := by
  rw [firstRepeat?, firstRepeat?_go_eq_none_iff]
  simp

end Repeats

namespace Schema

variable {s : Schema}

theorem check_eq_ok_iff :
    s.check = .ok () ↔ 0 < s.width ∧ s.names.Nodup ∧ ∀ key ∈ s.primaryKey, key < s.width := by
  have hpos : s.columns.isEmpty = false ↔ 0 < s.width := by
    rw [width, List.length_pos_iff]
    simp
  rw [← firstRepeat?_eq_none_iff, ← hpos]
  unfold check
  cases hempty : s.columns.isEmpty with
  | true => simp [bind, Except.bind, throw, throwThe, MonadExceptOf.throw]
  | false =>
    cases hrepeat : firstRepeat? s.names with
    | some name => simp [bind, Except.bind, throw, throwThe, MonadExceptOf.throw]
    | none =>
      cases hkey : s.primaryKey with
      | none => simp [pure, Except.pure]
      | some key =>
        by_cases hle : s.width ≤ key
        · simp [hle, throw, throwThe, MonadExceptOf.throw]
        · simp [hle, pure, Except.pure]
          omega

end Schema

end RelStore
