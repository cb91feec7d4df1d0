import RelStore.Operator

/-!
# The order of values

`Value.compare` is a total order, and equal places in it are equal values.  Where two values
compare as sides of a comparison, that is where both are absent, both integers or both texts, they
compare as in the total order (`Value.compare?_eq`).  A key that is present therefore splits the
values of its kind as the order does (`Operator.holds_eq_allows`), and no operator but `≠` holds
between it and the absent value (`Operator.holds_null`).
-/

namespace RelStore

namespace Value

/-- Values of different kinds compare by their ranks. -/
theorem compare_of_rank_ne {v w : Value} (h : v.rank ≠ w.rank) :
    compare v w = compare v.rank w.rank := by
  cases v <;> cases w <;> first | rfl | exact absurd rfl h

/-- Values that compare no later are of a kind that comes no later. -/
theorem rank_le_of_isLE {v w : Value} (h : (compare v w).isLE) : v.rank ≤ w.rank := by
  by_cases hr : v.rank = w.rank
  · exact Nat.le_of_eq hr
  · rw [compare_of_rank_ne hr] at h
    exact Nat.isLE_compare.1 h

/-- Values of one rank are both absent, both integers or both texts. -/
theorem kinds_of_rank_eq {v w : Value} (h : v.rank = w.rank) :
    (v = null ∧ w = null) ∨ (∃ m n, v = int m ∧ w = int n) ∨ ∃ s t, v = text s ∧ w = text t := by
  cases v <;> cases w <;> simp [rank] at h ⊢

instance : Std.OrientedOrd Value where
  eq_swap {v w} := by
    by_cases hr : v.rank = w.rank
    · obtain ⟨rfl, rfl⟩ | ⟨m, n, rfl, rfl⟩ | ⟨s, t, rfl, rfl⟩ := kinds_of_rank_eq hr
      · rfl
      · exact Std.OrientedOrd.eq_swap (α := Int64)
      · exact Std.OrientedOrd.eq_swap (α := String)
    · rw [compare_of_rank_ne hr, compare_of_rank_ne (Ne.symm hr)]
      exact Std.OrientedOrd.eq_swap

instance : Std.TransOrd Value where
  isLE_trans {u v w} huv hvw := by
    have hu := rank_le_of_isLE huv
    have hv := rank_le_of_isLE hvw
    by_cases hr : u.rank = w.rank
    · have huv' : u.rank = v.rank := by omega
      have hvw' : v.rank = w.rank := by omega
      obtain ⟨rfl, rfl⟩ | ⟨m, n, rfl, rfl⟩ | ⟨s, t, rfl, rfl⟩ := kinds_of_rank_eq huv' <;>
        obtain ⟨hn, rfl⟩ | ⟨m', n', hn, rfl⟩ | ⟨s', t', hn, rfl⟩ := kinds_of_rank_eq hvw' <;>
        cases hn
      · rfl
      · exact Std.TransOrd.isLE_trans (α := Int64) huv hvw
      · exact Std.TransOrd.isLE_trans (α := String) huv hvw
    · rw [compare_of_rank_ne hr, Nat.isLE_compare]
      omega

instance : Std.LawfulEqOrd Value where
  eq_of_compare {v w} h := by
    by_cases hr : v.rank = w.rank
    · obtain ⟨rfl, rfl⟩ | ⟨m, n, rfl, rfl⟩ | ⟨s, t, rfl, rfl⟩ := kinds_of_rank_eq hr
      · rfl
      · exact congrArg int (Std.LawfulEqOrd.eq_of_compare (α := Int64) h)
      · exact congrArg text (Std.LawfulEqOrd.eq_of_compare (α := String) h)
    · rw [compare_of_rank_ne hr] at h
      exact absurd (Std.LawfulEqOrd.eq_of_compare h) hr

@[simp] theorem isNull_iff {v : Value} : v.isNull ↔ v = null := by
  cases v <;> simp [isNull]

/-- The absent value comes first. -/
theorem keyLT_null {v : Value} (h : v ≠ null) : (compare null v).isLT := by
  cases v with
  | null => exact absurd rfl h
  | int n => rfl
  | text s => rfl

/-- Values of one kind compare as in the total order. -/
theorem compare?_eq {v w : Value} (h : v.rank = w.rank) : v.compare? w = .ok (compare v w) := by
  obtain ⟨rfl, rfl⟩ | ⟨m, n, rfl, rfl⟩ | ⟨s, t, rfl, rfl⟩ := kinds_of_rank_eq h <;> rfl

/-- Values of different kinds do not compare. -/
theorem toOption_compare?_of_rank_ne {v w : Value} (h : v.rank ≠ w.rank) :
    (v.compare? w).toOption = none := by
  cases v <;> cases w <;> first | rfl | exact absurd rfl h

end Value

namespace Operator

/-- Between values of one kind an operator is decided by the total order. -/
theorem holds_eq_allows (op : Operator) {v w : Value} (h : v.rank = w.rank) :
    op.holds v w = op.allows (some (compare v w)) := by
  rw [holds, Value.compare?_eq h]
  rfl

/-- Of the operators only `≠` holds between values of different kinds. -/
theorem holds_of_rank_ne (op : Operator) {v w : Value} (h : v.rank ≠ w.rank) :
    op.holds v w = (op == .ne) := by
  rw [holds, Value.toOption_compare?_of_rank_ne h]
  cases op <;> rfl

/-- Of the operators only `≠` holds between the absent value and a key that is present. -/
theorem holds_null (op : Operator) {key : Value} (h : key ≠ .null) :
    op.holds .null key = (op == .ne) := by
  refine holds_of_rank_ne op fun hrank => h ?_
  cases key <;> first | rfl | contradiction

/-- The operator of equality decides equality. -/
theorem holds_eq_iff {v w : Value} : eq.holds v w ↔ v = w := by
  by_cases h : v.rank = w.rank
  · rw [holds_eq_allows _ h, ← Std.compare_eq_iff_eq (a := v)]
    cases compare v w <;> simp [allows]
  · rw [holds_of_rank_ne _ h]
    exact ⟨fun hfalse => absurd hfalse (by decide), fun heq => absurd (congrArg _ heq) h⟩

/-- A flipped operator compares the other way round. -/
theorem holds_flip (op : Operator) (v w : Value) : op.flip.holds v w = op.holds w v := by
  by_cases h : v.rank = w.rank
  · rw [holds_eq_allows _ h, holds_eq_allows _ h.symm, Std.OrientedOrd.eq_swap (a := w) (b := v)]
    cases compare v w <;> cases op <;> rfl
  · rw [holds_of_rank_ne _ h, holds_of_rank_ne _ (Ne.symm h)]
    cases op <;> rfl

end Operator

end RelStore
