import RelStore.Proofs.Value
import RelStore.Row

/-!
# Rows that fit a schema

`Row.check_eq_ok_iff` says which rows a schema accepts.  A row that it accepts has a value at every
column, which is absent or of the kind of every key that the column accepts
(`Row.exists_value`, `DataType.rank_eq_of_accepts`).
-/

namespace RelStore

/-- Two values that are present and fit one type are of one kind. -/
theorem DataType.rank_eq_of_accepts {type : DataType} {v w : Value} (hv : type.accepts v)
    (hw : type.accepts w) (hv' : v ≠ .null) (hw' : w ≠ .null) : v.rank = w.rank := by
  cases type <;> cases v <;> cases w <;> first | rfl | contradiction

namespace Row

theorem checkField_eq_ok_iff {v : Value} {c : Column} :
    checkField v c = .ok () ↔
      c.type.accepts v ∧
        ∀ s, v = .text s → (∀ limit, c.type.limit? = some limit → s.length ≤ limit) ∧
          Value.Storable s := by
  unfold checkField
  by_cases haccepts : c.type.accepts v
  · cases v with
    | null => simp [haccepts, pure, Except.pure]
    | int n => simp [haccepts, pure, Except.pure]
    | text s =>
      cases hlimit : c.type.limit? with
      | none =>
        by_cases hs : Value.Storable s <;>
          simp [haccepts, hs, pure, Except.pure, throw, throwThe, MonadExceptOf.throw]
      | some limit =>
        by_cases hlen : limit < s.length
        · simp [haccepts, hlen, Nat.not_le_of_lt hlen, bind, Except.bind, throw, throwThe, MonadExceptOf.throw]
        · by_cases hs : Value.Storable s <;>
            simp [haccepts, hlen, hs, Nat.le_of_not_lt hlen, pure, Except.pure, throw, throwThe,
              MonadExceptOf.throw]
  · simp [haccepts, bind, Except.bind, throw, throwThe, MonadExceptOf.throw]

theorem forM_eq_ok_iff {α : Type} {f : α → Except Error Unit} {l : List α} :
    l.forM f = .ok () ↔ ∀ a ∈ l, f a = .ok () := by
  induction l with
  | nil => simp [pure, Except.pure]
  | cons a l ih =>
    rw [List.forM, List.forall_mem_cons, ← ih]
    cases hfa : f a with
    | error e => simp [bind, Except.bind]
    | ok u => simp [bind, Except.bind]

/-- A row fits if it is as wide as the schema and each value fits its column. -/
theorem check_eq_ok_iff {r : Row} {s : Schema} :
    r.check s = .ok () ↔
      r.length = s.width ∧ ∀ p ∈ r.zip s.columns, checkField p.1 p.2 = .ok () := by
  unfold check
  rw [← forM_eq_ok_iff]
  by_cases hlen : r.length = s.width
  · simp [hlen]
  · simp [hlen, bind, Except.bind, throw, throwThe, MonadExceptOf.throw]

/-- A row that does not fit is no failure of the store itself. -/
theorem check_ne_internal (r : Row) (s : Schema) (fault : InternalFault) :
    r.check s ≠ .error (.internal fault) := by
  have hfield : ∀ p : Value × Column, checkField p.1 p.2 ≠ .error (.internal fault) := by
    intro (v, c) h
    unfold checkField at h
    by_cases haccepts : c.type.accepts v
    · cases v with
      | text text =>
        cases hlimit : c.type.limit? with
        | none =>
          by_cases hs : Value.Storable text <;>
            simp [haccepts, hlimit, hs, pure, Except.pure, throw, throwThe,
              MonadExceptOf.throw] at h
        | some limit =>
          by_cases hlen : limit < text.length <;> by_cases hs : Value.Storable text <;>
            simp [haccepts, hlimit, hlen, hs, bind, Except.bind, pure, Except.pure, throw,
              throwThe, MonadExceptOf.throw] at h
      | _ => simp [haccepts, pure, Except.pure] at h
    · simp [haccepts, bind, Except.bind, throw, throwThe, MonadExceptOf.throw] at h
  have hfields : ∀ l : List (Value × Column),
      l.forM (fun p => checkField p.1 p.2) ≠ .error (.internal fault) := by
    intro l h
    induction l with
    | nil => contradiction
    | cons p l ih =>
      rw [List.forM] at h
      cases hp : checkField p.1 p.2 with
      | error e =>
        rw [hp] at h
        cases h
        exact hfield p hp
      | ok u =>
        rw [hp] at h
        exact ih h
  unfold check
  by_cases hlength : r.length ≠ s.width
  · rw [if_pos hlength]
    exact fun h => by cases h
  · rw [if_neg hlength]
    exact hfields _

theorem length_eq_of_check {r : Row} {s : Schema} (h : r.check s = .ok ()) : r.length = s.width :=
  (check_eq_ok_iff.1 h).1

/-- A row that fits has a value that fits at each column. -/
theorem exists_value {r : Row} {s : Schema} (h : r.check s = .ok ()) {i : Nat} {c : Column}
    (hc : s.columns[i]? = some c) : ∃ v, r[i]? = some v ∧ c.type.accepts v := by
  obtain ⟨hlen, hfields⟩ := check_eq_ok_iff.1 h
  have hi : i < r.length := by
    rw [hlen]
    exact (List.getElem?_eq_some_iff.1 hc).1
  have hzip : (r.zip s.columns)[i]? = some (r[i], c) := by
    rw [List.getElem?_zip_eq_some]
    exact ⟨List.getElem?_eq_getElem hi, hc⟩
  exact ⟨r[i], List.getElem?_eq_getElem hi,
    (checkField_eq_ok_iff.1 (hfields _ (List.mem_of_getElem? hzip))).1⟩

end Row

end RelStore
