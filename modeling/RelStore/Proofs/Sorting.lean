import Mathlib.Data.String.Basic
import RelStore.Proofs.Value
import RelStore.Row

/-!
# Stable sorting

A stable sort by a key is determined by two properties: the result ascends, and the members with any
one key are those of the list in their order (`eq_of_ascending_of_filter_eq`).  Sorting has both
(`filter_mergeSort`), and so commutes with dropping members (`Row.sorted_filter`).

`Row.IsStableSort` says this of rows without mention of an algorithm, with the order of values
spelled out (`Value.Le`).
-/

namespace RelStore

/-! ### Sorting by a key -/

section Key

variable {α κ : Type} [Ord κ] (key : α → κ)

/-- The order of a list by the keys of its members. -/
def leOn (a b : α) : Bool :=
  (compare (key a) (key b)).isLE

variable [Std.TransOrd κ]

theorem leOn_trans (a b c : α) (hab : leOn key a b) (hbc : leOn key b c) : leOn key a c :=
  Std.TransOrd.isLE_trans hab hbc

theorem leOn_total (a b : α) : leOn key a b || leOn key b a := by
  unfold leOn
  rw [Std.OrientedOrd.eq_swap (a := key b)]
  cases compare (key a) (key b) <;> rfl

theorem pairwise_mergeSort (l : List α) : (l.mergeSort (leOn key)).Pairwise (leOn key · ·) :=
  List.pairwise_mergeSort (leOn_trans key) (leOn_total key) l

variable [DecidableEq κ]

/-- Members with one key are all in order. -/
theorem pairwise_filter_key (v : κ) (l : List α) :
    (l.filter (key · = v)).Pairwise (leOn key · ·) := by
  apply List.pairwise_of_forall_mem_list
  intro a ha b hb
  have ha' : key a = v := of_decide_eq_true (List.mem_filter.1 ha).2
  have hb' : key b = v := of_decide_eq_true (List.mem_filter.1 hb).2
  rw [leOn, ha', hb']
  exact Std.ReflOrd.isLE_rfl

/-- Sorting keeps the members with any one key in their order. -/
theorem filter_mergeSort (v : κ) (l : List α) :
    (l.mergeSort (leOn key)).filter (key · = v) = l.filter (key · = v) := by
  have hperm := (List.mergeSort_perm l (leOn key)).filter (key · = v)
  have hsub : (l.filter (key · = v)).Sublist (l.mergeSort (leOn key)) :=
    List.sublist_mergeSort (leOn_trans key) (leOn_total key) (pairwise_filter_key key v l)
      List.filter_sublist
  have hsub' := hsub.filter (key · = v)
  rw [List.filter_filter] at hsub'
  simp only [Bool.and_self] at hsub'
  exact (hsub'.eq_of_length hperm.length_eq.symm).symm

variable [Std.LawfulEqOrd κ]

/-- An ascending list is determined by its members with each key. -/
theorem eq_of_ascending_of_filter_eq {l₁ l₂ : List α}
    (h₁ : l₁.Pairwise (leOn key · ·)) (h₂ : l₂.Pairwise (leOn key · ·))
    (h : ∀ v, l₁.filter (key · = v) = l₂.filter (key · = v)) : l₁ = l₂ := by
  have hmem : ∀ a, a ∈ l₁ ↔ a ∈ l₂ := by
    intro a
    have ha : a ∈ l₁.filter (key · = key a) ↔ a ∈ l₂.filter (key · = key a) := by rw [h]
    simpa using ha
  induction l₁ generalizing l₂ with
  | nil =>
    refine (List.eq_nil_iff_forall_not_mem.2 fun a ha => ?_).symm
    exact List.not_mem_nil ((hmem a).2 ha)
  | cons a l₁ ih =>
    obtain ⟨b, l₂, rfl⟩ := List.exists_cons_of_ne_nil
      (List.ne_nil_of_mem ((hmem a).1 List.mem_cons_self))
    obtain ⟨hhead₁, htail₁⟩ := List.pairwise_cons.1 h₁
    obtain ⟨hhead₂, htail₂⟩ := List.pairwise_cons.1 h₂
    have hab : (compare (key a) (key b)).isLE := by
      rcases List.mem_cons.1 ((hmem b).2 List.mem_cons_self) with rfl | hb
      · exact Std.ReflOrd.isLE_rfl
      · exact hhead₁ b hb
    have hba : (compare (key b) (key a)).isLE := by
      rcases List.mem_cons.1 ((hmem a).1 List.mem_cons_self) with rfl | ha
      · exact Std.ReflOrd.isLE_rfl
      · exact hhead₂ a ha
    have hkey : key a = key b :=
      Std.LawfulEqOrd.eq_of_compare (Std.OrientedCmp.isLE_antisymm hab hba)
    -- The two heads are the first members with their common key.
    have hhead : a = b := by
      have hfirst := h (key a)
      rw [List.filter_cons_of_pos (by simp), List.filter_cons_of_pos (by simp [hkey])] at hfirst
      exact (List.cons.inj hfirst).1
    subst hhead
    have htail : ∀ v, l₁.filter (key · = v) = l₂.filter (key · = v) := by
      intro v
      have hv := h v
      by_cases hav : key a = v
      · rw [List.filter_cons_of_pos (by simp [hav]), List.filter_cons_of_pos (by simp [hav])] at hv
        exact (List.cons.inj hv).2
      · rwa [List.filter_cons_of_neg (by simp [hav]), List.filter_cons_of_neg (by simp [hav])] at hv
    refine congrArg (a :: ·) (ih htail₁ htail₂ htail fun c => ?_)
    have hc : c ∈ l₁.filter (key · = key c) ↔ c ∈ l₂.filter (key · = key c) := by rw [htail]
    simpa using hc

end Key

/-! ### Rows -/

/-- The order of values, kind by kind: the absent value, then integers, then texts. -/
inductive Value.Le : Value → Value → Prop
  | null (v : Value) : Le .null v
  | int {m n : Int64} (h : m ≤ n) : Le (.int m) (.int n)
  | int_text (n : Int64) (s : String) : Le (.int n) (.text s)
  | text {s t : String} (h : s ≤ t) : Le (.text s) (.text t)

theorem Value.isLE_compare_iff {v w : Value} : (compare v w).isLE ↔ v.Le w := by
  cases v with
  | null => exact iff_of_true (by cases w <;> rfl) (.null w)
  | int m =>
    cases w with
    | null => exact iff_of_false Bool.false_ne_true nofun
    | int n => exact (Std.isLE_compare (α := Int64)).trans ⟨.int, fun | .int h => h⟩
    | text t => exact iff_of_true rfl (.int_text m t)
  | text s =>
    cases w with
    | text t =>
      have hcompare : (compare s t).isLE ↔ s ≤ t := by
        rw [← compare_le_iff_le]
        cases compare s t <;> simp
      exact hcompare.trans ⟨.text, fun | .text h => h⟩
    | _ => exact iff_of_false Bool.false_ne_true nofun

namespace Row

/-- An ascending list with the same rows at each value is the sorted list. -/
theorem eq_sorted {column : Nat} {rows l : List Row} (hl : l.Pairwise (leAt column · ·))
    (h : ∀ v, l.filter (·[column]? = v) = rows.filter (·[column]? = v)) :
    l = sorted column rows :=
  eq_of_ascending_of_filter_eq (·[column]?) hl (pairwise_mergeSort _ _) fun v =>
    (h v).trans (filter_mergeSort _ v rows).symm

theorem pairwise_sorted (column : Nat) (rows : List Row) :
    (sorted column rows).Pairwise (leAt column · ·) :=
  pairwise_mergeSort (·[column]?) rows

theorem filter_sorted (column : Nat) (v : Option Value) (rows : List Row) :
    (sorted column rows).filter (·[column]? = v) = rows.filter (·[column]? = v) :=
  filter_mergeSort (·[column]?) v rows

/-- Sorting commutes with dropping rows. -/
theorem sorted_filter (column : Nat) (p : Row → Bool) (rows : List Row) :
    sorted column (rows.filter p) = (sorted column rows).filter p := by
  refine (eq_sorted ((pairwise_sorted column rows).filter p) fun v => ?_).symm
  calc ((sorted column rows).filter p).filter (·[column]? = v)
      = ((sorted column rows).filter (·[column]? = v)).filter p := by
        rw [List.filter_filter, List.filter_filter]
        simp only [Bool.and_comm]
    _ = (rows.filter (·[column]? = v)).filter p := by rw [filter_sorted]
    _ = (rows.filter p).filter (·[column]? = v) := by
        rw [List.filter_filter, List.filter_filter]
        simp only [Bool.and_comm]

/-- Rows without a value at the column come first, the others follow by value. -/
theorem leAt_iff {column : Nat} {r r' : Row} :
    leAt column r r' ↔ ∀ v, r[column]? = some v → ∃ w, r'[column]? = some w ∧ v.Le w := by
  unfold leAt
  cases r[column]? with
  | none => exact iff_of_true (by cases r'[column]? <;> rfl) nofun
  | some v =>
    cases r'[column]? with
    | none => exact iff_of_false Bool.false_ne_true fun h => nomatch h v rfl
    | some w =>
      refine (Value.isLE_compare_iff (v := v) (w := w)).trans ⟨?_, fun h => ?_⟩
      · rintro h _ ⟨⟩
        exact ⟨w, rfl, h⟩
      · obtain ⟨_, ⟨⟩, hle⟩ := h v rfl
        exact hle

/-- A list has the rows in the order of a column, and rows with one value in the order that they had
before. -/
structure IsStableSort (column : Nat) (rows l : List Row) : Prop where
  perm : l.Perm rows
  ascending : l.Pairwise fun r r' =>
    ∀ v, r[column]? = some v → ∃ w, r'[column]? = some w ∧ v.Le w
  stable : ∀ v, l.filter (·[column]? = v) = rows.filter (·[column]? = v)

/-- Sorting gives the stable sort, and there is no other. -/
theorem isStableSort_iff {column : Nat} {rows l : List Row} :
    IsStableSort column rows l ↔ l = sorted column rows := by
  constructor
  · intro h
    exact eq_sorted (h.ascending.imp leAt_iff.2) h.stable
  · rintro rfl
    exact ⟨List.mergeSort_perm _ _, (pairwise_sorted column rows).imp leAt_iff.1,
      fun v => filter_sorted column v rows⟩

end Row

end RelStore
