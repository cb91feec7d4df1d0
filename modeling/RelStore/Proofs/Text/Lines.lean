import RelStore.Proofs.Text.Cut
import RelStore.Text.Lines

/-!
# Reading lines back

Lines that hold no line feed and do not end with a carriage return are read back from the text that
they make (`lines_unlines`), and no other line is (`isKept_of_lines_unlines_cons`).
-/

namespace RelStore.Text

/-- Whether a text holds neither a line feed nor a carriage return. -/
def IsLine (s : String) : Prop :=
  '\n' ∉ s.toList ∧ '\r' ∉ s.toList

instance (s : String) : Decidable (IsLine s) := by
  unfold IsLine; infer_instance

/-- Whether a text is read back as a line.  A carriage return counts as part of the line's end only
if it stands before the line feed. -/
def IsKept (s : String) : Prop :=
  '\n' ∉ s.toList ∧ s.toList.getLast? ≠ some '\r'

instance (s : String) : Decidable (IsKept s) := by
  unfold IsKept; infer_instance

theorem IsLine.isKept {s : String} (h : IsLine s) : IsKept s :=
  ⟨h.1, fun hlast => h.2 (List.mem_of_getLast? hlast)⟩

/-! ### Lines that were read -/

theorem not_mem_of_mem_splitOn {sep : Char} {s l : List Char} (h : l ∈ s.splitOn sep) :
    sep ∉ l := by
  induction s generalizing l with
  | nil =>
    rw [List.splitOn_nil, List.mem_singleton] at h
    exact h ▸ List.not_mem_nil
  | cons c s ih =>
    rw [List.splitOn_cons_eq_if_modifyHead] at h
    split at h
    · rcases List.mem_cons.1 h with rfl | h
      · exact List.not_mem_nil
      · exact ih h
    · next hc =>
      obtain ⟨first, others, hsplit⟩ := List.exists_cons_of_ne_nil (List.splitOn_ne_nil sep s)
      rw [hsplit] at h ih
      rcases List.mem_cons.1 h with rfl | h
      · rw [List.mem_cons]
        rintro (rfl | hmem)
        · exact hc (beq_self_eq_true _)
        · exact ih List.mem_cons_self hmem
      · exact ih (List.mem_cons_of_mem _ h)

theorem stripReturn_subset (l : List Char) : stripReturn l ⊆ l := by
  unfold stripReturn
  split
  · exact List.dropLast_subset l
  · exact List.Subset.refl l

/-- No line that is read holds a line feed. -/
theorem not_mem_of_mem_lines {s l : String} (h : l ∈ lines s) : '\n' ∉ l.toList := by
  obtain ⟨chars, hchars, rfl⟩ := List.mem_map.1 h
  rw [String.toList_ofList]
  rcases List.mem_append.1 hchars with hmem | hmem
  · obtain ⟨piece, hpiece, rfl⟩ := List.mem_map.1 hmem
    exact fun hnewline =>
      not_mem_of_mem_splitOn (List.dropLast_subset _ hpiece) (stripReturn_subset piece hnewline)
  · have hlast := Option.mem_toList.1 (List.mem_filter.1 hmem).1
    exact not_mem_of_mem_splitOn (List.mem_of_getLast? hlast)

/-! ### Lines that were written -/

theorem stripReturn_eq_self_iff {l : List Char} :
    stripReturn l = l ↔ l.getLast? ≠ some '\r' := by
  unfold stripReturn
  split
  · next hlast =>
    have hne : l ≠ [] := fun hnil => by simp [hnil] at hlast
    have hlength : l.dropLast ≠ l := fun heq => by
      have hshort := congrArg List.length heq
      have hpos := List.length_pos_iff.2 hne
      rw [List.length_dropLast] at hshort
      omega
    exact iff_of_false hlength fun hnot => hnot hlast
  · next hlast => exact iff_of_true rfl hlast

/-- The first line of a text may lose a carriage return at its end. -/
theorem lines_unlines_cons {l : String} (h : '\n' ∉ l.toList) (ls : List String) :
    lines (unlines (l :: ls)) = String.ofList (stripReturn l.toList) :: lines (unlines ls) := by
  have hnewline : "\n".toList = ['\n'] := rfl
  have hcons : (unlines (l :: ls)).toList = l.toList ++ '\n' :: (unlines ls).toList := by
    rw [unlines, List.map_cons, String.join_cons, String.toList_append, String.toList_append,
      hnewline, List.append_assoc]
    rfl
  have hchars : lineChars (unlines (l :: ls)).toList =
      stripReturn l.toList :: lineChars (unlines ls).toList := by
    have hne := List.splitOn_ne_nil '\n' (unlines ls).toList
    simp only [lineChars, hcons, List.splitOn_append_cons_self_of_not_mem h,
      List.dropLast_cons_of_ne_nil hne, List.getLast?_cons_of_ne_nil hne, List.map_cons,
      List.cons_append]
  rw [lines, hchars, List.map_cons, lines]

/-- Lines are read back. -/
theorem lines_unlines {ls : List String} (h : ∀ l ∈ ls, IsKept l) : lines (unlines ls) = ls := by
  induction ls with
  | nil => rfl
  | cons l ls ih =>
    rw [List.forall_mem_cons] at h
    rw [lines_unlines_cons h.1.1, ih h.2, stripReturn_eq_self_iff.2 h.1.2, String.ofList_toList]

/-- Only such a line is read back. -/
theorem isKept_of_lines_unlines_cons {l : String} {ls rest : List String}
    (h : lines (unlines (l :: ls)) = l :: rest) : IsKept l := by
  have hline : '\n' ∉ l.toList := not_mem_of_mem_lines (h ▸ List.mem_cons_self)
  rw [lines_unlines_cons hline] at h
  have hstrip := congrArg String.toList (List.cons.inj h).1
  rw [String.toList_ofList] at hstrip
  exact ⟨hline, stripReturn_eq_self_iff.1 hstrip⟩

theorem isLine_joined {sep : Char} {ss : List String} (hn : sep ≠ '\n') (hr : sep ≠ '\r')
    (h : ∀ s ∈ ss, IsLine s) : IsLine (joined sep ss) := by
  refine ⟨fun hmem => ?_, fun hmem => ?_⟩
  · rcases mem_joined hmem with heq | ⟨s, hs, hmem⟩
    · exact hn heq.symm
    · exact (h s hs).1 hmem
  · rcases mem_joined hmem with heq | ⟨s, hs, hmem⟩
    · exact hr heq.symm
    · exact (h s hs).2 hmem

end RelStore.Text
