import RelStore.Text.Cut

/-!
# Cutting what was joined

A text is cut at the first or at the last separator exactly if it is two texts with the separator
between them, of which the first or the last does not hold it (`cutFirst?_eq_some_iff`,
`cutLast?_eq_some_iff`). Pieces that do not hold the separator are read back from the text that
joins them (`pieces_joined`).
-/

namespace RelStore.Text

variable {sep : Char}

/-! ### Two parts -/

theorem cutFirstChars?_append {a b : List Char} (h : sep ∉ a) :
    cutFirstChars? sep (a ++ sep :: b) = some (a, b) := by
  have hbefore : ∀ c ∈ a, (c != sep) = true := by
    intro c hc
    rw [bne_iff_ne]
    rintro rfl
    exact h hc
  have htake : (a ++ sep :: b).takeWhile (· != sep) = a := by
    rw [List.takeWhile_append_of_pos hbefore]
    simp
  have hdrop : (a ++ sep :: b).dropWhile (· != sep) = sep :: b := by
    rw [List.dropWhile_append_of_pos hbefore]
    simp
  rw [cutFirstChars?, htake, hdrop]

theorem cutFirstChars?_eq_none {s : List Char} (h : sep ∉ s) : cutFirstChars? sep s = none := by
  have hall : ∀ c ∈ s, (c != sep) = true := by
    intro c hc
    rw [bne_iff_ne]
    rintro rfl
    exact h hc
  have hdrop : s.dropWhile (· != sep) = [] := by
    rw [← List.append_nil s, List.dropWhile_append_of_pos hall]
    rfl
  rw [cutFirstChars?, hdrop]

/-- The characters before the first separator are free of it. -/
theorem exists_append_of_mem {s : List Char} (h : sep ∈ s) :
    ∃ a b, s = a ++ sep :: b ∧ sep ∉ a := by
  induction s with
  | nil => exact absurd h List.not_mem_nil
  | cons c s ih =>
    by_cases hc : c = sep
    · exact ⟨[], s, by rw [hc]; rfl, List.not_mem_nil⟩
    · obtain ⟨a, b, hs, ha⟩ := ih ((List.mem_cons.1 h).resolve_left (Ne.symm hc))
      refine ⟨c :: a, b, by rw [hs]; rfl, fun hmem => ?_⟩
      rcases List.mem_cons.1 hmem with heq | hmem
      · exact hc heq.symm
      · exact ha hmem

theorem cutFirstChars?_eq_some_iff {s a b : List Char} :
    cutFirstChars? sep s = some (a, b) ↔ s = a ++ sep :: b ∧ sep ∉ a := by
  constructor
  · intro hcut
    by_cases hmem : sep ∈ s
    · obtain ⟨a', b', rfl, ha⟩ := exists_append_of_mem hmem
      rw [cutFirstChars?_append ha] at hcut
      obtain ⟨rfl, rfl⟩ := Prod.mk.inj (Option.some.inj hcut)
      exact ⟨rfl, ha⟩
    · rw [cutFirstChars?_eq_none hmem] at hcut
      contradiction
  · rintro ⟨rfl, ha⟩
    exact cutFirstChars?_append ha

theorem cutLastChars?_eq_some_iff {s a b : List Char} :
    cutLastChars? sep s = some (a, b) ↔ s = a ++ sep :: b ∧ sep ∉ b := by
  have hreverse : s.reverse = b.reverse ++ sep :: a.reverse ↔ s = a ++ sep :: b := by
    have happend : (a ++ sep :: b).reverse = b.reverse ++ sep :: a.reverse := by simp
    rw [← happend, List.reverse_inj]
  rw [cutLastChars?, Option.map_eq_some_iff]
  constructor
  · rintro ⟨⟨x, y⟩, hcut, heq⟩
    obtain ⟨rfl, rfl⟩ := Prod.mk.inj heq
    obtain ⟨hs, hx⟩ := cutFirstChars?_eq_some_iff.1 hcut
    rw [List.mem_reverse, ← hreverse, List.reverse_reverse, List.reverse_reverse]
    exact ⟨hs, hx⟩
  · rintro ⟨hs, hb⟩
    refine ⟨(b.reverse, a.reverse), cutFirstChars?_eq_some_iff.2 ⟨hreverse.2 hs, ?_⟩, by simp⟩
    rwa [List.mem_reverse]

theorem map_ofList_eq_some_iff {o : Option (List Char × List Char)} {a b : String} :
    (o.map fun (x, y) => (String.ofList x, String.ofList y)) = some (a, b) ↔
      o = some (a.toList, b.toList) := by
  rw [Option.map_eq_some_iff]
  constructor
  · rintro ⟨⟨x, y⟩, rfl, heq⟩
    obtain ⟨rfl, rfl⟩ := Prod.mk.inj heq
    simp
  · rintro rfl
    exact ⟨_, rfl, by simp⟩

theorem cutFirst?_eq_some_iff {s a b : String} :
    cutFirst? sep s = some (a, b) ↔ s.toList = a.toList ++ sep :: b.toList ∧ sep ∉ a.toList :=
  map_ofList_eq_some_iff.trans cutFirstChars?_eq_some_iff

theorem cutLast?_eq_some_iff {s a b : String} :
    cutLast? sep s = some (a, b) ↔ s.toList = a.toList ++ sep :: b.toList ∧ sep ∉ b.toList :=
  map_ofList_eq_some_iff.trans cutLastChars?_eq_some_iff

/-- A text that is not cut does not hold the separator. -/
theorem not_mem_of_cutFirst? {s : String} (h : cutFirst? sep s = none) : sep ∉ s.toList := by
  intro hmem
  obtain ⟨a, b, hs, ha⟩ := exists_append_of_mem hmem
  have hcut : cutFirst? sep s = some (String.ofList a, String.ofList b) := by
    rw [cutFirst?_eq_some_iff, String.toList_ofList, String.toList_ofList]
    exact ⟨hs, ha⟩
  rw [h] at hcut
  contradiction

theorem cutLast?_eq_none {s : String} (h : sep ∉ s.toList) : cutLast? sep s = none := by
  cases hcut : cutLast? sep s with
  | none => rfl
  | some p =>
    rw [(cutLast?_eq_some_iff.1 hcut).1] at h
    simp at h

/-! ### Pieces -/

theorem toList_joined (sep : Char) (ss : List String) :
    (joined sep ss).toList = [sep].intercalate (ss.map String.toList) := by
  rw [joined, String.toList_intercalate, String.toList_singleton]

theorem pieces_joined {ss : List String} (h : ∀ s ∈ ss, sep ∉ s.toList)
    (hne : ss ≠ []) : pieces sep (joined sep ss) = ss := by
  have hchars : ∀ l ∈ ss.map String.toList, sep ∉ l := by
    intro l hl
    obtain ⟨s, hs, rfl⟩ := List.mem_map.1 hl
    exact h s hs
  have hne' : ss.map String.toList ≠ [] := fun hnil => hne (List.map_eq_nil_iff.1 hnil)
  rw [pieces, toList_joined, List.splitOn_intercalate sep hchars hne', List.map_map]
  have hid : String.ofList ∘ String.toList = id := funext fun s => String.ofList_toList
  rw [hid, List.map_id]

/-- Two pieces are cut apart at the first separator. -/
theorem cutFirst?_joined {a b : String} (h : sep ∉ a.toList) :
    cutFirst? sep (joined sep [a, b]) = some (a, b) := by
  have hchars : (joined sep [a, b]).toList = a.toList ++ sep :: b.toList := by
    rw [toList_joined]
    simp [List.intercalate]
  exact cutFirst?_eq_some_iff.2 ⟨hchars, h⟩

/-- Characters of a joined text are those of the pieces, and the separator. -/
theorem mem_joined {c : Char} {ss : List String} (h : c ∈ (joined sep ss).toList) :
    c = sep ∨ ∃ s ∈ ss, c ∈ s.toList := by
  rw [toList_joined] at h
  induction ss with
  | nil => exact absurd h (by simp [List.intercalate])
  | cons s ss ih =>
    cases ss with
    | nil => exact .inr ⟨s, List.mem_cons_self, by simpa [List.intercalate] using h⟩
    | cons s' ss =>
      have hcons : [sep].intercalate ((s :: s' :: ss).map String.toList) =
          s.toList ++ sep :: [sep].intercalate ((s' :: ss).map String.toList) := by
        simp [List.intercalate]
      rw [hcons, List.mem_append, List.mem_cons] at h
      rcases h with h | h | h
      · exact .inr ⟨s, List.mem_cons_self, h⟩
      · exact .inl h
      · rcases ih h with h | ⟨t, ht, h⟩
        · exact .inl h
        · exact .inr ⟨t, List.mem_cons_of_mem _ ht, h⟩

end RelStore.Text
