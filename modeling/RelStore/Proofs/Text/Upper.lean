import RelStore.Text.Upper

/-!
# Texts that are in upper case

The tables start at the small letter a, so a text of characters before it is its own upper case
(`upper_eq_self`).
-/

namespace RelStore.Text

theorem le_of_mem_expansions : ∀ p ∈ expansions, 0x61 ≤ p.1 := by
  decide +kernel

theorem le_of_mem_caseRuns : ∀ r ∈ caseRuns, 0x61 ≤ r.first := by
  decide +kernel

theorem upperChar_eq_self {c : Char} (h : c.toNat < 0x61) : upperChar c = [c] := by
  have hlookup : expansions.lookup c.toNat = none := by
    rw [List.lookup_eq_none_iff]
    intro p hp
    have hle := le_of_mem_expansions p hp
    simp only [bne_iff_ne]
    omega
  have hfind : caseRuns.find? (·.covers c.toNat) = none := by
    rw [Array.find?_eq_none]
    intro r hr hcovers
    have hle := le_of_mem_caseRuns r hr
    simp only [CaseRun.covers, Bool.and_eq_true, decide_eq_true_eq] at hcovers
    omega
  rw [upperChar, hlookup]
  simp only [hfind]

theorem upper_eq_self {s : String} (h : ∀ c ∈ s.toList, c.toNat < 0x61) : upper s = s := by
  have hchars : ∀ l : List Char, (∀ c ∈ l, c.toNat < 0x61) → l.flatMap upperChar = l := by
    intro l hl
    induction l with
    | nil => rfl
    | cons c l ih =>
      rw [List.forall_mem_cons] at hl
      rw [List.flatMap_cons, upperChar_eq_self hl.1, ih hl.2]
      rfl
  rw [upper, hchars s.toList h, String.ofList_toList]

end RelStore.Text
