import RelStore.Text.Blank
import RelStore.Text.Decimal

/-!
# Reading numerals back

The numeral that is written for an integer in range reads as that integer (`signed64_toString`,
`signedChars_toString`), and the one of a natural number that is too great is refused
(`signedChars_repr`, `unsigned64_toString`).  A numeral consists of digits and at most a minus sign
(`IsNumeral`), so that it holds no separator and no blank.
-/

namespace RelStore.Text

/-! ### Characters of numerals -/

/-- The characters of the numerals that are written. -/
def IsNumeral (c : Char) : Prop :=
  c.isDigit ∨ c = '-'

theorem isNumeral_of_mem_repr {n : Nat} : ∀ c ∈ n.repr.toList, c.isDigit := by
  intro c hc
  rw [Nat.toList_repr] at hc
  exact Nat.isDigit_of_mem_toDigits (by decide) (by decide) hc

theorem isNumeral_of_mem_toString {i : Int} : ∀ c ∈ (toString i).toList, IsNumeral c := by
  intro c hc
  rw [Int.toString_eq_repr, Int.repr_eq_if] at hc
  split at hc
  · exact .inl (isNumeral_of_mem_repr c hc)
  · rw [String.toList_append, List.mem_append] at hc
    rcases hc with hc | hc
    · right
      simpa using hc
    · exact .inl (isNumeral_of_mem_repr c hc)

theorem IsNumeral.toNat_range {c : Char} (h : IsNumeral c) : 45 ≤ c.toNat ∧ c.toNat ≤ 57 := by
  rcases h with h | rfl
  · simp only [Char.isDigit, Bool.and_eq_true, decide_eq_true_eq] at h
    have hlow : (48 : UInt32).toNat ≤ c.val.toNat := h.1
    have hhigh : c.val.toNat ≤ (57 : UInt32).toNat := h.2
    have hnat : c.toNat = c.val.toNat := rfl
    have h48 : (48 : UInt32).toNat = 48 := rfl
    have h57 : (57 : UInt32).toNat = 57 := rfl
    omega
  · decide

theorem IsNumeral.not_isBlank {c : Char} (h : IsNumeral c) : ¬ isBlank c := by
  have hrange := h.toNat_range
  simp only [isBlank, Bool.or_eq_true, Bool.and_eq_true, decide_eq_true_eq, beq_iff_eq]
  omega

/-! ### Trimming -/

theorem dropWhile_isBlank_eq_self {l : List Char} (h : ∀ c ∈ l, ¬ isBlank c) :
    l.dropWhile isBlank = l := by
  cases l with
  | nil => rfl
  | cons c l => exact List.dropWhile_cons_of_neg (h c List.mem_cons_self)

theorem trim_eq_self {s : String} (h : ∀ c ∈ s.toList, ¬ isBlank c) : trim s = s := by
  have hreverse : ∀ c ∈ s.toList.reverse, ¬ isBlank c := fun c hc => h c (List.mem_reverse.1 hc)
  rw [trim, trimChars, dropWhile_isBlank_eq_self h, dropWhile_isBlank_eq_self hreverse,
    List.reverse_reverse, String.ofList_toList]

theorem trim_toString (i : Int) : trim (toString i) = toString i :=
  trim_eq_self fun c hc => (isNumeral_of_mem_toString c hc).not_isBlank

/-! ### Digits -/

theorem digitValue?_of_isDigit {c : Char} (h : c.isDigit) :
    digitValue? c = some (c.toNat - '0'.toNat) :=
  if_pos h

theorem le_ofDigitChars (n : Nat) (digits : List Char) : n ≤ Nat.ofDigitChars 10 digits n := by
  rw [Nat.ofDigitChars_eq_ofDigitChars_zero]
  have hpow : 1 ≤ 10 ^ digits.length := Nat.one_le_pow _ _ (by decide)
  have hmul : 1 * n ≤ 10 ^ digits.length * n := Nat.mul_le_mul_right n hpow
  omega

/-- Digits read as the number they write, if it is within the limit. -/
theorem readDigits_eq (limit : Nat) (excess : IntegerFault) {digits : List Char} {n : Nat}
    (hdigits : ∀ c ∈ digits, c.isDigit) (hn : n ≤ limit) :
    readDigits limit excess n digits =
      if Nat.ofDigitChars 10 digits n ≤ limit then .ok (Nat.ofDigitChars 10 digits n)
      else .error excess := by
  induction digits generalizing n with
  | nil => rw [Nat.ofDigitChars_nil, if_pos hn, readDigits]
  | cons c digits ih =>
    rw [List.forall_mem_cons] at hdigits
    rw [Nat.ofDigitChars_cons]
    have hle := le_ofDigitChars (10 * n + (c.toNat - '0'.toNat)) digits
    simp only [readDigits, digitValue?_of_isDigit hdigits.1]
    split
    · next hlt => rw [if_neg (by omega)]
    · next hnot => exact ih hdigits.2 (by omega)

theorem readMagnitude_repr (limit : Nat) (excess : IntegerFault) (n : Nat) :
    readMagnitude limit excess n.repr.toList = if n ≤ limit then .ok n else .error excess := by
  have hdigits : ∀ c ∈ n.repr.toList, c.isDigit := isNumeral_of_mem_repr
  have hvalue : Nat.ofDigitChars 10 n.repr.toList 0 = n := by
    rw [Nat.toList_repr, Nat.ofDigitChars_ten_toDigits]
  have hne : n.repr.toList ≠ [] := by
    rw [Nat.toList_repr]
    exact Nat.toDigits_ne_nil
  have hread : readMagnitude limit excess n.repr.toList =
      readDigits limit excess 0 n.repr.toList := by
    cases hl : n.repr.toList with
    | nil => exact absurd hl hne
    | cons c l => rfl
  rw [hread, readDigits_eq limit excess hdigits (Nat.zero_le limit), hvalue]

/-! ### Signs -/

/-- A first character that is a digit is no sign. -/
theorem exists_digit_cons (n : Nat) : ∃ c l, n.repr.toList = c :: l ∧ c ≠ '+' ∧ c ≠ '-' := by
  have hne : n.repr.toList ≠ [] := by
    rw [Nat.toList_repr]
    exact Nat.toDigits_ne_nil
  obtain ⟨c, l, hcons⟩ := List.exists_cons_of_ne_nil hne
  have hdigit : c.isDigit := isNumeral_of_mem_repr c (hcons ▸ List.mem_cons_self)
  refine ⟨c, l, hcons, ?_, ?_⟩
  · rintro rfl
    exact absurd hdigit (by decide)
  · rintro rfl
    exact absurd hdigit (by decide)

theorem unsigned64_toString (n : Nat) :
    unsigned64 (toString n) = if n ≤ greatestUnsigned then .ok n else .error .tooLarge := by
  obtain ⟨c, l, hcons, hplus, -⟩ := exists_digit_cons n
  have hread := readMagnitude_repr greatestUnsigned .tooLarge n
  rw [hcons] at hread
  rw [unsigned64, Nat.toString_eq_repr, hcons]
  unfold unsignedChars
  split
  · next heq => exact absurd heq (List.cons_ne_nil c l)
  · next heq => exact absurd (List.cons.inj heq).1 hplus
  · exact hread

theorem signedChars_repr (n : Nat) :
    signedChars n.repr.toList = if n ≤ greatestSigned then .ok (n : Int) else .error .tooLarge := by
  obtain ⟨c, l, hcons, hplus, hminus⟩ := exists_digit_cons n
  have hread := readMagnitude_repr greatestSigned .tooLarge n
  rw [hcons] at hread ⊢
  unfold signedChars
  split
  · next heq => exact absurd heq (List.cons_ne_nil c l)
  · next heq => exact absurd (List.cons.inj heq).1 hplus
  · next heq => exact absurd (List.cons.inj heq).1 hminus
  · rw [hread]
    split <;> rfl

theorem signedChars_toString {i : Int} (hlow : -(greatestSigned : Int) ≤ i + 1)
    (hhigh : i ≤ greatestSigned) : signedChars (toString i).toList = .ok i := by
  rw [Int.toString_eq_repr, Int.repr_eq_if]
  split
  · next hnonneg =>
    rw [signedChars_repr, if_pos (by omega), Int.toNat_of_nonneg hnonneg]
  · next hneg =>
    have hread := readMagnitude_repr (greatestSigned + 1) .tooSmall (-i).toNat
    rw [if_pos (by omega)] at hread
    have hsign : "-".toList ++ (-i).toNat.repr.toList = '-' :: (-i).toNat.repr.toList := rfl
    have hvalue : -Int.ofNat (-i).toNat = i := by
      rw [Int.ofNat_eq_natCast, Int.toNat_of_nonneg (by omega), Int.neg_neg]
    rw [String.toList_append, hsign, signedChars, hread]
    exact congrArg Except.ok hvalue

/-- The numeral of a machine integer reads as the integer. -/
theorem signed64_toString (n : Int64) : signed64 (toString n.toInt) = .ok n := by
  have hlow := Int64.le_toInt n
  have hhigh := Int64.toInt_lt n
  have hgreatest : greatestSigned = 9223372036854775807 := rfl
  rw [signed64, signedChars_toString (by omega) (by omega)]
  exact congrArg Except.ok (Int64.ofInt_toInt n)

end RelStore.Text
