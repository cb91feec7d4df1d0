import Mathlib.Data.List.Forall2

/-!
# Computations that agree

Two computations agree if both fail with the same error, or both succeed with related results
(`Agree`).  Sequences of computations that agree do so as well (`Agree.bind`), and so do loops over
related lists (`Agree.foldlM`).
-/

namespace RelStore

variable {α β γ α' β' γ' ε : Type}

/-- The same failure, or related results. -/
inductive Agree (R : α → α' → Prop) : Except ε α → Except ε α' → Prop
  | error (e : ε) : Agree R (.error e) (.error e)
  | ok {a : α} {a' : α'} (h : R a a') : Agree R (.ok a) (.ok a')

variable {R : α → α' → Prop} {S : β → β' → Prop}

theorem Agree.refl (e : Except ε α) : Agree Eq e e := by
  cases e with
  | error e => exact .error e
  | ok a => exact .ok rfl

theorem agree_iff {e : Except ε α} {e' : Except ε α'} :
    Agree R e e' ↔ (∃ fault, e = .error fault ∧ e' = .error fault) ∨
      ∃ a a', e = .ok a ∧ e' = .ok a' ∧ R a a' := by
  constructor
  · rintro (e | h)
    · exact .inl ⟨e, rfl, rfl⟩
    · exact .inr ⟨_, _, rfl, rfl, h⟩
  · rintro (⟨fault, rfl, rfl⟩ | ⟨a, a', rfl, rfl, h⟩)
    · exact .error fault
    · exact .ok h

theorem Agree.bind {e : Except ε α} {e' : Except ε α'} {k : α → Except ε β} {k' : α' → Except ε β'}
    (h : Agree R e e') (hk : ∀ a a', R a a' → Agree S (k a) (k' a')) :
    Agree S (e >>= k) (e' >>= k') := by
  cases h with
  | error e => exact .error e
  | ok h => exact hk _ _ h

/-- A loop over related lists agrees if its steps do. -/
theorem Agree.foldlM {f : β → α → Except ε β} {f' : β' → α' → Except ε β'} {l : List α}
    {l' : List α'} {b : β} {b' : β'} (hl : List.Forall₂ R l l') (hb : S b b')
    (hstep : ∀ a a' b b', R a a' → S b b' → Agree S (f b a) (f' b' a')) :
    Agree S (l.foldlM f b) (l'.foldlM f' b') := by
  induction hl generalizing b b' with
  | nil => exact .ok hb
  | cons ha _ ih =>
    rw [List.foldlM_cons, List.foldlM_cons]
    exact (hstep _ _ b b' ha hb).bind fun c c' hc => ih hc

/-- So does a loop over one list. -/
theorem Agree.foldlM_same {f : β → α → Except ε β} {f' : β' → α → Except ε β'} {l : List α} {b : β}
    {b' : β'} (hb : S b b') (hstep : ∀ a b b', S b b' → Agree S (f b a) (f' b' a)) :
    Agree S (l.foldlM f b) (l.foldlM f' b') := by
  have hl : List.Forall₂ Eq l l := List.forall₂_refl l
  refine Agree.foldlM hl hb ?_
  rintro a - b b' rfl hb
  exact hstep a b b' hb

/-- What is the same for related elements is the same for related lists. -/
theorem map_eq_map_of_rel {f : α → γ} {f' : α' → γ} {l : List α} {l' : List α'}
    (hl : List.Forall₂ R l l') (hf : ∀ a a', R a a' → f' a' = f a) : l'.map f' = l.map f := by
  induction hl with
  | nil => rfl
  | cons ha _ ih => rw [List.map_cons, List.map_cons, hf _ _ ha, ih]

/-- The first elements of related lists with a property that related elements share. -/
theorem rel_find? {p : α → Bool} {p' : α' → Bool} {l : List α} {l' : List α'}
    (hl : List.Forall₂ R l l') (hp : ∀ a a', R a a' → p' a' = p a) :
    Option.Rel R (l.find? p) (l'.find? p') := by
  induction hl with
  | nil => exact .none
  | @cons a a' _ _ ha _ ih =>
    rw [List.find?_cons, List.find?_cons, hp a a' ha]
    cases p a with
    | true => exact .some ha
    | false => exact ih

/-- What is the same for related elements is the same for elements that may be missing. -/
theorem map_eq_of_option_rel {f : α → γ} {f' : α' → γ} {o : Option α} {o' : Option α'}
    (h : Option.Rel R o o') (hf : ∀ a a', R a a' → f a = f' a') : o.map f = o'.map f' := by
  cases h with
  | none => rfl
  | some ha => exact congrArg some (hf _ _ ha)

theorem rel_getD {o : Option α} {o' : Option α'} {a : α} {a' : α'} (h : Option.Rel R o o')
    (ha : R a a') : R (o.getD a) (o'.getD a') := by
  cases h with
  | none => exact ha
  | some hb => exact hb

end RelStore
