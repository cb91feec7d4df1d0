import Mathlib.Data.List.Forall2
import RelStore.Proofs.Except
import RelStore.TableFile.Decode

/-!
# Line readers

`LineReader.Takes r ls a` says that a reader takes exactly the lines `ls` and gives `a`, whatever
lines follow.  Readers that are run one after the other take their lines one after the other
(`LineReader.Takes.bind`).

Read the other way, a reader that succeeds took the lines that are missing afterwards: the sequence
of two readers succeeds if each of them does (`LineReader.bind_eq_ok`), a line that was read is the
first of those that were left (`LineReader.line_eq_ok`), and what is read from all of them comes from
one each (`LineReader.rest_eq_ok`).
-/

namespace RelStore.LineReader

variable {α β : Type}

/-- The reader takes the lines and gives the value, whatever follows. -/
def Takes (r : LineReader α) (ls : List String) (a : α) : Prop :=
  ∀ rest number, r ⟨ls ++ rest, number⟩ = .ok (a, ⟨rest, number + ls.length⟩)

theorem takes_pure (a : α) : Takes (pure a) [] a := fun _ _ => rfl

theorem Takes.bind {r : LineReader α} {k : α → LineReader β} {ls ls' : List String} {a : α} {b : β}
    (hr : Takes r ls a) (hk : Takes (k a) ls' b) : Takes (r >>= k) (ls ++ ls') b := by
  intro rest number
  have hfirst := hr (ls' ++ rest) number
  have hsecond := hk rest (number + ls.length)
  have hbind : (r >>= k) ⟨ls ++ ls' ++ rest, number⟩ =
      (r ⟨ls ++ (ls' ++ rest), number⟩ >>= fun p => k p.1 p.2) := by
    rw [List.append_assoc]
    rfl
  rw [hbind, hfirst, List.length_append, ← Nat.add_assoc]
  exact hsecond

/-- A step that takes no line. -/
theorem Takes.seq {e : Except Error α} {k : α → LineReader β} {ls : List String} {a : α} {b : β}
    (he : e = .ok a) (hk : Takes (k a) ls b) : Takes ((liftM e : LineReader α) >>= k) ls b := by
  subst he
  have hlift : Takes (liftM (.ok a : Except Error α) : LineReader α) [] a := fun _ _ => rfl
  exact hlift.bind hk

theorem takes_line {what : String} {f : String → Except LineFault α} {l : String} {a : α}
    (h : f l = .ok a) : Takes (line what f) [l] a := by
  intro rest number
  simp only [line, List.cons_append, h]
  rfl

theorem takes_times {r : LineReader β} {lineOf : β → String} {bs : List β}
    (h : ∀ b ∈ bs, Takes r [lineOf b] b) : Takes (times r bs.length) (bs.map lineOf) bs := by
  induction bs with
  | nil => exact takes_pure []
  | cons b bs ih =>
    rw [List.forall_mem_cons] at h
    have hrest : Takes (times r bs.length >>= fun bs => pure (b :: bs)) (bs.map lineOf ++ [])
        (b :: bs) := (ih h.2).bind (takes_pure (b :: bs))
    rw [List.append_nil] at hrest
    exact Takes.bind h.1 hrest

/-- All lines that are left are read. -/
theorem rest_eq {f : String → Except LineFault β} {lineOf : β → String} {bs : List β}
    (h : ∀ b ∈ bs, f (lineOf b) = .ok b) (number : Nat) :
    rest f ⟨bs.map lineOf, number⟩ = .ok (bs, ⟨bs.map lineOf, number⟩) := by
  let read : String × Nat → LineReader β := fun p => liftM (located p.2 (f p.1))
  have hread : ∀ p ∈ bs.zipIdx (number + 1), (read ∘ Prod.map lineOf id) p = pure p.1 := by
    intro p hp
    simp only [Function.comp_apply, Prod.map, read, h p.1 (List.fst_mem_of_mem_zipIdx hp)]
    rfl
  have hall : ((bs.map lineOf).zipIdx (number + 1)).mapM read = pure bs := by
    rw [List.zipIdx_map, List.mapM_map, mapM_eq_pure hread, List.zipIdx_map_fst]
  exact congrFun hall ⟨bs.map lineOf, number⟩

/-! ### What a reader took -/

variable {r : LineReader α} {c c' : LineCursor} {a : α}

theorem bind_eq_ok {k : α → LineReader β} {b : β} (h : (r >>= k) c = .ok (b, c')) :
    ∃ a c₁, r c = .ok (a, c₁) ∧ k a c₁ = .ok (b, c') := by
  obtain ⟨⟨a, c₁⟩, hr, hk⟩ := bind_eq_ok_iff.1 (h : (r c >>= fun p => k p.1 p.2) = .ok (b, c'))
  exact ⟨a, c₁, hr, hk⟩

theorem pure_eq_ok {b : α} (h : (pure b : LineReader α) c = .ok (a, c')) : b = a ∧ c = c' := by
  cases h
  exact ⟨rfl, rfl⟩

/-- A step that takes no line. -/
theorem liftM_eq_ok {e : Except Error α} (h : (liftM e : LineReader α) c = .ok (a, c')) :
    e = .ok a ∧ c' = c := by
  cases e with
  | error e => contradiction
  | ok b =>
    cases h
    exact ⟨rfl, rfl⟩

theorem line_eq_ok {what : String} {f : String → Except LineFault α}
    (h : line what f c = .ok (a, c')) : ∃ l, c.rest = l :: c'.rest ∧ f l = .ok a := by
  cases hrest : c.rest with
  | nil =>
    simp only [line, hrest] at h
    contradiction
  | cons l rest =>
    cases hread : f l with
    | error fault =>
      simp only [line, hrest, hread] at h
      contradiction
    | ok b =>
      simp only [line, hrest, hread] at h
      cases h
      exact ⟨l, rfl, hread⟩

theorem exists_of_forall₂ {p : α → β → Prop} {as : List α} {bs : List β}
    (h : List.Forall₂ p as bs) : ∀ a ∈ as, ∃ b ∈ bs, p a b := by
  induction h with
  | nil => exact fun a ha => absurd ha List.not_mem_nil
  | cons hp _ ih =>
    rw [List.forall_mem_cons]
    refine ⟨⟨_, List.mem_cons_self, hp⟩, fun a ha => ?_⟩
    obtain ⟨b, hb, hab⟩ := ih a ha
    exact ⟨b, List.mem_cons_of_mem _ hb, hab⟩

/-- A reader that takes a line each time takes as many as it is run. -/
theorem times_eq_ok {p : String → α → Prop}
    (hr : ∀ c a c', r c = .ok (a, c') → ∃ l, c.rest = l :: c'.rest ∧ p l a) {n : Nat}
    {as : List α} (h : times r n c = .ok (as, c')) :
    as.length = n ∧ ∃ ls, c.rest = ls ++ c'.rest ∧ List.Forall₂ p ls as := by
  induction n generalizing c as with
  | zero =>
    obtain ⟨rfl, rfl⟩ := pure_eq_ok h
    exact ⟨rfl, [], rfl, .nil⟩
  | succ n ih =>
    obtain ⟨a, c₁, hfirst, h⟩ := bind_eq_ok h
    obtain ⟨others, c₂, hothers, h⟩ := bind_eq_ok h
    obtain ⟨rfl, rfl⟩ := pure_eq_ok h
    obtain ⟨l, hl, hp⟩ := hr _ _ _ hfirst
    obtain ⟨hlength, ls, hls, hall⟩ := ih hothers
    refine ⟨congrArg (· + 1) hlength, l :: ls, ?_, .cons hp hall⟩
    rw [hl, hls]
    rfl

/-- Reading element by element gives one result for each. -/
theorem mapM_eq_ok {γ : Type} {read : γ → LineReader β} {p : γ → β → Prop}
    (hread : ∀ x c b c', read x c = .ok (b, c') → p x b) {xs : List γ} {bs : List β}
    (h : xs.mapM read c = .ok (bs, c')) : List.Forall₂ p xs bs := by
  induction xs generalizing c bs with
  | nil =>
    obtain ⟨rfl, -⟩ := pure_eq_ok h
    exact .nil
  | cons x xs ih =>
    rw [List.mapM_cons] at h
    obtain ⟨b, c₁, hfirst, h⟩ := bind_eq_ok h
    obtain ⟨others, c₂, hothers, h⟩ := bind_eq_ok h
    obtain ⟨rfl, rfl⟩ := pure_eq_ok h
    exact .cons (hread _ _ _ _ hfirst) (ih hothers)

theorem located_eq_ok {number : Nat} {e : Except LineFault β} {b : β}
    (h : located number e = .ok b) : e = .ok b := by
  cases e with
  | error fault => contradiction
  | ok a =>
    cases h
    rfl

/-- Each result that is read from the lines that are left comes from one of them. -/
theorem rest_eq_ok {f : String → Except LineFault β} {bs : List β}
    (h : rest f c = .ok (bs, c')) : ∀ b ∈ bs, ∃ l ∈ c.rest, f l = .ok b := by
  obtain ⟨_, c₁, hget, h⟩ := bind_eq_ok h
  cases hget
  have hall : List.Forall₂ (fun p b => f p.1 = .ok b) (c.rest.zipIdx (c.number + 1)) bs :=
    mapM_eq_ok (fun ⟨_, _⟩ _ _ _ hp => located_eq_ok (liftM_eq_ok hp).1) h
  intro b hb
  obtain ⟨p, hp, hread⟩ := exists_of_forall₂ hall.flip b hb
  exact ⟨p.1, List.fst_mem_of_mem_zipIdx hp, hread⟩

end RelStore.LineReader
