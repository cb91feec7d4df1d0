/-!
# Computations that may fail

A chain succeeds if each of its steps does (`bind_eq_ok_iff`), a map over a list if it succeeds at
each element (`mapM_eq_ok_iff`), and what each step of a loop preserves holds at its end
(`foldlM_induction`).  Where there is a state, a chain runs its steps one after the other until one
fails, and keeps the state in which it fails (`run_bind`).
-/

namespace RelStore

variable {α β γ ε : Type}

theorem bind_eq_ok_iff {e : Except ε α} {k : α → Except ε β} {b : β} :
    (e >>= k) = .ok b ↔ ∃ a, e = .ok a ∧ k a = .ok b := by
  cases e with
  | error e => simp [bind, Except.bind]
  | ok a => simp [bind, Except.bind]

theorem bind_eq_error_iff {e : Except ε α} {k : α → Except ε β} {fault : ε} :
    (e >>= k) = .error fault ↔ e = .error fault ∨ ∃ a, e = .ok a ∧ k a = .error fault := by
  cases e with
  | error e => simp [bind, Except.bind]
  | ok a => simp [bind, Except.bind]

/-- A step that fails at no element fails at no list. -/
theorem mapM_eq_pure {m : Type → Type} [Monad m] [LawfulMonad m] {f : α → m β} {g : α → β}
    {l : List α} (h : ∀ a ∈ l, f a = pure (g a)) : l.mapM f = pure (l.map g) := by
  induction l with
  | nil => rfl
  | cons a l ih =>
    rw [List.forall_mem_cons] at h
    rw [List.mapM_cons, h.1, ih h.2]
    simp

theorem mapM_eq_ok_iff {f : α → Except ε β} {l : List α} {bs : List β} :
    l.mapM f = .ok bs ↔ l.map f = bs.map .ok := by
  induction l generalizing bs with
  | nil => cases bs <;> simp [pure, Except.pure]
  | cons a l ih =>
    rw [List.mapM_cons, bind_eq_ok_iff]
    simp only [bind_eq_ok_iff, ih]
    cases bs with
    | nil => simp [pure, Except.pure]
    | cons b bs =>
      simp only [List.map_cons, List.cons.injEq, pure, Except.pure, Except.ok.injEq]
      constructor
      · rintro ⟨b', hb, bs', hbs, rfl, rfl⟩
        exact ⟨hb, hbs⟩
      · rintro ⟨hb, hbs⟩
        exact ⟨b, hb, bs, hbs, rfl, rfl⟩

/-- The results of a map are those of its elements. -/
theorem mem_of_mapM_eq_ok {f : α → Except ε β} {l : List α} {bs : List β}
    (h : l.mapM f = .ok bs) {b : β} : b ∈ bs ↔ ∃ a ∈ l, f a = .ok b := by
  rw [mapM_eq_ok_iff] at h
  have hmem : (.ok b : Except ε β) ∈ bs.map .ok ↔ b ∈ bs := by simp
  rw [← hmem, ← h, List.mem_map]

theorem exists_of_mapM_eq_ok {f : α → Except ε β} {l : List α} {bs : List β}
    (h : l.mapM f = .ok bs) {a : α} (ha : a ∈ l) : ∃ b, f a = .ok b := by
  have hmem : f a ∈ l.map f := List.mem_map_of_mem ha
  rw [mapM_eq_ok_iff.1 h] at hmem
  obtain ⟨b, -, hb⟩ := List.mem_map.1 hmem
  exact ⟨b, hb.symm⟩

/-- What a function makes of each result of a map, it makes of all of them. -/
theorem map_eq_of_mapM_eq_ok {f : α → Except ε β} {g : β → γ} {k : α → γ} {l : List α}
    {bs : List β} (h : l.mapM f = .ok bs) (hg : ∀ a ∈ l, ∀ b, f a = .ok b → g b = k a) :
    bs.map g = l.map k := by
  rw [mapM_eq_ok_iff] at h
  induction l generalizing bs with
  | nil =>
    cases bs with
    | nil => rfl
    | cons b bs => simp at h
  | cons a l ih =>
    rw [List.forall_mem_cons] at hg
    cases bs with
    | nil => simp at h
    | cons b bs =>
      rw [List.map_cons, List.map_cons, List.cons.injEq] at h
      rw [List.map_cons, List.map_cons, hg.1 b h.1, ih h.2 hg.2]

/-- A loop goes on where its first part ends. -/
theorem foldlM_append_of_eq_ok {f : β → α → Except ε β} {l l' : List α} {b b' : β}
    (h : l.foldlM f b = .ok b') : (l ++ l').foldlM f b = l'.foldlM f b' := by
  rw [List.foldlM_append, h]
  rfl

/-- What holds at the start of a loop and is preserved by each step holds at its end.  It may speak
of the elements that have been read. -/
theorem foldlM_induction {f : β → α → Except ε β} {motive : List α → β → Prop} {l : List α}
    {b b' : β} (start : motive [] b)
    (step : ∀ done a rest c c', done ++ a :: rest = l → motive done c → f c a = .ok c' →
      motive (done ++ [a]) c')
    (h : l.foldlM f b = .ok b') : motive l b' := by
  suffices hrest : ∀ (rest done : List α) (c : β), done ++ rest = l → motive done c →
      rest.foldlM f c = .ok b' → motive l b' from hrest l [] b rfl start h
  intro rest
  induction rest with
  | nil =>
    intro done c hl hc hend
    rw [List.append_nil] at hl
    cases hend
    rwa [← hl]
  | cons a rest ih =>
    intro done c hl hc hend
    rw [List.foldlM_cons, bind_eq_ok_iff] at hend
    obtain ⟨c', hstep, hend⟩ := hend
    have hl' : done ++ [a] ++ rest = l := by
      rw [← hl]
      simp
    exact ih (done ++ [a]) c' hl' (step done a rest c c' hl hc hstep) hend

/-! ### Computations with a state -/

section State

variable {σ : Type} {m : ExceptT ε (StateM σ) α} {k : α → ExceptT ε (StateM σ) β} {t t' : σ}

theorem run_bind (m : ExceptT ε (StateM σ) α) (k : α → ExceptT ε (StateM σ) β) (t : σ) :
    (m >>= k).run t =
      match m.run t with
      | (.ok a, t') => (k a).run t'
      | (.error e, t') => (.error e, t') := by
  unfold ExceptT.run
  simp only [bind, ExceptT.bind, ExceptT.mk, StateT.bind, ExceptT.bindCont]
  cases m t with
  | mk result t' => cases result <;> rfl

/-- What succeeds is followed by the rest. -/
theorem run_bind_of_eq {a : α} (h : m.run t = (.ok a, t')) : (m >>= k).run t = (k a).run t' := by
  rw [run_bind, h]

theorem run_liftM (e : Except ε α) (t : σ) :
    (liftM e : ExceptT ε (StateM σ) α).run t = (e, t) := rfl

theorem run_get (t : σ) : (get : ExceptT ε (StateM σ) σ).run t = (.ok t, t) := rfl

end State

end RelStore
