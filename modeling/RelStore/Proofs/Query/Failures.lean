import RelStore.Proofs.Query.Provenance

/-!
# Failures of condition lists

An element of a condition list offends if it is a comparison that fails, or a connective with fewer
than two results before it (`Scope.Offends`).  Nothing else can go wrong on the way: the results on
the stack come from tables of the scope, so they can be aligned.  A list without an offending
element leaves as many results as `Condition.depth` counts (`Scope.exists_run`), and else the first
offending element decides the failure (`Scope.run_of_offends`).

`Scope.evaluate_eq_ok_iff` is the main result: an evaluation succeeds if and only if the list is an
expression in postfix order, or empty, and all its comparisons succeed.
-/

namespace RelStore

/-- The number of results after one more element of a condition list, if there are enough before
it. -/
def Condition.depth (n : Nat) : Condition → Option Nat
  | compare .. => some (n + 1)
  | and | or => if 2 ≤ n then some (n - 1) else none

namespace Scope

variable {s : Scope} {c : Condition} {conditions done rest : List Condition} {e : Error} {n m : Nat}
  {stack : List Relation}

/-- An element of a condition list that fails after `n` results. -/
inductive Offends (s : Scope) (n : Nat) : Condition → Error → Prop
  | comparison {left right : Operand} {op : Operator} {e : Error}
      (h : s.query (.compare left op right) = .error e) : Offends s n (.compare left op right) e
  | connective {c : Condition} (hc : c.isConnective) (hn : n < 2) :
      Offends s n c (.malformedCondition (.missingOperand (toString c)))

/-- An element that takes `n` results to `m`. -/
structure Passes (s : Scope) (n : Nat) (c : Condition) (m : Nat) : Prop where
  depth : c.depth n = some m
  query : ¬ c.isConnective → ∃ r, s.query c = .ok r

/-- A condition list that leaves `n` results. -/
structure Runs (s : Scope) (conditions : List Condition) (n : Nat) : Prop where
  depth : conditions.foldlM Condition.depth 0 = some n
  query : ∀ c ∈ conditions, ¬ c.isConnective → ∃ r, s.query c = .ok r

/-! ### Elements and lists -/

theorem passes_or_offends (s : Scope) (n : Nat) (c : Condition) :
    (∃ m, s.Passes n c m) ∨ ∃ e, s.Offends n c e := by
  have hconnective : c.isConnective → c.depth n = (if 2 ≤ n then some (n - 1) else none) →
      (∃ m, s.Passes n c m) ∨ ∃ e, s.Offends n c e := by
    intro hc hdepth
    by_cases hn : 2 ≤ n
    · rw [if_pos hn] at hdepth
      exact .inl ⟨_, hdepth, fun hnot => absurd hc hnot⟩
    · exact .inr ⟨_, .connective hc (Nat.lt_of_not_le hn)⟩
  cases c with
  | compare left op right =>
    cases hquery : s.query (.compare left op right) with
    | ok r => exact .inl ⟨n + 1, rfl, fun _ => ⟨r, hquery⟩⟩
    | error e => exact .inr ⟨e, .comparison hquery⟩
  | and => exact hconnective rfl rfl
  | or => exact hconnective rfl rfl

theorem runs_nil (s : Scope) : s.Runs [] 0 where
  depth := rfl
  query := fun _ hc => absurd hc List.not_mem_nil

theorem runs_append_iff :
    s.Runs (conditions ++ [c]) m ↔ ∃ n, s.Runs conditions n ∧ s.Passes n c m := by
  have hdepth : (conditions ++ [c]).foldlM Condition.depth 0 = some m ↔
      ∃ n, conditions.foldlM Condition.depth 0 = some n ∧ c.depth n = some m := by
    rw [List.foldlM_append]
    simp [Option.bind_eq_some_iff]
  constructor
  · rintro ⟨hfold, hquery⟩
    obtain ⟨n, hn, hc⟩ := hdepth.1 hfold
    exact ⟨n, ⟨hn, fun c' hc' => hquery c' (List.mem_append_left _ hc')⟩, hc, hquery c (by simp)⟩
  · rintro ⟨n, hruns, hpasses⟩
    refine ⟨hdepth.2 ⟨n, hruns.depth, hpasses.depth⟩, fun c' hc' => ?_⟩
    rcases List.mem_append.1 hc' with hc' | hc'
    · exact hruns.query c' hc'
    · rw [List.mem_singleton.1 hc']
      exact hpasses.query

/-- A list runs to its end, or there is a first element that offends. -/
theorem runs_or_offends (s : Scope) (conditions : List Condition) :
    (∃ n, s.Runs conditions n) ∨
      ∃ done c rest n e, conditions = done ++ c :: rest ∧ s.Runs done n ∧ s.Offends n c e := by
  induction conditions using List.reverseRecOn with
  | nil => exact .inl ⟨0, s.runs_nil⟩
  | append_singleton conditions c ih =>
    obtain ⟨n, hruns⟩ | ⟨done, c', rest, n, e, rfl, hruns, hoffends⟩ := ih
    · obtain ⟨m, hpasses⟩ | ⟨e, hoffends⟩ := s.passes_or_offends n c
      · exact .inl ⟨m, runs_append_iff.2 ⟨n, hruns, hpasses⟩⟩
      · exact .inr ⟨conditions, c, [], n, e, rfl, hruns, hoffends⟩
    · exact .inr ⟨done, c', rest ++ [c], n, e, by simp, hruns, hoffends⟩

/-- Once an element was read there is a result. -/
theorem Runs.eq_nil (h : s.Runs conditions 0) : conditions = [] := by
  induction conditions using List.reverseRecOn with
  | nil => rfl
  | append_singleton conditions c ih =>
    obtain ⟨n, -, hpasses⟩ := runs_append_iff.1 h
    have hdepth := hpasses.depth
    cases c with
    | compare left op right => simp [Condition.depth] at hdepth
    | and =>
      simp only [Condition.depth, Option.ite_none_right_eq_some, Option.some.injEq] at hdepth
      omega
    | or =>
      simp only [Condition.depth, Option.ite_none_right_eq_some, Option.some.injEq] at hdepth
      omega

/-! ### Steps -/

/-- The results on a stack come from tables of the scope. -/
def StackOver (s : Scope) (stack : List Relation) : Prop :=
  ∀ r ∈ stack, ∃ parts, r.Over s parts

theorem step_of_offends (h : s.Offends stack.length c e) : s.step stack c = .error e := by
  cases h with
  | comparison h =>
    rw [step, h]
    rfl
  | connective hc hn =>
    rcases stack with _ | ⟨r, _ | ⟨l, stack⟩⟩
    · cases c <;> first | rfl | contradiction
    · cases c <;> first | rfl | contradiction
    · simp at hn

section Run

variable (hs : s.Rectangular)

include hs

/-- An element that does not offend leaves results from tables of the scope. -/
theorem exists_step (hstack : s.StackOver stack) (h : s.Passes stack.length c m) :
    ∃ stack', s.step stack c = .ok stack' ∧ s.StackOver stack' ∧ stack'.length = m := by
  have hconnective : ∀ combine : Relation → Relation → Except Error Relation,
      (∀ {l r parts parts'}, l.Over s parts → r.Over s parts' →
        ∃ u parts, combine l r = .ok u ∧ u.Over s parts) →
      (∀ r l rest, s.step (r :: l :: rest) c = (combine l r).bind fun u => .ok (u :: rest)) →
      (if 2 ≤ stack.length then some (stack.length - 1) else none) = some m →
      ∃ stack', s.step stack c = .ok stack' ∧ s.StackOver stack' ∧ stack'.length = m := by
    intro combine hcombine hstep hdepth
    rcases stack with _ | ⟨r, _ | ⟨l, rest⟩⟩
    · contradiction
    · contradiction
    · rw [StackOver, List.forall_mem_cons, List.forall_mem_cons] at hstack
      obtain ⟨⟨parts', hr⟩, ⟨parts, hl⟩, hrest⟩ := hstack
      obtain ⟨u, hu, hover⟩ := hcombine hl hr
      refine ⟨u :: rest, ?_, List.forall_mem_cons.2 ⟨⟨hu, hover.2⟩, hrest⟩, ?_⟩
      · rw [hstep, hover.1]
        rfl
      · simpa using hdepth
  cases c with
  | compare left op right =>
    obtain ⟨r, hquery⟩ := h.query Bool.false_ne_true
    refine ⟨r :: stack, ?_, List.forall_mem_cons.2 ⟨over_query hs hquery, hstack⟩, ?_⟩
    · rw [step, hquery]
      rfl
    · exact Option.some.inj h.depth
  | and => exact hconnective s.intersect (over_intersect hs) (fun _ _ _ => rfl) h.depth
  | or => exact hconnective s.union (over_union hs) (fun _ _ _ => rfl) h.depth

/-- A list without an offending element runs to its end. -/
theorem exists_run (h : s.Runs conditions n) :
    ∃ stack, conditions.foldlM s.step [] = .ok stack ∧ s.StackOver stack ∧ stack.length = n := by
  induction conditions using List.reverseRecOn generalizing n with
  | nil =>
    cases h.depth
    exact ⟨[], rfl, fun r hr => absurd hr List.not_mem_nil, rfl⟩
  | append_singleton conditions c ih =>
    obtain ⟨m, hruns, hpasses⟩ := runs_append_iff.1 h
    obtain ⟨stack, hrun, hstack, rfl⟩ := ih hruns
    obtain ⟨stack', hstep, hstack'⟩ := exists_step hs hstack hpasses
    refine ⟨stack', ?_, hstack'⟩
    rw [foldlM_append_of_eq_ok hrun, List.foldlM_cons, hstep]
    rfl

theorem run_of_offends (h : s.Runs done n) (hoffends : s.Offends n c e) :
    (done ++ c :: rest).foldlM s.step [] = .error e := by
  obtain ⟨stack, hrun, -, rfl⟩ := exists_run hs h
  rw [foldlM_append_of_eq_ok hrun, List.foldlM_cons, step_of_offends hoffends]
  rfl

/-! ### Evaluation -/

theorem evaluate_of_offends (h : s.Runs done n) (hoffends : s.Offends n c e) :
    s.evaluate (done ++ c :: rest) = .error e := by
  rw [evaluate, run_of_offends hs h hoffends]
  rfl

theorem evaluate_of_runs (hne : s.tables ≠ []) (h : s.Runs conditions n) :
    (n < 2 ∧ ∃ r, s.evaluate conditions = .ok r) ∨
      2 ≤ n ∧ s.evaluate conditions = .error (.malformedCondition (.leftover n)) := by
  obtain ⟨stack, hrun, -, rfl⟩ := exists_run hs h
  have hevaluate : s.evaluate conditions = do return s.complete (← s.onlyResult stack) := by
    rw [evaluate, hrun]
    rfl
  rw [hevaluate]
  rcases stack with _ | ⟨r, _ | ⟨r', stack⟩⟩
  · obtain ⟨t, tables, htables⟩ := List.exists_cons_of_ne_nil hne
    have hfirst : s.firstTable = .ok t := by rw [firstTable, htables]
    refine .inl ⟨by simp, s.complete (t.result t.records), ?_⟩
    rw [onlyResult, hfirst]
    rfl
  · exact .inl ⟨by simp, _, rfl⟩
  · exact .inr ⟨by simp, rfl⟩

/-- A list is evaluated if it is empty or leaves one result. -/
theorem exists_evaluate_iff (hne : s.tables ≠ []) (conditions : List Condition) :
    (∃ r, s.evaluate conditions = .ok r) ↔
      (conditions = [] ∨ conditions.foldlM Condition.depth 0 = some 1) ∧
        ∀ c ∈ conditions, ¬ c.isConnective → ∃ r, s.query c = .ok r := by
  constructor
  · rintro ⟨r, hr⟩
    obtain ⟨n, hruns⟩ | ⟨done, c, rest, n, e, rfl, hruns, hoffends⟩ := s.runs_or_offends conditions
    · obtain ⟨hn, -⟩ | ⟨-, herror⟩ := evaluate_of_runs hs hne hruns
      · refine ⟨?_, hruns.query⟩
        obtain rfl | rfl : n = 0 ∨ n = 1 := by omega
        · exact .inl hruns.eq_nil
        · exact .inr hruns.depth
      · rw [herror] at hr
        contradiction
    · rw [evaluate_of_offends hs hruns hoffends] at hr
      contradiction
  · rintro ⟨hform, hquery⟩
    have hruns : ∃ n < 2, s.Runs conditions n := by
      obtain rfl | hdepth := hform
      · exact ⟨0, by omega, s.runs_nil⟩
      · exact ⟨1, by omega, hdepth, hquery⟩
    obtain ⟨n, hn, hruns⟩ := hruns
    obtain ⟨-, hok⟩ | ⟨hle, -⟩ := evaluate_of_runs hs hne hruns
    · exact hok
    · omega

/-- A failure is that of the first element that offends, or of too many results. -/
theorem evaluate_eq_error_iff (hne : s.tables ≠ []) (conditions : List Condition) (e : Error) :
    s.evaluate conditions = .error e ↔
      (∃ done c rest n, conditions = done ++ c :: rest ∧ s.Runs done n ∧ s.Offends n c e) ∨
        ∃ n, 2 ≤ n ∧ s.Runs conditions n ∧ e = .malformedCondition (.leftover n) := by
  constructor
  · intro he
    obtain ⟨n, hruns⟩ | ⟨done, c, rest, n, e', rfl, hruns, hoffends⟩ := s.runs_or_offends conditions
    · obtain ⟨-, r, hr⟩ | ⟨hn, herror⟩ := evaluate_of_runs hs hne hruns
      · rw [hr] at he
        contradiction
      · rw [herror] at he
        cases he
        exact .inr ⟨n, hn, hruns, rfl⟩
    · rw [evaluate_of_offends hs hruns hoffends] at he
      cases he
      exact .inl ⟨done, c, rest, n, rfl, hruns, hoffends⟩
  · rintro (⟨done, c, rest, n, rfl, hruns, hoffends⟩ | ⟨n, hn, hruns, rfl⟩)
    · exact evaluate_of_offends hs hruns hoffends
    · obtain ⟨hlt, -⟩ | ⟨-, herror⟩ := evaluate_of_runs hs hne hruns
      · omega
      · exact herror

/-- Any two results on the way can be aligned. -/
theorem exists_alignRows (hrun : done.foldlM s.step [] = .ok stack) {l r : Relation}
    (hl : l ∈ stack) (hr : r ∈ stack) : ∃ aligned, s.alignRows l r = .ok aligned := by
  obtain ⟨n, hruns⟩ | ⟨first, c, rest, n, e, rfl, hruns, hoffends⟩ := s.runs_or_offends done
  · obtain ⟨stack', hrun', hstack, -⟩ := exists_run hs hruns
    rw [hrun'] at hrun
    cases hrun
    obtain ⟨parts, hover⟩ := hstack l hl
    obtain ⟨parts', hover'⟩ := hstack r hr
    obtain ⟨left, right, mapping, -, haligned⟩ := exists_aligned hs hover hover'
    exact ⟨_, haligned⟩
  · rw [run_of_offends hs hruns hoffends] at hrun
    contradiction

/-- The evaluation of a condition list succeeds if and only if the list is empty or an expression in
postfix order, and all its comparisons succeed.  A failure is that of the first element that
offends, or says how many results are left.  All results on the way can be aligned. -/
theorem evaluate_eq_ok_iff (hne : s.tables ≠ []) (conditions : List Condition) :
    ((∃ r, s.evaluate conditions = .ok r) ↔
      (conditions = [] ∨ conditions.foldlM Condition.depth 0 = some 1) ∧
        ∀ c ∈ conditions, ¬ c.isConnective → ∃ r, s.query c = .ok r) ∧
    (∀ e, s.evaluate conditions = .error e ↔
      (∃ done c rest n, conditions = done ++ c :: rest ∧ s.Runs done n ∧ s.Offends n c e) ∨
        ∃ n, 2 ≤ n ∧ s.Runs conditions n ∧ e = .malformedCondition (.leftover n)) ∧
    ∀ done rest stack, conditions = done ++ rest → done.foldlM s.step [] = .ok stack →
      ∀ l ∈ stack, ∀ r ∈ stack, ∃ aligned, s.alignRows l r = .ok aligned :=
  ⟨exists_evaluate_iff hs hne conditions, evaluate_eq_error_iff hs hne conditions,
    fun _ _ _ _ hrun _ hl _ hr => exists_alignRows hs hrun hl hr⟩

end Run

/-- A table and an alias of it.  A result of the first is united with one of both; without the
connective two results are left, and a connective after one comparison offends. -/
theorem evaluate_eq_ok_iff_alias :
    let empty : Table := { Header.base "t" ⟨"t", [⟨"x", .int⟩], none⟩ with storage := .list #[] }
    let t := (empty.insertAll [[.int 1], [.int 2]]).2
    let s : Scope := ⟨[t, t.aliased "u"], by decide⟩
    let one : Condition := .compare (.column ⟨some "t", "x"⟩) .eq (.constant (.int 1))
    let below : Condition := .compare (.column ⟨some "t", "x"⟩) .lt (.column ⟨some "u", "x"⟩)
    s.Rectangular ∧ s.tables ≠ [] ∧ (∃ r, s.evaluate [one, below, .or] = .ok r) ∧
      s.evaluate [one, below] = .error (.malformedCondition (.leftover 2)) ∧
      s.evaluate [one, .and, below] = .error (.malformedCondition (.missingOperand "AND")) := by
  intro empty t s one below
  have ht : t.Filled fun s row => row.length = s.width := by
    refine .insertAll (.empty (?_ : Table.empty .list "t" empty.schema none [] .standard =
      .ok empty)) _ ?_
    · rfl
    · decide
  have hs : s.Rectangular :=
    List.forall_mem_cons.2 ⟨⟨ht, rfl⟩, List.forall_mem_singleton.2 ⟨ht.aliased "u", rfl⟩⟩
  have hne : s.tables ≠ [] := List.cons_ne_nil _ _
  have hone : ∃ r, s.query one = .ok r := ⟨_, rfl⟩
  have hbelow : ∃ r, s.query below = .ok r := ⟨_, rfl⟩
  have hruns : s.Runs [one, below] 2 := ⟨rfl, by simp [hone, hbelow]⟩
  refine ⟨hs, hne, ?_, ?_, ?_⟩
  · refine (evaluate_eq_ok_iff hs hne _).1.2 ⟨.inr rfl, ?_⟩
    simp [hone, hbelow, Condition.isConnective]
  · exact ((evaluate_eq_ok_iff hs hne _).2.1 _).2 (.inr ⟨2, Nat.le_refl 2, hruns, rfl⟩)
  · refine ((evaluate_eq_ok_iff hs hne _).2.1 _).2 (.inl ⟨[one], .and, [below], 1, rfl, ?_, ?_⟩)
    · exact ⟨rfl, by simp [hone]⟩
    · exact .connective rfl Nat.one_lt_two

end Scope

end RelStore
