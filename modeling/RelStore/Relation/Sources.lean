/-!
# Sources

`Sources` is a set of table names: those that a relation's rows come from.  The names are kept in
ascending order without repetition, so that equal sets are equal values.  `mem_insert`, `mem_union`
and `mem_diff` say which names the operations hold.
-/

namespace RelStore

/-- A set of table names. -/
structure Sources where
  names : List String
  ascending : names.Pairwise fun a b => compare a b = .lt
deriving DecidableEq

namespace Sources

instance : Membership String Sources where
  mem s name := name ∈ s.names

instance (name : String) (s : Sources) : Decidable (name ∈ s) :=
  inferInstanceAs (Decidable (name ∈ s.names))

/-- The set without names. -/
def empty : Sources where
  names := []
  ascending := .nil

instance : Inhabited Sources where
  default := empty

/-- Puts a name in its place in an ascending list. -/
def insertName (name : String) : List String → List String
  | [] => [name]
  | b :: l =>
    match compare name b with
    | .lt => name :: b :: l
    | .eq => b :: l
    | .gt => b :: insertName name l

theorem mem_insertName {a name : String} {l : List String} :
    a ∈ insertName name l ↔ a = name ∨ a ∈ l := by
  induction l with
  | nil => simp [insertName]
  | cons b l ih =>
    unfold insertName
    split
    · simp
    · next h =>
      have hb : name = b := Std.LawfulEqOrd.eq_of_compare h
      simp [hb]
    · simp only [List.mem_cons, ih]
      exact or_left_comm

theorem ascending_insertName {name : String} {l : List String}
    (h : l.Pairwise fun a b => compare a b = .lt) :
    (insertName name l).Pairwise fun a b => compare a b = .lt := by
  induction l with
  | nil => simp [insertName]
  | cons b l ih =>
    obtain ⟨hb, hl⟩ := List.pairwise_cons.1 h
    unfold insertName
    split
    · next hlt =>
      refine List.pairwise_cons.2 ⟨fun c hc => ?_, h⟩
      rcases List.mem_cons.1 hc with rfl | hc
      · exact hlt
      · exact Std.TransCmp.lt_trans hlt (hb c hc)
    · exact h
    · next hgt =>
      refine List.pairwise_cons.2 ⟨fun c hc => ?_, ih hl⟩
      rcases mem_insertName.1 hc with rfl | hc
      · exact Std.OrientedCmp.lt_of_gt hgt
      · exact hb c hc

/-- Adds a name. -/
def insert (s : Sources) (name : String) : Sources where
  names := insertName name s.names
  ascending := ascending_insertName s.ascending

/-- The set of one name. -/
def single (name : String) : Sources :=
  empty.insert name

/-- The set of the names in a list. -/
def ofList (names : List String) : Sources :=
  names.foldl insert empty

/-- The names of either set. -/
def union (s t : Sources) : Sources :=
  t.names.foldl insert s

/-- The names of `s` that `t` lacks, in ascending order. -/
def diff (s t : Sources) : List String :=
  s.names.filter fun name => name ∉ t

/-- The number of names. -/
def size (s : Sources) : Nat :=
  s.names.length

/-! ### Members -/

theorem mem_names {a : String} {s : Sources} : a ∈ s.names ↔ a ∈ s := Iff.rfl

@[simp] theorem mem_insert {a name : String} {s : Sources} :
    a ∈ s.insert name ↔ a = name ∨ a ∈ s :=
  mem_insertName

theorem mem_foldl_insert {a : String} {names : List String} {s : Sources} :
    a ∈ names.foldl insert s ↔ a ∈ names ∨ a ∈ s := by
  induction names generalizing s with
  | nil => simp
  | cons b names ih =>
    rw [List.foldl_cons, ih, mem_insert, List.mem_cons]
    grind

@[simp] theorem mem_union {a : String} {s t : Sources} : a ∈ s.union t ↔ a ∈ s ∨ a ∈ t := by
  unfold union
  rw [mem_foldl_insert, mem_names]
  exact Or.comm

@[simp] theorem mem_diff {a : String} {s t : Sources} : a ∈ s.diff t ↔ a ∈ s ∧ a ∉ t := by
  simp [diff, mem_names]

@[simp] theorem mem_single {a name : String} : a ∈ single name ↔ a = name := by
  have hempty : a ∉ empty := List.not_mem_nil
  rw [single, mem_insert, or_iff_left hempty]

end Sources

end RelStore
