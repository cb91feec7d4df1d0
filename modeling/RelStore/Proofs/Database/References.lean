import RelStore.Proofs.Database.Select
import RelStore.Proofs.Query.References

/-!
# References in conditions and in targets

The conditions of a selection resolve their references in the scope, its targets in the result of
the evaluation.  In a database whose column names hold no point, every column of the result is that
of one place in the scope, and both sides resolve the same references to the same columns
(`Database.Reachable.resolve_iff_resolve`), but for one kind: a scope splits a name at its first
point, so that the full names of columns are hidden from conditions if the table is read under a
name with a point (`Database.exists_hidden`).
-/

namespace RelStore.Database

variable {db : Database} {entries : List FromEntry} {conditions : List Condition}

/-- A reference means a place in the scope if and only if it means the column of this place in the
result, and the scope's split has left no point in the name of the column.  None is left if the
table is read under a name without a point.  The qualified name of a column of the result always
means that column in the result, and in the scope if the table has such a name. -/
theorem Reachable.resolve_iff_resolve (hdb : db.Reachable Schema.Plain) {s : Scope}
    (hscope : db.scope entries = .ok s) {r : Relation} (hr : s.evaluate conditions = .ok r) :
    db.visibleTables entries = .ok s.tables ∧
    ∃ places, r.LaidOut s places ∧
      (∀ ref place, s.resolve ref = .ok place ↔ Scope.SplitsPlain ref ∧
        ∃ j, r.schema.resolve ref.table ref.name = .ok j ∧ places[j]? = some place) ∧
      (∀ ref j, r.schema.resolve ref.table ref.name = .ok j →
        ∃ place, places[j]? = some place ∧
          ('.' ∉ place.table.name.toList → s.resolve ref = .ok place)) ∧
      ∀ j name, r.schema.qualifiedNames[j]? = some name →
        r.schema.resolve none name = .ok j ∧
          ∀ place, s.resolve ⟨none, name⟩ = .ok place ↔
            places[j]? = some place ∧ '.' ∉ place.table.name.toList := by
  have htables := scope_eq_ok hscope
  have hs : s.Readable := hdb.readable htables
  have hnamed : ∀ t ∈ s.tables, t.Named := fun t ht => (hs t ht).toNamed
  obtain ⟨f, parts, -, hperm, hdenotes⟩ := Scope.evaluate_denotes hs hr
  refine ⟨htables, Scope.placesOf parts, hdenotes.laidOut hperm, ?_, ?_, ?_⟩
  · intro ref place
    exact hdenotes.resolve_iff hperm hnamed
  · intro ref j hresolve
    exact hdenotes.resolve_of_plain hperm hnamed hresolve
  · intro j name hname
    exact hdenotes.resolve_qualified hperm hnamed hname

/-- A table that is read under a name with a point and under one without.  The column of the second
comes first in the result, and is found by its qualified name in the scope; that of the first is
not. -/
theorem Reachable.resolve_iff_resolve_two_names :
    let s : Schema := ⟨"t", [⟨"x", .int⟩], none⟩
    let stored (rows : Array Row) : Database := { inMemory with
      tables := [{ Header.base "t" s with storage := .list rows }] }
    let db := stored #[[.int 1]]
    let entries : List FromEntry := [⟨"t", some "a.b"⟩, ⟨"t", some "c"⟩]
    let condition : Condition := .compare (.column ⟨none, "c.x"⟩) .eq (.constant (.int 1))
    db.Reachable Schema.Plain ∧
    ∃ scope r places, db.scope entries = .ok scope ∧ scope.evaluate [condition] = .ok r ∧
      r.LaidOut scope places ∧ r.schema.qualifiedNames = ["c.x", "a.b.x"] ∧
      r.rows = [[.int 1, .int 1]] ∧
      (∀ place, scope.resolve ⟨none, "c.x"⟩ = .ok place ↔ places[0]? = some place) ∧
      ∀ place, scope.resolve ⟨none, "a.b.x"⟩ ≠ .ok place := by
  intro s stored db entries condition
  have hcreate : inMemory.create s [] (some .list) = .ok (.list, stored #[]) := rfl
  have hplain : s.Plain := by
    intro c hc
    rw [List.mem_singleton.1 hc]
    decide
  have hinsert : (stored #[]).insert "t" [.int 1] = .ok (.success, db) := rfl
  have hdb : db.Reachable Schema.Plain := .insert (.create (.empty {}) hplain hcreate) hinsert
  obtain ⟨scope, hscope⟩ : ∃ scope, db.scope entries = .ok scope := ⟨_, rfl⟩
  obtain ⟨r, hr⟩ : ∃ r, scope.evaluate [condition] = .ok r := by
    cases hscope
    exact ⟨_, rfl⟩
  have hnames : r.schema.qualifiedNames = ["c.x", "a.b.x"] ∧ r.rows = [[.int 1, .int 1]] := by
    simp only [s, stored, db, entries, condition] at hscope hr
    cases hscope
    cases hr
    exact ⟨by rfl, by rfl⟩
  obtain ⟨-, places, hlaidOut, hresolve, -, hqualified⟩ := hdb.resolve_iff_resolve hscope hr
  have hfirst : r.schema.resolve none "c.x" = .ok 0 := by
    refine (hqualified 0 "c.x" ?_).1
    rw [hnames.1]
    rfl
  refine ⟨hdb, scope, r, places, hscope, hr, hlaidOut, hnames.1, hnames.2, ?_, ?_⟩
  · intro place
    rw [hresolve]
    constructor
    · rintro ⟨-, j, hj, hplace⟩
      cases hfirst.symm.trans hj
      exact hplace
    · intro hplace
      exact ⟨by decide, 0, hfirst, hplace⟩
  · intro place hplace
    exact absurd ((hresolve _ _).1 hplace).1 (by decide)

/-- A table is read under a name with a point.  A target finds its column by the qualified name, and
a condition does not. -/
theorem exists_hidden :
    ∃ (db : Database) (entries : List FromEntry) (s : Scope) (r : Relation),
      db.Reachable Schema.Plain ∧ db.scope entries = .ok s ∧ s.evaluate [] = .ok r ∧
        r.schema.resolve none "a.b.x" = .ok 0 ∧
        s.resolve ⟨none, "a.b.x"⟩ = .error (.tableNotFound "a") := by
  let s : Schema := ⟨"t", [⟨"x", .int⟩], none⟩
  let db : Database := { inMemory with
    tables := [{ Header.base "t" s with storage := .list #[] }] }
  have hcreate : inMemory.create s [] (some .list) = .ok (.list, db) := rfl
  have hplain : s.Plain := by
    intro c hc
    rw [List.mem_singleton.1 hc]
    decide
  have hdb : db.Reachable Schema.Plain := .create (.empty {}) hplain hcreate
  refine ⟨db, [⟨"t", some "a.b"⟩, ⟨"t", some "c"⟩], _, _, hdb, rfl, rfl, ?_, rfl⟩
  simp only [s]
  rfl

end RelStore.Database
