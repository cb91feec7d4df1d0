import RelStore.FileTree.Basic
import RelStore.Proofs.FileTree.Path
import Std.Data.HashMap.Lemmas

/-!
# Directories of a file tree

`FileTree.DirectoryAt t path location` says that a path leads to a directory at a location.  Then
the paths that `Path.join` makes of names lead to the locations right below it
(`DirectoryAt.locate_join`), and `FileTree.namesIn` lists the names for which there is something
(`DirectoryAt.mem_namesIn`).

Whatever keeps directories in their places keeps paths leading where they lead (`DirectoryAt.mono`).
-/

namespace RelStore.FileTree

variable {t t' : FileTree} {path name : String} {location : Location}

/-- A path that can be followed and leads to a directory. -/
structure DirectoryAt (t : FileTree) (path : String) (location : Location) : Prop where
  accepts : t.accepts path
  follows : (Path.parts path).foldlM t.step [] = .ok location
  get?_eq : t.get? location = some .directory

/-! ### Steps -/

theorem get?_of_step {next : Location} (h : t.step location name = .ok next) :
    t.get? location = some .directory := by
  unfold step at h
  split at h
  · contradiction
  · contradiction
  · next hdirectory => exact hdirectory

theorem step_point (h : t.get? location = some .directory) : t.step location "." = .ok location := by
  rw [step, h]
  rfl

/-- A proper name leads one level down, unless it is too long. -/
theorem step_eq (h : Path.IsName name) (hdirectory : t.get? location = some .directory) :
    t.step location name =
      if nameLimit < name.utf8ByteSize then .error .badName else .ok (location ++ [name]) := by
  simp only [step, hdirectory, if_neg h.ne_point, if_neg h.ne_points]

theorem step_mono (hdirectories : ∀ l, t.get? l = some .directory → t'.get? l = some .directory)
    {next : Location} (h : t.step location name = .ok next) : t'.step location name = .ok next := by
  have hdirectory := get?_of_step h
  rw [step, hdirectory] at h
  rw [step, hdirectories _ hdirectory]
  exact h

theorem foldlM_step_mono
    (hdirectories : ∀ l, t.get? l = some .directory → t'.get? l = some .directory)
    {names : List String} {last : Location} (h : names.foldlM t.step location = .ok last) :
    names.foldlM t'.step location = .ok last := by
  induction names generalizing location with
  | nil => exact h
  | cons name names ih =>
    rw [List.foldlM_cons] at h ⊢
    cases hstep : t.step location name with
    | error fault =>
      rw [hstep] at h
      contradiction
    | ok next =>
      rw [hstep] at h
      rw [step_mono hdirectories hstep]
      exact ih h

/-- Names that lead on have begun in a directory. -/
theorem get?_of_foldlM_step {names : List String} {last : Location}
    (h : names.foldlM t.step location = .ok last) (hlast : t.get? last = some .directory) :
    t.get? location = some .directory := by
  cases names with
  | nil =>
    cases h
    exact hlast
  | cons name names =>
    rw [List.foldlM_cons] at h
    cases hstep : t.step location name with
    | error fault =>
      rw [hstep] at h
      contradiction
    | ok next => exact get?_of_step hstep

theorem DirectoryAt.mono (h : t.DirectoryAt path location) (hlimit : t'.pathLimit = t.pathLimit)
    (hdirectories : ∀ l, t.get? l = some .directory → t'.get? l = some .directory) :
    t'.DirectoryAt path location where
  accepts := by
    have haccepts := h.accepts
    rwa [FileTree.accepts, ← hlimit] at haccepts
  follows := foldlM_step_mono hdirectories h.follows
  get?_eq := hdirectories _ h.get?_eq

/-! ### Paths below a directory -/

theorem locate_eq (haccepts : t.accepts path) :
    t.locate path = (Path.names path).foldlM t.step [] := by
  simp only [locate, haccepts]
  rfl

theorem DirectoryAt.locate (h : t.DirectoryAt path location) : t.locate path = .ok location := by
  rw [locate_eq h.accepts, Path.names, List.foldlM_append, h.follows]
  simp only [bind, Except.bind]
  split
  · rw [List.foldlM_cons, step_point h.get?_eq]
    rfl
  · rfl

/-- A name leads right below the directory, unless it or its path is too long. -/
theorem DirectoryAt.locate_join (h : t.DirectoryAt path location) (hname : Path.IsName name) :
    t.locate (Path.join path name) =
      if t.accepts (Path.join path name) ∧ name.utf8ByteSize ≤ nameLimit then
        .ok (location ++ [name])
      else .error .badName := by
  by_cases haccepts : t.accepts (Path.join path name)
  · rw [locate_eq haccepts, Path.names_join path hname, List.foldlM_append, h.follows]
    simp only [bind, Except.bind]
    rw [List.foldlM_cons, step_eq hname h.get?_eq]
    by_cases hlimit : name.utf8ByteSize ≤ nameLimit
    · rw [if_neg (Nat.not_lt.2 hlimit), if_pos ⟨haccepts, hlimit⟩]
      rfl
    · rw [if_pos (Nat.lt_of_not_le hlimit), if_neg fun hboth => hlimit hboth.2]
      rfl
  · rw [if_neg fun hboth => haccepts hboth.1]
    simp only [FileTree.locate, haccepts]
    rfl

theorem DirectoryAt.eq_of_locate_join (h : t.DirectoryAt path location) (hname : Path.IsName name)
    {l : Location} (hl : t.locate (Path.join path name) = .ok l) : l = location ++ [name] := by
  rw [h.locate_join hname] at hl
  split at hl
  · exact (Except.ok.inj hl).symm
  · contradiction

theorem accepts_of_locate {l : Location} (h : t.locate path = .ok l) : t.accepts path := by
  by_cases haccepts : t.accepts path
  · exact haccepts
  · simp only [locate, haccepts] at h
    contradiction

theorem accepts_of_append {rest : String} (h : t.accepts (path ++ rest)) : t.accepts path := by
  simp only [accepts, Bool.and_eq_true, decide_eq_true_eq, String.utf8ByteSize_append,
    Bool.not_eq_true', String.toList_append, List.contains_append, Bool.or_eq_false_iff] at h ⊢
  exact ⟨by omega, h.2.1⟩

/-- A path below a directory can only be followed if the directory is there. -/
theorem directoryAt_of_locate_join (hname : Path.IsName name) {l : Location}
    (h : t.locate (Path.join path name) = .ok l) : ∃ location, t.DirectoryAt path location := by
  have haccepts := accepts_of_locate h
  rw [locate_eq haccepts, Path.names_join path hname, List.foldlM_append] at h
  obtain ⟨rest, hrest⟩ := Path.exists_join_eq path hname
  rw [hrest] at haccepts
  cases hfollows : (Path.parts path).foldlM t.step [] with
  | error fault =>
    rw [hfollows] at h
    contradiction
  | ok location =>
    refine ⟨location, accepts_of_append haccepts, hfollows, ?_⟩
    cases hstep : t.step location name with
    | error fault => simp [hfollows, hstep, bind, Except.bind] at h
    | ok next => exact get?_of_step hstep

/-! ### Making directories -/

theorem ne_nil_of_get?_eq_none (h : t.get? location = none) : location ≠ [] := by
  rintro rfl
  rw [get?_root] at h
  contradiction

theorem pathLimit_makeAlong (t : FileTree) (location : Location) (names : List String) :
    (t.makeAlong location names).2.pathLimit = t.pathLimit := by
  fun_induction makeAlong t location names with
  | case3 t location name names next hstep hget ih => exact ih
  | case6 t location name names next hstep hget hpoints ih => exact ih
  | _ => rfl

theorem get?_put_directory {next l : Location} {node : FileNode} (hnext : t.get? next = none)
    (h : t.get? l = some node) : (t.put next .directory).get? l = some node := by
  have hne : l ≠ next := by
    rintro rfl
    rw [hnext] at h
    contradiction
  rw [get?_put t (ne_nil_of_get?_eq_none hnext), if_neg hne, h]

/-- Nothing is lost. -/
theorem get?_makeAlong (location : Location) (names : List String) {l : Location} {node : FileNode}
    (h : t.get? l = some node) : (t.makeAlong location names).2.get? l = some node := by
  fun_induction makeAlong t location names with
  | case3 t location name names next hstep hget ih => exact ih h
  | case6 t location name names next hstep hget hpoints ih => exact ih (get?_put_directory hget h)
  | _ => exact h

/-- The names lead to what is made, and that is a directory. -/
theorem follows_makeAlong {names : List String} (hlocation : t.get? location = some .directory)
    (h : (t.makeAlong location names).1 = .ok ()) :
    ∃ last, names.foldlM (t.makeAlong location names).2.step location = .ok last ∧
      (t.makeAlong location names).2.get? last = some .directory := by
  fun_induction makeAlong t location names with
  | case1 t location => exact ⟨location, rfl, hlocation⟩
  | case3 t location name names next hstep hget ih =>
    obtain ⟨last, hfollows, hlast⟩ := ih hget h
    have hfirst := step_mono (fun l hl => get?_makeAlong next names hl) hstep
    refine ⟨last, ?_, hlast⟩
    rw [List.foldlM_cons, hfirst]
    exact hfollows
  | case6 t location name names next hstep hget hpoints ih =>
    have hnext : (t.put next .directory).get? next = some .directory := by
      rw [get?_put t (ne_nil_of_get?_eq_none hget), if_pos rfl]
    obtain ⟨last, hfollows, hlast⟩ := ih hnext h
    have hfirst := step_mono
      (fun l hl => get?_makeAlong next names (get?_put_directory hget hl)) hstep
    refine ⟨last, ?_, hlast⟩
    rw [List.foldlM_cons, hfirst]
    exact hfollows
  | _ => contradiction

/-- Where all directories are there none is made. -/
theorem makeAlong_eq {names : List String} {last : Location}
    (h : names.foldlM t.step location = .ok last) (hlast : t.get? last = some .directory) :
    t.makeAlong location names = (.ok (), t) := by
  induction names generalizing location with
  | nil => rfl
  | cons name names ih =>
    rw [List.foldlM_cons] at h
    cases hstep : t.step location name with
    | error fault =>
      rw [hstep] at h
      contradiction
    | ok next =>
      rw [hstep] at h
      have hnext : t.get? next = some .directory := get?_of_foldlM_step h hlast
      simp only [makeAlong, hstep, hnext]
      exact ih h

/-- A directory that is made is there. -/
theorem directoryAt_makeDirectories (h : t.makeDirectories path = (.ok (), t')) :
    ∃ location, t'.DirectoryAt path location ∧ t'.pathLimit = t.pathLimit ∧
      ∀ l node, t.get? l = some node → t'.get? l = some node := by
  unfold makeDirectories at h
  split at h
  · next haccepts =>
    obtain ⟨hok, rfl⟩ := Prod.ext_iff.1 h
    have hlimit := pathLimit_makeAlong t [] (Path.parts path)
    obtain ⟨location, hfollows, hlast⟩ := follows_makeAlong (get?_root t) hok
    refine ⟨location, ⟨?_, hfollows, hlast⟩, hlimit, fun l node => get?_makeAlong [] _⟩
    rwa [accepts, hlimit]
  · cases h

/-- A directory that is there is not made again, and neither is one above it. -/
theorem DirectoryAt.makeDirectories_eq (h : t.DirectoryAt path location) {other : String}
    (hparts : Path.parts other <+: Path.parts path) :
    t.makeDirectories other = (if t.accepts other then .ok () else .error .badName, t) := by
  obtain ⟨rest, hrest⟩ := hparts
  have hfollows := h.follows
  rw [← hrest, List.foldlM_append] at hfollows
  unfold makeDirectories
  split
  · cases hother : (Path.parts other).foldlM t.step [] with
    | error fault =>
      rw [hother] at hfollows
      contradiction
    | ok last =>
      rw [hother] at hfollows
      exact makeAlong_eq hother (get?_of_foldlM_step hfollows h.get?_eq)
  · rfl

theorem DirectoryAt.makeDirectories_self (h : t.DirectoryAt path location) :
    t.makeDirectories path = (.ok (), t) := by
  rw [h.makeDirectories_eq List.prefix_rfl, if_pos h.accepts]

/-- A name becomes a directory below the root, if there is nothing yet. -/
theorem makeDirectories_name (hname : Path.IsName name) (haccepts : t.accepts name)
    (hshort : name.utf8ByteSize ≤ nameLimit) (hfree : t.get? [name] = none) :
    t.makeDirectories name = (.ok (), t.put [name] .directory) ∧
      (t.put [name] .directory).DirectoryAt name [name] := by
  have hparts := Path.parts_eq_singleton hname
  have hstep : ∀ t' : FileTree, t'.step [] name = .ok [name] := by
    intro t'
    rw [step_eq hname (get?_root t'), if_neg (Nat.not_lt.2 hshort)]
    rfl
  refine ⟨?_, haccepts, ?_, ?_⟩
  · rw [makeDirectories, if_pos haccepts, hparts]
    simp [makeAlong, hstep, hfree]
  · rw [hparts, List.foldlM_cons, hstep]
    rfl
  · rw [get?_put _ (by simp), if_pos rfl]

/-! ### Listings -/

theorem nameBelow_eq_some_iff {l : Location} :
    (if l.dropLast = location then l.getLast? else none) = some name ↔ l = location ++ [name] := by
  constructor
  · intro h
    split at h
    · next hinit =>
      obtain ⟨init, rfl⟩ := List.getLast?_eq_some_iff.1 h
      rw [List.dropLast_concat] at hinit
      rw [hinit]
    · contradiction
  · rintro rfl
    rw [List.dropLast_concat, if_pos rfl, List.getLast?_concat]

theorem nodup_namesIn (t : FileTree) (path : String) : (t.namesIn path).Nodup := by
  unfold namesIn
  split
  · exact .nil
  · next location hlocate =>
    refine (List.mergeSort_perm _ _).nodup_iff.2 (List.Pairwise.filterMap _ ?_ t.nodes.nodup_keys)
    intro l l' hne name hl name' hl' heq
    rw [heq] at hl
    exact hne ((nameBelow_eq_some_iff.1 hl).trans (nameBelow_eq_some_iff.1 hl').symm)

theorem get?_empty {l : Location} (h : l ≠ []) : ({} : FileTree).get? l = none := by
  simp [get?, h]

theorem namesIn_empty (path : String) : ({} : FileTree).namesIn path = [] := by
  simp only [namesIn, Std.HashMap.keys_empty, List.filterMap_nil, List.mergeSort_nil]
  split <;> rfl

theorem DirectoryAt.mem_namesIn (h : t.DirectoryAt path location) :
    name ∈ t.namesIn path ↔ (t.get? (location ++ [name])).isSome := by
  have hget : t.get? (location ++ [name]) = t.nodes[location ++ [name]]? :=
    if_neg (List.concat_ne_nil name location)
  simp only [namesIn, h.locate, List.mem_mergeSort, List.mem_filterMap, Std.HashMap.mem_keys,
    nameBelow_eq_some_iff]
  rw [hget, exists_eq_right, ← Std.HashMap.contains_iff_mem, Std.HashMap.contains_eq_isSome_getElem?]

/-- Nothing is in a directory that is made where nothing was. -/
theorem namesIn_makeDirectories_name (hname : Path.IsName name) (haccepts : t.accepts name)
    (hshort : name.utf8ByteSize ≤ nameLimit) (hfree : t.get? [name] = none)
    (hbelow : ∀ other, t.get? [name, other] = none) {made : FileTree}
    (hmade : t.makeDirectories name = (.ok (), made)) : made.namesIn name = [] := by
  obtain ⟨hmake, hdirectory⟩ := makeDirectories_name hname haccepts hshort hfree
  rw [hmake] at hmade
  cases hmade
  rw [List.eq_nil_iff_forall_not_mem]
  intro other
  rw [hdirectory.mem_namesIn, List.singleton_append, get?_put _ (by simp), if_neg (by simp),
    hbelow]
  simp

/-- The first directory of all is empty. -/
theorem namesIn_makeDirectories_empty (hname : Path.IsName name)
    (haccepts : ({} : FileTree).accepts name) (hshort : name.utf8ByteSize ≤ nameLimit)
    {made : FileTree} (hmade : ({} : FileTree).makeDirectories name = (.ok (), made)) :
    made.namesIn name = [] :=
  namesIn_makeDirectories_name hname haccepts hshort (get?_empty (by simp))
    (fun _ => get?_empty (by simp)) hmade

end RelStore.FileTree
