import Mathlib.Logic.Function.Basic
import RelStore.Proofs.FileTree.Directory

/-!
# Contents of a directory

`FileTree.Holds t path location reach contents` says that a path leads to a directory and that
`contents` are the texts of the files in it, by name, and that there is nothing else.  Actions on
names below the path change the contents at these names only: a text is put there
(`Holds.writeText`), moved (`Holds.rename`) or taken away (`Holds.remove`).  What is held can be
read (`Holds.readText`).

The names that satisfy `reach` can be reached, whether or not there is a file, and stay so: actions
on them do not fail (`Holds.exists_writeText`, `Holds.exists_rename`,
`Holds.eq_notFound_of_remove`).  These are names that are not too long (`FileTree.Fits`).
-/

namespace RelStore.FileTree

variable {t t' : FileTree} {path name : String} {location : Location}
  {reach : String → Prop} {contents : String → Option String}

/-- A name of a file that, below the path, is not too long. -/
structure Fits (t : FileTree) (path name : String) : Prop where
  isName : Path.IsName name
  accepts : t.accepts (Path.join path name)
  size_le : name.utf8ByteSize ≤ nameLimit

/-- The directory has files with these texts and nothing else, and paths lead to them and to the
names that can be reached. -/
structure Holds (t : FileTree) (path : String) (location : Location) (reach : String → Prop)
    (contents : String → Option String) : Prop where
  directory : t.DirectoryAt path location
  get?_eq : ∀ name, t.get? (location ++ [name]) =
    (contents name).map fun text => .file text.toUTF8
  locate_eq : ∀ name, (contents name).isSome ∨ reach name →
    t.locate (Path.join path name) = .ok (location ++ [name])

theorem DirectoryAt.locate_of_fits (h : t.DirectoryAt path location) (hname : t.Fits path name) :
    t.locate (Path.join path name) = .ok (location ++ [name]) := by
  rw [h.locate_join hname.isName, if_pos ⟨hname.accepts, hname.size_le⟩]

/-- A name is not too long if it is not with something after it. -/
theorem Fits.of_append {suffix : String} (hname : Path.IsName name)
    (h : t.Fits path (name ++ suffix)) : t.Fits path name where
  isName := hname
  accepts := by
    have haccepts := h.accepts
    rw [← Path.join_append path hname suffix] at haccepts
    exact accepts_of_append haccepts
  size_le := by
    have hsize := h.size_le
    rw [String.utf8ByteSize_append] at hsize
    omega

/-- Names that are not too long can be reached. -/
theorem Holds.fits (h : t.Holds path location reach contents) :
    t.Holds path location (t.Fits path) contents where
  directory := h.directory
  get?_eq := h.get?_eq
  locate_eq name hname := by
    rcases hname with hsome | hfits
    · exact h.locate_eq name (.inl hsome)
    · exact h.directory.locate_of_fits hfits

/-- A name that was not too long before is not too long where it can be reached. -/
theorem Holds.fits_of_fits {made : FileTree} (h : t.Holds path location (made.Fits path) contents)
    (hname : made.Fits path name) : t.Fits path name where
  isName := hname.isName
  accepts := accepts_of_locate (h.locate_eq name (.inr hname))
  size_le := hname.size_le

theorem DirectoryAt.holds_empty (h : t.DirectoryAt path location) (hempty : t.namesIn path = []) :
    t.Holds path location (t.Fits path) fun _ => none where
  directory := h
  get?_eq name := by
    have hnone : name ∉ t.namesIn path := by
      rw [hempty]
      exact List.not_mem_nil
    rw [h.mem_namesIn, Option.not_isSome_iff_eq_none] at hnone
    exact hnone
  locate_eq name hname := by
    rcases hname with hsome | hfits
    · contradiction
    · exact h.locate_of_fits hfits

theorem Holds.mem_namesIn (h : t.Holds path location reach contents) :
    name ∈ t.namesIn path ↔ (contents name).isSome := by
  rw [h.directory.mem_namesIn, h.get?_eq, Option.isSome_map]

theorem fromUTF8?_toUTF8 (text : String) : String.fromUTF8? text.toUTF8 = some text := by
  rw [String.fromUTF8?, String.toUTF8_eq_toByteArray, dif_pos text.isValidUTF8]
  rfl

/-! ### Reading -/

theorem Holds.find (h : t.Holds path location reach contents) {text : String}
    (htext : contents name = some text) : t.find (Path.join path name) = .ok (.file text.toUTF8) := by
  have hlocate := h.locate_eq name (.inl (by rw [htext]; rfl))
  simp only [FileTree.find, hlocate, bind, Except.bind, h.get?_eq, htext]
  rfl

theorem Holds.readText (h : t.Holds path location reach contents) {text : String}
    (htext : contents name = some text) : t.readText (Path.join path name) = .ok text := by
  simp only [FileTree.readText, readBytes, h.find htext, bind, Except.bind, pure, Except.pure,
    fromUTF8?_toUTF8]

theorem Holds.contains_eq_true (h : t.Holds path location reach contents) {text : String}
    (htext : contents name = some text) : t.contains (Path.join path name) = true := by
  rw [contains, h.find htext]
  rfl

/-- There is nothing where nothing is held. -/
theorem Holds.contains_eq_false (h : t.Holds path location reach contents) (hname : Path.IsName name)
    (hnone : contents name = none) : t.contains (Path.join path name) = false := by
  unfold contains FileTree.find
  cases hlocate : t.locate (Path.join path name) with
  | error fault => rfl
  | ok l =>
    simp only [h.directory.eq_of_locate_join hname hlocate, bind, Except.bind, h.get?_eq, hnone]
    rfl

/-- In a directory that is empty if it is there, there is nothing. -/
theorem contains_eq_false_of_directoryAt (hname : Path.IsName name)
    (hempty : ∀ location, t.DirectoryAt path location → t.namesIn path = []) :
    t.contains (Path.join path name) = false := by
  cases hlocate : t.locate (Path.join path name) with
  | error fault =>
    simp only [contains, FileTree.find, hlocate]
    rfl
  | ok l =>
    obtain ⟨location, hdirectory⟩ := directoryAt_of_locate_join hname hlocate
    exact (hdirectory.holds_empty (hempty location hdirectory)).contains_eq_false hname rfl

/-- In an empty directory, and in one that is not there, there is nothing. -/
theorem contains_eq_false_of_namesIn (hname : Path.IsName name) (hempty : t.namesIn path = []) :
    t.contains (Path.join path name) = false :=
  contains_eq_false_of_directoryAt hname fun _ _ => hempty

/-! ### Changes -/

theorem locate_mono (hlimit : t'.pathLimit = t.pathLimit)
    (hdirectories : ∀ l, t.get? l = some .directory → t'.get? l = some .directory) {p : String}
    {l : Location} (h : t.locate p = .ok l) : t'.locate p = .ok l := by
  by_cases haccepts : t.accepts p
  · have haccepts' : t'.accepts p := by rwa [accepts, hlimit]
    rw [FileTree.locate_eq haccepts] at h
    rw [FileTree.locate_eq haccepts']
    exact foldlM_step_mono hdirectories h
  · simp only [locate, haccepts] at h
    contradiction

theorem Holds.not_directory (h : t.Holds path location reach contents) (name : String) :
    t.get? (location ++ [name]) ≠ some .directory := by
  rw [h.get?_eq]
  cases contents name <;> simp

/-- A change at one name of a directory, where there is no directory before and after. -/
theorem Holds.change (h : t.Holds path location reach contents) (text? : Option String)
    (hlimit : t'.pathLimit = t.pathLimit)
    (hget : ∀ l, t'.get? l = if l = location ++ [name] then
      text?.map fun text => .file text.toUTF8 else t.get? l)
    (hlocate : text?.isSome → t.locate (Path.join path name) = .ok (location ++ [name])) :
    t'.Holds path location reach (Function.update contents name text?) := by
  have hdirectories : ∀ l, t.get? l = some .directory → t'.get? l = some .directory := by
    intro l hl
    have hne : l ≠ location ++ [name] := by
      rintro rfl
      exact h.not_directory name hl
    rw [hget, if_neg hne, hl]
  refine ⟨h.directory.mono hlimit hdirectories, fun other => ?_, fun other hother => ?_⟩
  · rw [hget]
    by_cases heq : other = name
    · rw [heq, if_pos rfl, Function.update_self]
    · have hne : location ++ [other] ≠ location ++ [name] := by simpa using heq
      rw [if_neg hne, Function.update_of_ne heq, h.get?_eq]
  · refine locate_mono hlimit hdirectories ?_
    rcases hother with hsome | hreach
    · rw [Function.update_apply] at hsome
      split at hsome
      · next heq =>
        rw [heq]
        exact hlocate hsome
      · exact h.locate_eq other (.inl hsome)
    · exact h.locate_eq other (.inr hreach)

theorem Holds.put (h : t.Holds path location reach contents)
    (hlocate : t.locate (Path.join path name) = .ok (location ++ [name])) (text : String) :
    (t.put (location ++ [name]) (.file text.toUTF8)).Holds path location reach
      (Function.update contents name (some text)) :=
  h.change (some text) rfl (get?_put t (List.concat_ne_nil name location) _) fun _ => hlocate

theorem Holds.erase (h : t.Holds path location reach contents) (name : String) :
    (t.erase (location ++ [name])).Holds path location reach
      (Function.update contents name none) :=
  h.change none rfl (get?_erase t (List.concat_ne_nil name location)) fun hsome => nomatch hsome

theorem Holds.writeText (h : t.Holds path location reach contents) (hname : Path.IsName name)
    {text : String} (hwrite : t.writeText (Path.join path name) text = .ok t') :
    t'.Holds path location reach (Function.update contents name (some text)) := by
  unfold FileTree.writeText writeBytes at hwrite
  cases hlocate : t.locate (Path.join path name) with
  | error fault =>
    rw [hlocate] at hwrite
    contradiction
  | ok l =>
    obtain rfl := h.directory.eq_of_locate_join hname hlocate
    simp only [hlocate, bind, Except.bind] at hwrite
    split at hwrite
    · contradiction
    · cases hwrite
      exact h.put hlocate text

theorem Holds.rename (h : t.Holds path location reach contents) {source target text : String}
    (htarget : Path.IsName target) (htext : contents source = some text)
    (hrename : t.rename (Path.join path source) (Path.join path target) = .ok t') :
    t'.Holds path location reach
      (Function.update (Function.update contents source none) target (some text)) := by
  have hlocate := h.locate_eq source (.inl (by rw [htext]; rfl))
  simp only [FileTree.rename, readBytes, h.find htext, hlocate, bind, Except.bind, pure,
    Except.pure] at hrename
  exact (h.erase source).writeText htarget hrename

/-- What can be reached can be written. -/
theorem Holds.exists_writeText (h : t.Holds path location reach contents) (hname : reach name)
    (text : String) : ∃ t', t.writeText (Path.join path name) text = .ok t' := by
  have hfile : (t.get? (location ++ [name])).any (·.isDirectory) = false := by
    rw [h.get?_eq]
    cases contents name <;> rfl
  simp only [FileTree.writeText, writeBytes, h.locate_eq name (.inr hname), bind, Except.bind, hfile]
  exact ⟨_, rfl⟩

/-- A file can be moved to where can be reached. -/
theorem Holds.exists_rename (h : t.Holds path location reach contents) {source target text : String}
    (htarget : reach target) (htext : contents source = some text) :
    ∃ t', t.rename (Path.join path source) (Path.join path target) = .ok t' := by
  have hlocate := h.locate_eq source (.inl (by rw [htext]; rfl))
  simp only [FileTree.rename, readBytes, h.find htext, hlocate, bind, Except.bind, pure, Except.pure]
  exact (h.erase source).exists_writeText htarget text

/-- What is removed is no longer held, and what is not found was not. -/
theorem Holds.remove (h : t.Holds path location reach contents) (hname : Path.IsName name) :
    match t.remove (Path.join path name) with
    | .ok t' => t'.Holds path location reach (Function.update contents name none)
    | .error .notFound => contents name = none
    | .error _ => True := by
  unfold FileTree.remove
  cases hlocate : t.locate (Path.join path name) with
  | error fault =>
    rw [h.directory.locate_join hname] at hlocate
    split at hlocate
    · contradiction
    · cases hlocate
      trivial
  | ok l =>
    obtain rfl := h.directory.eq_of_locate_join hname hlocate
    cases htext : contents name with
    | none => simp [bind, Except.bind, h.get?_eq, htext, throw, throwThe, MonadExceptOf.throw]
    | some text =>
      simp only [bind, Except.bind, h.get?_eq, htext]
      exact h.erase name

/-- What can be reached can be removed if it is there. -/
theorem Holds.eq_notFound_of_remove (h : t.Holds path location reach contents) (hname : reach name)
    {fault : PathFault} (hremove : t.remove (Path.join path name) = .error fault) :
    fault = .notFound := by
  unfold FileTree.remove at hremove
  simp only [h.locate_eq name (.inr hname), bind, Except.bind, h.get?_eq] at hremove
  cases htext : contents name with
  | none =>
    rw [htext] at hremove
    exact (Except.error.inj hremove).symm
  | some text =>
    rw [htext] at hremove
    contradiction

end RelStore.FileTree
