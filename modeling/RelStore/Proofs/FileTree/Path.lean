import Mathlib.Data.List.Basic
import RelStore.FileTree.Path
import RelStore.Proofs.Text.Cut

/-!
# Names below a directory

A name that holds no slash is the last name of the path that `Path.join` makes of it, and the names
before it are those of the directory (`Path.names_join`).  The directory that `Path.parent?` gives
for such a path is the directory itself, up to points and slashes at its end (`Path.parent?_join`).
-/

namespace RelStore

namespace Text

/-- A text is cut at a separator into what is before it and what is after it. -/
theorem pieces_append (sep : Char) (a b : List Char) :
    pieces sep (String.ofList (a ++ sep :: b)) =
      pieces sep (String.ofList a) ++ pieces sep (String.ofList b) := by
  simp only [pieces, String.toList_ofList, List.splitOn_append_cons_self, List.map_append]

theorem pieces_eq_singleton {sep : Char} {s : String} (h : sep ∉ s.toList) : pieces sep s = [s] := by
  have hjoined : joined sep [s] = s := by
    rw [← String.toList_inj, toList_joined]
    simp [List.intercalate]
  have hpieces : pieces sep (joined sep [s]) = [s] :=
    pieces_joined (by simpa using h) (List.cons_ne_nil _ _)
  rwa [hjoined] at hpieces

end Text

namespace Path

/-- A text that names a file or a directory in another: neither does it lead elsewhere, nor does it
end with a point. -/
structure IsName (name : String) : Prop where
  slash_not_mem : '/' ∉ name.toList
  ne_empty : name ≠ ""
  getLast?_ne : name.toList.getLast? ≠ some '.'

variable {name : String}

theorem IsName.ne_point (h : IsName name) : name ≠ "." := by
  rintro rfl
  exact h.getLast?_ne rfl

theorem IsName.ne_points (h : IsName name) : name ≠ ".." := by
  rintro rfl
  exact h.getLast?_ne rfl

theorem getLast?_append {a b : String} (h : b.toList ≠ []) :
    (a ++ b).toList.getLast? = b.toList.getLast? := by
  rw [String.toList_append, List.getLast?_append_of_ne_nil _ h]

/-- What ends with a name is one, if no slash comes before. -/
theorem isName_append {stem suffix : String} (h : '/' ∉ stem.toList) (hsuffix : IsName suffix) :
    IsName (stem ++ suffix) := by
  have hne : suffix.toList ≠ [] := by
    intro hnil
    exact hsuffix.ne_empty (String.toList_eq_nil_iff.1 hnil)
  refine ⟨?_, ?_, ?_⟩
  · rw [String.toList_append, List.mem_append]
    exact not_or.2 ⟨h, hsuffix.slash_not_mem⟩
  · intro hempty
    rw [← String.toList_eq_nil_iff, String.toList_append, List.append_eq_nil_iff] at hempty
    exact hne hempty.2
  · rw [getLast?_append hne]
    exact hsuffix.getLast?_ne

/-! ### Parts -/

theorem parts_ofList_append (a b : List Char) :
    parts (String.ofList (a ++ '/' :: b)) = parts (String.ofList a) ++ parts (String.ofList b) := by
  rw [parts, Text.pieces_append, List.filter_append]
  rfl

theorem parts_empty : parts "" = [] := by decide

theorem parts_eq_singleton (h : IsName name) : parts name = [name] := by
  rw [parts, Text.pieces_eq_singleton h.slash_not_mem]
  simp [h.ne_empty]

theorem parts_ofList_append_slash (a : List Char) :
    parts (String.ofList (a ++ ['/'])) = parts (String.ofList a) := by
  have h := parts_ofList_append a []
  rwa [String.ofList_nil, parts_empty, List.append_nil] at h

/-- A path below a directory continues that of the directory. -/
theorem exists_join_eq (directory : String) (h : IsName name) :
    ∃ rest, join directory name = directory ++ rest := by
  have hhead : ¬ name.toList.head? = some '/' := fun hhead =>
    h.slash_not_mem (List.mem_of_head? hhead)
  unfold join
  split
  · next hfirst =>
    refine ⟨name, ?_⟩
    rw [String.isEmpty_iff.1 (hfirst.resolve_left hhead), String.empty_append]
  · split
    · exact ⟨name, rfl⟩
    · exact ⟨"/" ++ name, String.append_assoc⟩

/-- A path below a directory is the name alone or has a slash before it, and what is before the
slash has the parts of the directory. -/
theorem toList_join (directory : String) (h : IsName name) :
    (directory = "" ∧ (join directory name).toList = name.toList) ∨
      ∃ before, (join directory name).toList = before ++ '/' :: name.toList ∧
        parts (String.ofList before) = parts directory := by
  have hhead : ¬ name.toList.head? = some '/' := fun hhead =>
    h.slash_not_mem (List.mem_of_head? hhead)
  by_cases hempty : directory = ""
  · subst hempty
    exact .inl ⟨rfl, by rw [join, if_pos (.inr rfl)]⟩
  have hfirst : ¬ (name.toList.head? = some '/' ∨ directory.isEmpty = true) := by
    rw [String.isEmpty_iff]
    exact not_or.2 ⟨hhead, hempty⟩
  right
  by_cases hlast : directory.toList.getLast? = some '/'
  · obtain ⟨before, hbefore⟩ := List.getLast?_eq_some_iff.1 hlast
    have hdirectory : directory = String.ofList (before ++ ['/']) := by
      rw [← hbefore, String.ofList_toList]
    refine ⟨before, ?_, ?_⟩
    · rw [join, if_neg hfirst, if_pos hlast, String.toList_append, hbefore, List.append_assoc]
      rfl
    · rw [hdirectory, parts_ofList_append_slash]
  · refine ⟨directory.toList, ?_, by rw [String.ofList_toList]⟩
    rw [join, if_neg hfirst, if_neg hlast, String.toList_append, String.toList_append,
      List.append_assoc]
    rfl

theorem pieces_join (directory : String) (h : IsName name) :
    ∃ before, Text.pieces '/' (join directory name) = before ++ [name] ∧
      before.filter (· ≠ "") = parts directory := by
  have hname : Text.pieces '/' (String.ofList name.toList) = [name] := by
    rw [String.ofList_toList, Text.pieces_eq_singleton h.slash_not_mem]
  have hjoin : join directory name = String.ofList (join directory name).toList :=
    String.ofList_toList.symm
  rcases toList_join directory h with ⟨rfl, hlist⟩ | ⟨before, hlist, hparts⟩
  · exact ⟨[], by rw [hjoin, hlist, hname]; rfl, parts_empty.symm⟩
  · exact ⟨_, by rw [hjoin, hlist, Text.pieces_append, hname], hparts⟩

theorem parts_join (directory : String) (h : IsName name) :
    parts (join directory name) = parts directory ++ [name] := by
  obtain ⟨before, hpieces, hfilter⟩ := pieces_join directory h
  rw [parts, hpieces, List.filter_append, hfilter]
  simp [h.ne_empty]

/-- The names that lead to a name below a directory are the parts of the directory and the name. -/
theorem names_join (directory : String) (h : IsName name) :
    names (join directory name) = parts directory ++ [name] := by
  obtain ⟨before, hpieces, -⟩ := pieces_join directory h
  have hlast : (Text.pieces '/' (join directory name)).getLast? ≠ some "" := by
    rw [hpieces, List.getLast?_concat, ne_eq, Option.some.injEq]
    exact h.ne_empty
  rw [names, parts_join directory h, if_neg hlast, List.append_nil]

/-! ### The directory of a path -/

/-- Trimming drops points at most. -/
theorem parts_trimEnd_prefix (path : List Char) :
    parts (String.ofList (trimEnd path).reverse) <+: parts (String.ofList path.reverse) := by
  fun_induction trimEnd path with
  | case1 => exact List.prefix_rfl
  | case2 path _ ih => rwa [List.reverse_cons, parts_ofList_append_slash]
  | case3 path ih =>
    have hpoint : ('.' :: '/' :: path).reverse = path.reverse ++ '/' :: ['.'] := by simp
    rw [List.reverse_cons, parts_ofList_append_slash] at ih
    rw [hpoint, parts_ofList_append]
    exact ih.trans (List.prefix_append _ _)
  | case4 => exact List.prefix_rfl

theorem trimEnd_suffix (path : List Char) : trimEnd path <:+ path := by
  fun_induction trimEnd path with
  | case1 => exact List.suffix_rfl
  | case2 path _ ih => exact ih.trans (List.suffix_cons _ _)
  | case3 path ih => exact ih.trans (List.suffix_cons _ _)
  | case4 => exact List.suffix_rfl

theorem trimEnd_eq_self {c : Char} {path : List Char} (hslash : c ≠ '/') (hpoint : c ≠ '.') :
    trimEnd (c :: path) = c :: path := by
  unfold trimEnd
  split <;> simp_all

theorem parent?_eq_some {path : String} {rest : List Char} (h : IsName name)
    (hpath : path.toList = rest.reverse ++ name.toList) (hrest : ∀ c ∈ rest.head?, c = '/') :
    parent? path = some (String.ofList (trimEnd rest).reverse) := by
  obtain ⟨c, cs, hname⟩ : ∃ c cs, name.toList.reverse = c :: cs := by
    refine List.exists_cons_of_ne_nil fun hnil => h.ne_empty ?_
    rw [List.reverse_eq_nil_iff] at hnil
    rw [← String.ofList_toList (s := name), hnil]
  have hlast : name.toList.getLast? = some c := by
    rw [← List.head?_reverse, hname, List.head?_cons]
  have hpoint : c ≠ '.' := by
    rintro rfl
    exact h.getLast?_ne hlast
  have hslash : c ≠ '/' := by
    rintro rfl
    exact h.slash_not_mem (List.mem_of_getLast? hlast)
  have hreverse : path.toList.reverse = c :: (cs ++ rest) := by
    rw [hpath, List.reverse_append, List.reverse_reverse, hname, List.cons_append]
  have hdrop : (c :: (cs ++ rest)).dropWhile (· != '/') = rest := by
    have hmem : ∀ x ∈ c :: cs, (x != '/') = true := by
      intro x hx
      rw [← hname, List.mem_reverse] at hx
      rw [bne_iff_ne]
      rintro rfl
      exact h.slash_not_mem hx
    rw [← List.cons_append, List.dropWhile_append_of_pos hmem]
    cases rest with
    | nil => rfl
    | cons x rest => rw [hrest x rfl, List.dropWhile_cons_of_neg (by simp)]
  unfold parent?
  rw [hreverse, trimEnd_eq_self hslash hpoint]
  split
  · contradiction
  · next heq => exact absurd (List.cons.inj heq).1 hslash
  · rw [hdrop]

/-- The directory of a name below a directory is the path of the directory, apart from points and
slashes at its end. -/
theorem parent?_join (directory : String) (h : IsName name) :
    ∃ parent, parent? (join directory name) = some parent ∧ parts parent <+: parts directory ∧
      ∃ rest, join directory name = parent ++ rest := by
  have hrest : ∃ rest : List Char, (join directory name).toList = rest.reverse ++ name.toList ∧
      (∀ c ∈ rest.head?, c = '/') ∧ parts (String.ofList rest.reverse) = parts directory := by
    rcases toList_join directory h with ⟨rfl, hlist⟩ | ⟨before, hlist, hparts⟩
    · exact ⟨[], hlist, by simp, rfl⟩
    · refine ⟨'/' :: before.reverse, by simp [hlist], by simp, ?_⟩
      rw [List.reverse_cons, List.reverse_reverse, parts_ofList_append_slash, hparts]
  obtain ⟨rest, hlist, hhead, hparts⟩ := hrest
  refine ⟨_, parent?_eq_some h hlist hhead, ?_, ?_⟩
  · rw [← hparts]
    exact parts_trimEnd_prefix rest
  · obtain ⟨trimmed, htrimmed⟩ := trimEnd_suffix rest
    have hreverse : rest.reverse = (trimEnd rest).reverse ++ trimmed.reverse := by
      rw [← List.reverse_append, htrimmed]
    refine ⟨String.ofList (trimmed.reverse ++ name.toList), ?_⟩
    rw [← String.toList_inj, hlist, hreverse, String.toList_append, String.toList_ofList,
      String.toList_ofList, List.append_assoc]

/-- A name may be continued below a directory. -/
theorem join_append (directory : String) (h : IsName name) (suffix : String) :
    join directory name ++ suffix = join directory (name ++ suffix) := by
  obtain ⟨c, cs, hname⟩ : ∃ c cs, name.toList = c :: cs := by
    refine List.exists_cons_of_ne_nil fun hnil => h.ne_empty ?_
    rw [← String.ofList_toList (s := name), hnil]
  have hhead : (name ++ suffix).toList.head? = name.toList.head? := by
    rw [String.toList_append, hname, List.cons_append, List.head?_cons, List.head?_cons]
  unfold join
  rw [hhead]
  split
  · rfl
  · split <;> simp only [String.append_assoc]

end Path

end RelStore
