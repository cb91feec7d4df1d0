import RelStore.Text.Cut

/-!
# Paths

A path is a text of names between slashes.  `Path.join` puts a name below a directory, and
`Path.parent?` is the path of the directory that holds the last name.  `Path.parts` are the names of
a path, and `Path.names` those that are followed to its end.
-/

namespace RelStore.Path

/-- The path of a name below a directory.  A name that starts with a slash stands for itself. -/
def join (directory name : String) : String :=
  if name.toList.head? = some '/' ∨ directory.isEmpty then name
  else if directory.toList.getLast? = some '/' then directory ++ name
  else directory ++ "/" ++ name

/-- Drops slashes and single points at the end of a path, which is given from its end; a slash
that is the whole path stays. -/
def trimEnd : List Char → List Char
  | ['/'] => ['/']
  | '/' :: path => trimEnd path
  | '.' :: '/' :: path => trimEnd ('/' :: path)
  | path => path

/-- The path of the directory that holds the last name, if there is a name. -/
def parent? (path : String) : Option String :=
  match trimEnd path.toList.reverse with
  | [] => none
  | ['/'] => none
  | chars => some (String.ofList (trimEnd (chars.dropWhile (· != '/'))).reverse)

/-- The names between the slashes of a path. -/
def parts (path : String) : List String :=
  (Text.pieces '/' path).filter (· ≠ "")

/-- The names of a path as they are followed.  A slash at the end asks for a directory, as a point
after it would. -/
def names (path : String) : List String :=
  parts path ++ if (Text.pieces '/' path).getLast? = some "" then ["."] else []

end RelStore.Path
