/-!
# Cutting texts at a separator

`cutFirst?` and `cutLast?` split a text at the first and at the last occurrence of a character and
drop that character; they fail when it does not occur.  `pieces` splits at every occurrence and
`joined` is its inverse on pieces free of the separator.
-/

namespace RelStore.Text

/-- The characters before and after the first `sep`. -/
def cutFirstChars? (sep : Char) (s : List Char) : Option (List Char × List Char) :=
  match s.dropWhile (· != sep) with
  | [] => none
  | _ :: after => some (s.takeWhile (· != sep), after)

/-- The characters before and after the last `sep`. -/
def cutLastChars? (sep : Char) (s : List Char) : Option (List Char × List Char) :=
  (cutFirstChars? sep s.reverse).map fun (after, before) => (before.reverse, after.reverse)

/-- The texts before and after the first `sep`. -/
def cutFirst? (sep : Char) (s : String) : Option (String × String) :=
  (cutFirstChars? sep s.toList).map fun (before, after) =>
    (String.ofList before, String.ofList after)

/-- The texts before and after the last `sep`. -/
def cutLast? (sep : Char) (s : String) : Option (String × String) :=
  (cutLastChars? sep s.toList).map fun (before, after) =>
    (String.ofList before, String.ofList after)

/-- The pieces between the occurrences of `sep`; there is always at least one. -/
def pieces (sep : Char) (s : String) : List String :=
  (s.toList.splitOn sep).map String.ofList

/-- The texts one after the other, with `sep` between neighbours. -/
def joined (sep : Char) (ss : List String) : String :=
  (String.singleton sep).intercalate ss

end RelStore.Text
