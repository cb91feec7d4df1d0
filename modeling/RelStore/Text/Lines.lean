/-!
# Lines of a text

A line ends with a line feed, which may be preceded by a carriage return; the last line may lack
its end.  `lines` drops the ends and `unlines` writes each line with a line feed.
-/

namespace RelStore.Text

/-- Drops one carriage return at the end. -/
def stripReturn (line : List Char) : List Char :=
  if line.getLast? = some '\r' then line.dropLast else line

/-- The lines of a character list.  A piece that a line feed ends loses its carriage return; what
follows the last line feed is a line only if it is not empty, and is kept as it stands. -/
def lineChars (s : List Char) : List (List Char) :=
  let pieces := s.splitOn '\n'
  pieces.dropLast.map stripReturn ++ pieces.getLast?.toList.filter (· ≠ [])

/-- The lines of a text, without their ends. -/
def lines (s : String) : List String :=
  (lineChars s.toList).map String.ofList

/-- The text whose lines are `ls`, each ended by a line feed. -/
def unlines (ls : List String) : String :=
  String.join (ls.map (· ++ "\n"))

end RelStore.Text
