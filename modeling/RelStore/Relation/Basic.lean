import RelStore.Relation.Sources
import RelStore.Row

/-!
# Relations

A relation is the result of a query: a list of rows under a schema, with a name and the set of the
tables that its rows come from.
-/

namespace RelStore

/-- The result of a query. -/
structure Relation where
  name : String
  schema : Schema
  sources : Sources
  rows : List Row
deriving DecidableEq, Inhabited

end RelStore
