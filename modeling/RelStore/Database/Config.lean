import RelStore.BTree.Basic
import RelStore.Declaration

/-!
# Configurations

A configuration says where a database is saved, which shape its trees have, and which index a
primary key gets if its table declares none.
-/

namespace RelStore

/-- The configuration of a database. -/
structure Config where
  /-- The path of the directory where the database is saved. -/
  directory : Option String := none
  /-- The shape of trees. -/
  shape : Shape := .standard
  /-- The index on the primary key of a table that declares no index. -/
  defaultIndex : IndexType := .none
deriving Inhabited

/-- Whether the database can be saved. -/
def Config.isPersistent (c : Config) : Bool :=
  c.directory.isSome

end RelStore
