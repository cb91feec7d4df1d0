import RelStore.TableFile.Basic
import RelStore.Text.Lines

/-!
# Reading table files

`TableFile.decode` reads what `TableFile.encode` writes, and tells a fault by the number of its
line. A `LineReader` takes the lines of a text one by one and counts them.
-/

namespace RelStore

/-- The lines that are not yet read and the number of those that are. -/
structure LineCursor where
  rest : List String
  number : Nat

/-- A reader that takes lines. -/
abbrev LineReader := StateT LineCursor (Except Error)

namespace LineReader

variable {α : Type}

/-- A failure at a line. -/
def located (number : Nat) (a : Except LineFault α) : Except Error α :=
  a.mapError fun fault => .parse (.atLine number fault)

/-- Takes a line, `what` says for what, and reads it. -/
def line (what : String) (f : String → Except LineFault α) : LineReader α := fun c =>
  let number := c.number + 1
  match c.rest with
  | [] => .error (.parse (.atLine number (.missing what)))
  | l :: rest => (located number (f l)).map fun a => (a, ⟨rest, number⟩)

/-- Runs a reader a number of times. -/
def times (r : LineReader α) : Nat → LineReader (List α)
  | 0 => return []
  | n + 1 => do
    let a ← r
    return a :: (← times r n)

/-- Reads each line that is left. -/
def rest (f : String → Except LineFault α) : LineReader (List α) := do
  let c ← get
  (c.rest.zipIdx (c.number + 1)).mapM fun (l, number) => located number (f l)

end LineReader

namespace TableFile

/-- Reads an integer between blanks. -/
def readInt (what line : String) : Except LineFault Int :=
  match Text.signed64 (Text.trim line) with
  | .ok n => .ok n.toInt
  | .error _ => .error (.badInteger what line)

/-- The column that an integer denotes. -/
def toColumn (what : String) (width : Nat) (n : Int) : Except LineFault Nat :=
  if 0 ≤ n ∧ n < width then .ok n.toNat else .error (.outOfRange what n)

/-- Reads the number of columns. -/
def readWidth (line : String) : Except LineFault Nat := do
  let n ← readInt "attribute count" line
  if n ≤ 0 then .error (.noAttributes n) else .ok n.toNat

/-- Reads a column. -/
def readColumn (line : String) : Except LineFault Column :=
  match Text.cutFirst? separator line with
  | none => .error .noTypeCode
  | some (name, code) =>
    match Text.signed64 code with
    | .ok n => .ok { name, type := .ofCode n }
    | .error _ => .error (.badTypeCode code)

/-- Reads the primary key; any negative number says that there is none. -/
def readPrimaryKey (width : Nat) (line : String) : Except LineFault (Option Nat) := do
  let n ← readInt "primary key" line
  if n < 0 then return none else return some (← toColumn "primary key" width n)

/-- Reads the column of the only index. -/
def readKeyColumn (width : Nat) (line : String) : Except LineFault Nat := do
  toColumn "key column" width (← readInt "key column" line)

/-- Reads the column of an index declaration, and gives the text of its kind. -/
def readDeclaration (width : Nat) (line : String) : Except LineFault (Nat × String) :=
  match Text.cutFirst? separator line with
  | none => .error .noIndexType
  | some (column, index) =>
    match Text.unsigned64 column with
    | .ok n => if n < width then .ok (n, index) else .error (.badDeclarationColumn column)
    | .error _ => .error (.badDeclarationColumn column)

/-- Reads a row. -/
def readRow (s : Schema) (line : String) : Except LineFault Row := do
  let fields := Text.pieces separator line
  if fields.length ≠ s.width then
    throw (.fieldCount fields.length s.width)
  let row : Row ← (fields.zip s.columns).mapM fun (field, c) =>
    (c.type.readField field).mapError (.badField c.name)
  (row.check s).mapError fun e => .unfitRow e.message
  return row

/-! ### Sections -/

/-- Takes the name and the schema. -/
def takeSchema : LineReader Schema := do
  let table ← .line "table name" .ok
  let width ← .line "attribute count" readWidth
  let columns ← LineReader.times (.line "attribute" readColumn) width
  let primaryKey ← .line "primary key" (readPrimaryKey width)
  let s : Schema := { table, columns, primaryKey }
  s.check
  return s

/-- Takes an index declaration. -/
def takeDeclaration (width : Nat) : LineReader Declaration := do
  let (column, index) ← .line "index declaration" (readDeclaration width)
  return { column, index := ← IndexType.parse index }

/-- Takes what tells the indexes of a table of the given kind. -/
def takeIndexes (kind : TableKind) (width : Nat) :
    LineReader (Option Nat × List Declaration) := do
  match kind with
  | .hash | .tree => return (some (← .line "key column" (readKeyColumn width)), [])
  | .multi =>
    let count ← .line "declaration count" (readInt "declaration count")
    return (none, ← LineReader.times (takeDeclaration width) count.toNat)
  | .set | .list => return (none, [])

/-- Takes a whole table file. -/
def take (kind : TableKind) : LineReader TableFile := do
  let schema ← takeSchema
  let (keyColumn, declarations) ← takeIndexes kind schema.width
  let rows ← LineReader.rest (readRow schema)
  return { name := schema.table, schema, keyColumn, declarations, rows }

/-- Reads the text of the file of a table of the given kind. -/
def decode (kind : TableKind) (text : String) : Except Error TableFile :=
  (take kind).run' ⟨Text.lines text, 0⟩

end TableFile

end RelStore
