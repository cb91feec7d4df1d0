import RelStore.Text.Decimal

/-!
# Errors

`Error` says what can go wrong in the store, one constructor per kind of failure.  Four kinds
(unfit arguments, malformed conditions, unreadable texts, failing files) carry a fault of a type of
their own that names the cause.  `Error.message` is the wording.  The predicates `IsNotFound`,
`IsQueryError` and `IsPersistenceError` group the kinds.
-/

namespace RelStore

open Text

/-- What is wrong with an argument. -/
inductive ArgumentFault where
  /-- The text names no data type. -/
  | unknownType (text : String)
  /-- The bound of a character type is no machine integer. -/
  | badBound (text : String)
  | unknownOperator (text : String)
  | noColumns (table : String)
  /-- A text that a table file cannot carry. -/
  | unstorable (column : String)
  | noIndex (table : String)
  /-- A field holds a character that separates fields or lines. -/
  | separatorInField (column : String)
  /-- A field whose text stands for the absent value in a table file. -/
  | readsAsNull (column : String)
  | repeatedTable (name : String)
  | noTableRead
  | emptyUnion
  | emptyIntersection
  | columnListsDiffer
  | noTarget (statement : String)
  | noDirectory
  | other (text : String)
deriving DecidableEq, Repr

/-- What is wrong with a condition list. -/
inductive ConditionFault where
  | missingOperand (connective : String)
  | leftover (results : Nat)
  | notComparison (connective : String)
  | other (text : String)
deriving DecidableEq, Repr

/-- What is wrong at one line of a table file. -/
inductive LineFault where
  | missing (what : String)
  | badInteger (what line : String)
  | outOfRange (what : String) (value : Int)
  | noAttributes (count : Int)
  | noTypeCode
  | badTypeCode (text : String)
  | noIndexType
  | badDeclarationColumn (text : String)
  | fieldCount (found expected : Nat)
  | badField (column : String) (fault : IntegerFault)
  /-- The row does not fit the schema; `complaint` is the wording of the reason. -/
  | unfitRow (complaint : String)
  | noTableKind
deriving DecidableEq, Repr

/-- Why a text does not parse. -/
inductive ParseFault where
  | integer (fault : IntegerFault)
  | unknownIndexType (text : String)
  | unknownTableKind (text : String)
  | atLine (number : Nat) (fault : LineFault)
  | inFile (path : String) (fault : ParseFault)
  /-- A table file holds another table than the manifest says. -/
  | otherTable (path found expected : String)
  | other (text : String)
deriving DecidableEq, Repr

/-- Which action on a file failed. -/
inductive FileFault where
  | create (path : String)
  | read (path : String)
  | write (path : String)
  | replace (path : String)
  | remove (path : String)
  | other (text : String)
deriving DecidableEq, Repr

/-- Failures that no caller can provoke. -/
inductive InternalFault where
  | refusedRow (table : String)
  | columnOutOfRange
  | other (text : String)
deriving DecidableEq, Repr

/-- Why an operation failed. -/
inductive Error where
  | tableNotFound (name : String)
  | tableAlreadyExists (name : String)
  | columnCount (expected found : Nat)
  | columnNotFound (name : String)
  | ambiguousColumn (name : String)
  | duplicateColumn (name : String)
  | columnOutOfBounds (index : Nat)
  | typeMismatch (left right : String)
  | valueTooLong (column : String) (limit length : Nat)
  | nullComparison
  | incomparableTypes
  | malformedCondition (fault : ConditionFault)
  | invalidArgument (fault : ArgumentFault)
  | parse (fault : ParseFault)
  | file (fault : FileFault)
  | internal (fault : InternalFault)
deriving DecidableEq, Repr

/-! ### Wording -/

/-- The wording of an unfit argument. -/
def ArgumentFault.message : ArgumentFault → String
  | unknownType text => s!"unknown type {text}"
  | badBound text => s!"bad VARCHAR bound in {text}"
  | unknownOperator text => s!"unknown operator {text}"
  | noColumns table => s!"table {table} has no columns"
  | unstorable column => s!"value in column {column} cannot be stored"
  | noIndex table => s!"multi-index table {table} declares no index"
  | separatorInField column => s!"value in column {column} contains a separator character"
  | readsAsNull column => s!"text 'null' in column {column} would read back as NULL"
  | repeatedTable name => s!"table name {name} appears more than once, use an alias"
  | noTableRead => "query reads no table"
  | emptyUnion => "union of no results"
  | emptyIntersection => "intersection of no results"
  | columnListsDiffer => "attribute names and types differ in length"
  | noTarget statement => s!"{statement} names no table"
  | noDirectory => "database has no data directory"
  | other text => text

/-- The wording of a malformed condition list. -/
def ConditionFault.message : ConditionFault → String
  | missingOperand connective => s!"{connective} needs two operands"
  | leftover results => s!"{results} results left without a connective"
  | notComparison connective => s!"{connective} is not a comparison"
  | other text => text

/-- The wording of a fault at a line. -/
def LineFault.message : LineFault → String
  | missing what => s!"missing {what}"
  | badInteger what line => s!"bad {what} '{line}'"
  | outOfRange what value => s!"{what} {value} out of range"
  | noAttributes count => s!"attribute count {count} must be positive"
  | noTypeCode => "attribute line without type"
  | badTypeCode text => s!"bad type code '{text}'"
  | noIndexType => "declaration without index type"
  | badDeclarationColumn text => s!"bad declaration column '{text}'"
  | fieldCount found expected => s!"row has {found} fields, expected {expected}"
  | badField column fault => s!"column {column}: parse error: {fault.message}"
  | unfitRow complaint => complaint
  | noTableKind => "missing table kind"

/-- The wording of a text that does not parse. -/
def ParseFault.message : ParseFault → String
  | integer fault => fault.message
  | unknownIndexType text => s!"unknown index type {text}"
  | unknownTableKind text => s!"unknown table kind {text}"
  | atLine number fault => s!"line {number}: {fault.message}"
  | inFile path fault => s!"{path}: {fault.message}"
  | otherTable path found expected => s!"{path} holds table {found}, catalog expects {expected}"
  | other text => text

/-- The wording of a failed action on a file. -/
def FileFault.message : FileFault → String
  | create path => s!"failed to create {path}"
  | read path => s!"failed to read {path}"
  | write path => s!"failed to write {path}"
  | replace path => s!"failed to replace {path}"
  | remove path => s!"failed to remove {path}"
  | other text => text

/-- The wording of an internal failure. -/
def InternalFault.message : InternalFault → String
  | refusedRow table => s!"{table} refused a checked row"
  | columnOutOfRange => "resolved column out of range"
  | other text => text

namespace Error

/-- The wording of an error. -/
def message : Error → String
  | tableNotFound name => s!"table '{name}' not found"
  | tableAlreadyExists name => s!"table '{name}' already exists"
  | columnCount expected found =>
    s!"table columns don't match, expected {expected}, got {found}"
  | columnNotFound name => s!"column '{name}' not found"
  | ambiguousColumn name => s!"column '{name}' is ambiguous"
  | duplicateColumn name => s!"duplicate column '{name}'"
  | columnOutOfBounds index => s!"column index {index} out of bounds"
  | typeMismatch left right => s!"type mismatch: {left} vs {right}"
  | valueTooLong column limit length =>
    s!"value for column {column} is too long, max {limit}, got {length}"
  | nullComparison => "cannot compare NULL with non-NULL value"
  | incomparableTypes => "cannot compare incompatible types"
  | malformedCondition fault => s!"malformed condition list: {fault.message}"
  | invalidArgument fault => s!"invalid argument: {fault.message}"
  | parse fault => s!"parse error: {fault.message}"
  | file fault => s!"IO error: {fault.message}"
  | internal fault => fault.message

/-- A name that denotes nothing. -/
def IsNotFound : Error → Prop
  | tableNotFound _ | columnNotFound _ => True
  | _ => False

/-- A query that names or combines things wrongly. -/
def IsQueryError : Error → Prop
  | tableNotFound _ | columnNotFound _ | ambiguousColumn _ | typeMismatch .. |
    malformedCondition _ => True
  | _ => False

/-- A failure to read or write a file. -/
def IsPersistenceError : Error → Prop
  | file _ | parse _ => True
  | _ => False

instance (e : Error) : Decidable e.IsNotFound := by
  cases e <;> unfold IsNotFound <;> infer_instance

instance (e : Error) : Decidable e.IsQueryError := by
  cases e <;> unfold IsQueryError <;> infer_instance

instance (e : Error) : Decidable e.IsPersistenceError := by
  cases e <;> unfold IsPersistenceError <;> infer_instance

end Error

end RelStore
