import RelStore.Text.Blank
import RelStore.Text.Upper
import RelStore.Value

/-!
# Data types

A column holds 64-bit integers, or texts of at most a given number of characters.  In a table file
a type is written as a 64-bit signed code: a bounded text by its bound, so that bounds from `2 ^
63` on come out negative, and an integer by `-1`.  Every negative code reads as the integer type.
-/

namespace RelStore

/-- The type of a column. -/
inductive DataType where
  | int
  /-- Texts of at most `limit` characters. -/
  | varchar (limit : UInt64)
deriving DecidableEq, Inhabited, Repr

namespace DataType

/-- Whether the type is the integer type. -/
def isInt : DataType → Bool
  | int => true
  | varchar _ => false

/-- The bound of a text type. -/
def limit? : DataType → Option Nat
  | int => none
  | varchar limit => some limit.toNat

/-- Whether a column of the type may hold the value, bounds apart.  The absent value fits any
type. -/
def accepts : DataType → Value → Bool
  | _, .null => true
  | int, .int _ => true
  | varchar _, .text _ => true
  | _, _ => false

/-- The type as it is shown. -/
protected def toString : DataType → String
  | int => "INT"
  | varchar limit => s!"VARCHAR({limit.toNat})"

instance : ToString DataType where
  toString := DataType.toString

/-- The code of the type in a table file. -/
def code : DataType → Int64
  | int => -1
  | varchar limit => limit.toInt64

/-- The type with a given code. -/
def ofCode (code : Int64) : DataType :=
  if code < 0 then int else varchar code.toUInt64

/-- The text between `VARCHAR(` and the closing parenthesis. -/
def boundText? (s : String) : Option String := do
  let rest ← "VARCHAR(".toList.isPrefixOf? s.toList
  let bound ← [')'].isSuffixOf? rest
  return String.ofList bound

/-- Reads the name of a type, in any case and with blanks around it and around the bound. -/
def parse (s : String) : Except Error DataType :=
  let name := Text.upper (Text.trim s)
  if name = "INT" ∨ name = "INTEGER" then .ok int
  else
    match boundText? name with
    | none => .error (.invalidArgument (.unknownType s))
    | some bound =>
      match Text.unsigned64 (Text.trim bound) with
      | .ok n => .ok (varchar (UInt64.ofNat n))
      | .error _ => .error (.invalidArgument (.badBound s))

/-- Reads a field of a table file for a column of the type. -/
def readField (type : DataType) (field : String) : Except Text.IntegerFault Value :=
  if field = Value.nullField then .ok .null
  else
    match type with
    | int => (Text.signed64 field).map .int
    | varchar _ => .ok (.text field)

end DataType

/-- The type of a value that is present; a text has its own length as bound. -/
def Value.dataType? : Value → Option DataType
  | .null => none
  | .int _ => some .int
  | .text s => some (.varchar (UInt64.ofNat s.length))

end RelStore
