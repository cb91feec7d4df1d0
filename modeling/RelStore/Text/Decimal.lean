/-!
# Decimal numerals of machine integers

A numeral is an optional sign and at least one decimal digit.  `signed64` reads a 64-bit signed
integer and `unsigned64` a 64-bit unsigned one, which takes a plus sign only.  A numeral is read
from the left and the first character at which it goes wrong decides the fault: `invalidDigit` for
a character that is no digit, `tooLarge` or `tooSmall` for a digit that leaves the range.
-/

namespace RelStore.Text

/-- Why a text is not the numeral of an integer in range. -/
inductive IntegerFault where
  | empty
  | invalidDigit
  | tooLarge
  | tooSmall
deriving DecidableEq, Repr

/-- The wording of a fault. -/
def IntegerFault.message : IntegerFault → String
  | empty => "cannot parse integer from empty string"
  | invalidDigit => "invalid digit found in string"
  | tooLarge => "number too large to fit in target type"
  | tooSmall => "number too small to fit in target type"

/-- The value of a decimal digit. -/
def digitValue? (c : Char) : Option Nat :=
  if c.isDigit then some (c.toNat - '0'.toNat) else none

/-- Reads digits onto the number `n` read so far; `excess` is the fault of exceeding `limit`. -/
def readDigits (limit : Nat) (excess : IntegerFault) (n : Nat) :
    List Char → Except IntegerFault Nat
  | [] => .ok n
  | c :: rest =>
    match digitValue? c with
    | none => .error .invalidDigit
    | some d =>
      if limit < 10 * n + d then .error excess else readDigits limit excess (10 * n + d) rest

/-- Reads one or more digits. -/
def readMagnitude (limit : Nat) (excess : IntegerFault) : List Char → Except IntegerFault Nat
  | [] => .error .invalidDigit
  | digits => readDigits limit excess 0 digits

/-- The greatest 64-bit signed integer. -/
def greatestSigned : Nat := 0x7fffffffffffffff

/-- The greatest 64-bit unsigned integer. -/
def greatestUnsigned : Nat := 0xffffffffffffffff

/-- The integer between `-2 ^ 63` and `2 ^ 63 - 1` that a numeral denotes. -/
def signedChars : List Char → Except IntegerFault Int
  | [] => .error .empty
  | '+' :: digits => (readMagnitude greatestSigned .tooLarge digits).map Int.ofNat
  | '-' :: digits => (readMagnitude (greatestSigned + 1) .tooSmall digits).map fun n => -Int.ofNat n
  | digits => (readMagnitude greatestSigned .tooLarge digits).map Int.ofNat

/-- The integer below `2 ^ 64` that a numeral denotes. -/
def unsignedChars : List Char → Except IntegerFault Nat
  | [] => .error .empty
  | '+' :: digits => readMagnitude greatestUnsigned .tooLarge digits
  | digits => readMagnitude greatestUnsigned .tooLarge digits

/-- Reads a 64-bit signed integer. -/
def signed64 (s : String) : Except IntegerFault Int64 :=
  (signedChars s.toList).map Int64.ofInt

/-- Reads a 64-bit unsigned integer. -/
def unsigned64 (s : String) : Except IntegerFault Nat :=
  unsignedChars s.toList

end RelStore.Text
