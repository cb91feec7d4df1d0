import RelStore.Text.Extenders
import RelStore.Text.Unprintable

/-!
# Quoted texts

`quoted` writes a text between double quotes on one visible line.  Quotes, backslashes and the
common controls are written with a backslash and a letter, and other characters that would not show
by themselves as their code point in braces: unprintable ones, fillers, and marks that would attach
to their neighbour.
-/

namespace RelStore.Text

/-- The code point of a character in lower-case hexadecimal digits. -/
def hexDigits (c : Char) : List Char :=
  Nat.toDigits 16 c.toNat

/-- The Hangul fillers, letters without a shape. -/
def fillers : List Char :=
  ['\u115f', '\u1160', '\u3164', '\uffa0']

/-- The halfwidth sound marks, extenders with a place of their own. -/
def soundMarks : List Char :=
  ['\uff9e', '\uff9f']

/-- Whether a character would not show by itself. -/
def isHidden (c : Char) : Bool :=
  unprintable.contains c || fillers.contains c ||
    (extenders.contains c && !soundMarks.contains c)

/-- The written form of one character inside quotes. -/
def quotedChar (c : Char) : List Char :=
  match c with
  | '\x00' => ['\\', '0']
  | '\t' => ['\\', 't']
  | '\r' => ['\\', 'r']
  | '\n' => ['\\', 'n']
  | '\\' => ['\\', '\\']
  | '"' => ['\\', '"']
  | c =>
    if isHidden c then
      ['\\', 'u', '\x7b'] ++ hexDigits c ++ ['\x7d']
    else [c]

/-- The text between double quotes, with escapes. -/
def quoted (s : String) : String :=
  String.ofList ('"' :: s.toList.flatMap quotedChar ++ ['"'])

end RelStore.Text
