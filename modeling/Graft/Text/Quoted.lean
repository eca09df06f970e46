import Graft.Text.Extending
import Graft.Text.Ignorable
import Graft.Text.Unprintable

/-! # Quoted text

A text constant is shown between double quotes.  The quote, the backslash and four
control characters are written with a letter after a backslash; every other
character that has no visible form, or may be left out of a display, or would attach
itself to its neighbour, is written as its code point in hexadecimal.
-/

namespace Graft.Text

/-- The letter that stands for a character after a backslash. -/
def letter? : Char → Option Char
  | '"' => some '"'
  | '\\' => some '\\'
  | '\n' => some 'n'
  | '\r' => some 'r'
  | '\t' => some 't'
  | '\x00' => some '0'
  | _ => none

/-- A code point between the marks that set it off. -/
def codePoint (c : Char) : List Char :=
  '\\' :: 'u' :: '\x7b' :: Nat.toDigits 16 c.toNat ++ ['\x7d']

/-- Would the character be lost or misread if it stood for itself? -/
def isObscure (c : Char) : Bool := isUnprintable c || isIgnorable c || isExtending c

/-- One character of a quoted text. -/
def quoteChar (c : Char) : List Char :=
  match letter? c with
  | some l => ['\\', l]
  | none => if isObscure c then codePoint c else [c]

/-- The text between double quotes. -/
def quote (s : String) : String :=
  String.ofList ('"' :: s.toList.flatMap quoteChar ++ ['"'])

end Graft.Text
