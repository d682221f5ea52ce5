import LiveForm.Text.Extending
import LiveForm.Text.Ignorable
import LiveForm.Text.Unprintable

/-!
# Quoted text

A text value is shown between double quotes. Inside, the double quote and the backslash stand behind
a backslash, four control characters have a letter of their own, and every other character that
cannot be told apart in print is shown by its code point.
-/

set_option autoImplicit false

namespace LiveForm.Text

/-- The letter that stands for `c` behind a backslash, for the characters that have one. -/
def escapeLetter? : Char → Option Char
  | '"' => some '"'
  | '\\' => some '\\'
  | '\n' => some 'n'
  | '\r' => some 'r'
  | '\t' => some 't'
  | '\x00' => some '0'
  | _ => none

/-- The code point of `c` in hexadecimal digits between braces. -/
def codePointEscape (c : Char) : List Char :=
  ['\\', 'u', '\x7b'] ++ Nat.toDigits 16 c.toNat ++ ['\x7d']

/-- Whether `c` cannot be told apart in print. -/
def isHidden (c : Char) : Bool :=
  isExtending c || isIgnorable c || isUnprintable c

/-- How `c` is written inside quotes. -/
def escape (c : Char) : List Char :=
  match escapeLetter? c with
  | some letter => ['\\', letter]
  | none => if isHidden c then codePointEscape c else [c]

/-- The text between double quotes, with escapes. -/
def quoted (text : String) : String :=
  String.ofList ('"' :: text.toList.flatMap escape ++ ['"'])

end LiveForm.Text
