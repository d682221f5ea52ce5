import LiveForm.Decimal.Numeral
import LiveForm.Value.Basic

/-!
# Values written as words

How a word of a formula, or a text that a user enters, is read as a value. Every text has a reading:
what is neither a truth value, null, an empty text nor a finite number is a text.
-/

set_option autoImplicit false

namespace LiveForm.Value

/-- Reads a number: an integer if it fits into 64 bits, else a real if it is finite. -/
def number? (word : String) : Option Value :=
  match Decimal.int64? word.toList with
  | some i => some (int i)
  | none =>
    match Decimal.real? word.toList with
    | some r => if r.isFinite then some (real r) else none
    | none => none

/-- Reads a word of a formula. -/
def ofLiteral (word : String) : Value :=
  if word = "true" then bool true
  else if word = "false" then bool false
  else if word = "null" then void
  else if word = "\"\"" || word = "''" then text ""
  else (number? word).getD (text word)

/-- Reads what a user enters: as a word of a formula, but nothing at all clears the field. -/
def ofInput (entered : String) : Value :=
  if entered.isEmpty then void else ofLiteral entered

end LiveForm.Value
