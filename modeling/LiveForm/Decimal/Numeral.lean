/-!
# Reading decimal numerals

Two grammars over ASCII digits. An integer is a sign, which may be missing, and digits. A decimal
also has a point with digits on at least one side of it, or an exponent, or both; it is rounded to
the nearest binary64 number.
-/

set_option autoImplicit false

namespace LiveForm.Decimal

/-- The number that a list of digits stands for, read from the left. -/
def valueOfDigits (digits : List Char) : Nat :=
  digits.foldl (fun n c => 10 * n + (c.toNat - '0'.toNat)) 0

/-- Splits off a leading sign; the flag tells whether it is a minus. -/
def takeSign : List Char → Bool × List Char
  | '-' :: rest => (true, rest)
  | '+' :: rest => (false, rest)
  | rest => (false, rest)

/-- Reads a natural number: one digit or more and nothing else. -/
def natural? (cs : List Char) : Option Nat :=
  if !cs.isEmpty && cs.all Char.isDigit then some (valueOfDigits cs) else none

/-- Reads a natural number with a sign in front of it, which may be missing. -/
def integer? (cs : List Char) : Option Int :=
  let (negative, digits) := takeSign cs
  (natural? digits).map fun n => if negative then -(n : Int) else n

/-- Reads an integer that fits into 64 bits. -/
def int64? (cs : List Char) : Option Int64 :=
  match integer? cs with
  | some i =>
    if Int64.minValue.toInt ≤ i ∧ i ≤ Int64.maxValue.toInt then some (Int64.ofInt i) else none
  | none => none

/-- The binary64 number nearest to `m * 10 ^ e`. A power of ten far outside the range of binary64 is
not computed: the result is then infinite or zero whatever the digits are. -/
def nearest (m : Nat) (e : Int) : Float :=
  if m = 0 then 0
  else
    let magnitude := e + (Nat.toDigits 10 m).length
    if 400 < magnitude then Float.ofScientific 1 false 400
    else if magnitude < -400 then 0
    else Float.ofScientific m (decide (e < 0)) e.natAbs

/-- Reads the part of a decimal that follows its digits: nothing, or an exponent mark and an
integer. -/
def exponent? : List Char → Option Int
  | [] => some 0
  | c :: rest => if c = 'e' || c = 'E' then integer? rest else none

/-- Reads a decimal numeral as the nearest binary64 number, which may be infinite. -/
def real? (cs : List Char) : Option Float :=
  let (negative, unsigned) := takeSign cs
  let whole := unsigned.takeWhile Char.isDigit
  let afterWhole := unsigned.dropWhile Char.isDigit
  let (fraction, afterFraction) :=
    match afterWhole with
    | '.' :: rest => (rest.takeWhile Char.isDigit, rest.dropWhile Char.isDigit)
    | rest => ([], rest)
  if whole.isEmpty && fraction.isEmpty then none
  else
    (exponent? afterFraction).map fun e =>
      let magnitude := nearest (valueOfDigits (whole ++ fraction)) (e - fraction.length)
      if negative then -magnitude else magnitude

end LiveForm.Decimal
