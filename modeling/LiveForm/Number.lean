import LiveForm.Decimal.Binary

/-!
# Numbers with two kinds

A number is a 64-bit integer or a real. Integer arithmetic stays with integers as long as the exact
result fits into 64 bits, and passes to reals where it does not; an operation with a real among its
operands is done on reals.
-/

set_option autoImplicit false

namespace LiveForm

/-- An integer of 64 bits or a binary64 real. -/
inductive Number where
  | int (i : Int64)
  | real (r : Float)

namespace Number

/-- The number as a real: the nearest one for an integer. -/
def toReal : Number → Float
  | int i => Float.ofInt i.toInt
  | real r => r

/-- The integer `i` as a number, if 64 bits hold it. -/
def ofInt? (i : Int) : Option Number :=
  if Int64.minValue.toInt ≤ i ∧ i ≤ Int64.maxValue.toInt then some (int (Int64.ofInt i)) else none

/-- The sum. Integers whose sum does not fit are added as reals. -/
def add : Number → Number → Number
  | int a, int b =>
    (ofInt? (a.toInt + b.toInt)).getD (real (toReal (int a) + toReal (int b)))
  | a, b => real (a.toReal + b.toReal)

/-- The product. Integers whose product does not fit are multiplied as reals. -/
def mul : Number → Number → Number
  | int a, int b =>
    (ofInt? (a.toInt * b.toInt)).getD (real (toReal (int a) * toReal (int b)))
  | a, b => real (a.toReal * b.toReal)

/-- The integer part. -/
def truncate : Number → Number
  | int i => int i
  | real r => int (Decimal.truncateInt64 r)

/-- Whether the quotient of two integers is none that 64 bits hold. -/
def hasNoQuotient (a b : Int64) : Bool :=
  b == 0 || (a == Int64.minValue && b == -1)

/-- The quotient of integers that leaves a remainder which is not negative. -/
def euclideanDiv? (a b : Int64) : Option Int64 :=
  if hasNoQuotient a b then none else some (Int64.ofInt (a.toInt / b.toInt))

/-- The remainder that this quotient leaves. -/
def euclideanMod? (a b : Int64) : Option Int64 :=
  if hasNoQuotient a b then none else some (Int64.ofInt (a.toInt % b.toInt))

/-- How much this quotient exceeds the floor of the exact one: by one where it was rounded up, as happens
for a negative divisor. -/
def excess? (a b : Int64) : Option Int64 :=
  if b < 0 then (euclideanMod? a b).map fun remainder => if remainder = 0 then 0 else 1 else some 0

/-- The floor of the quotient, an integer. There is none for a zero divisor, nor where the quotient of
two integers does not fit. A quotient of reals beyond the range is limited to it. -/
def floorDiv? : Number → Number → Option Number
  | int a, int b => do
    let quotient ← euclideanDiv? a b
    let excess ← excess? a b
    return int (quotient - excess)
  | a, b =>
    if b.toReal == 0 then none else some (int (Decimal.floorInt64 (a.toReal / b.toReal)))

/-- Numerical equality: exact between integers, otherwise that of reals. -/
def same : Number → Number → Bool
  | int a, int b => a == b
  | a, b => a.toReal == b.toReal

instance : BEq Number where
  beq := same

/-- The order of two numbers: exact between integers, otherwise that of reals. There is none if one of
them is not a number. -/
def compare? : Number → Number → Option Ordering
  | int a, int b => some (compare a.toInt b.toInt)
  | a, b =>
    if a.toReal < b.toReal then some .lt
    else if a.toReal == b.toReal then some .eq
    else if b.toReal < a.toReal then some .gt
    else none

end Number

end LiveForm
