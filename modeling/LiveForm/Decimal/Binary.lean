/-!
# Exact values of binary floating point numbers

A finite `Float` is a natural number times a power of two, with a sign. `Binary` holds these three
parts, together with the one fact about a value's neighbours that its shortest decimal depends on.
Rounding to an integer is done here, in exact integer arithmetic on the parts.
-/

set_option autoImplicit false

namespace LiveForm.Decimal

/-- A finite binary64 number: `mantissa * 2 ^ exponent`, negated if `negative` holds. -/
structure Binary where
  /-- The sign bit, which zero has too. -/
  negative : Bool
  /-- The significant bits as a natural number below `2 ^ 53`. -/
  mantissa : Nat
  /-- The power of two that the mantissa is scaled by. -/
  exponent : Int
  /-- The next smaller magnitude is half as far away as the next greater one. -/
  narrowBelow : Bool
deriving DecidableEq, Repr

namespace Binary

/-- The parts of `x`, or `none` if `x` is infinite or not a number. -/
def ofFloat? (x : Float) : Option Binary :=
  let bits := x.toBits.toNat
  let negative := decide (Nat.pow 2 63 ≤ bits)
  let biased : Nat := bits / Nat.pow 2 52 % Nat.pow 2 11
  let fraction : Nat := bits % Nat.pow 2 52
  if biased = 2047 then none
  else if biased = 0 then some ⟨negative, fraction, -1074, false⟩
  else some ⟨negative, Nat.pow 2 52 + fraction, (biased : Int) - 1075, fraction = 0 && 1 < biased⟩

/-- The mantissa with the sign of the number. -/
def signed (b : Binary) : Int :=
  if b.negative then -(b.mantissa : Int) else b.mantissa

/-- The greatest integer that is at most the number. -/
def floor (b : Binary) : Int :=
  if 0 ≤ b.exponent then b.signed * (Nat.pow 2 b.exponent.toNat : Nat)
  else Int.fdiv b.signed (Nat.pow 2 (-b.exponent).toNat : Nat)

/-- The integer part: the number rounded toward zero. -/
def truncate (b : Binary) : Int :=
  if 0 ≤ b.exponent then b.signed * (Nat.pow 2 b.exponent.toNat : Nat)
  else Int.tdiv b.signed (Nat.pow 2 (-b.exponent).toNat : Nat)

end Binary

/-- The 64-bit integer nearest to `i`. -/
def clampInt64 (i : Int) : Int64 :=
  if i < Int64.minValue.toInt then Int64.minValue
  else if Int64.maxValue.toInt < i then Int64.maxValue
  else Int64.ofInt i

/-- Rounds a number to a 64-bit integer by `round`. A number beyond the range of 64 bits gives the
nearer end of that range, and a value that is not a number gives zero. -/
def toInt64By (round : Binary → Int) (x : Float) : Int64 :=
  match Binary.ofFloat? x with
  | some b => clampInt64 (round b)
  | none => if x.isNaN then 0 else if x < 0 then Int64.minValue else Int64.maxValue

/-- The floor of `x` as a 64-bit integer. -/
def floorInt64 (x : Float) : Int64 :=
  toInt64By Binary.floor x

/-- The integer part of `x` as a 64-bit integer. -/
def truncateInt64 (x : Float) : Int64 :=
  toInt64By Binary.truncate x

end LiveForm.Decimal
