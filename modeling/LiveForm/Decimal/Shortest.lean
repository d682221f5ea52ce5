import LiveForm.Decimal.Binary

/-!
# The shortest decimal of a floating point number

The text of a real number is the decimal with the fewest digits that reads back to the same number,
and among those the one nearest to it. It is written positionally whatever its size: there is no
exponent, and no point where the number is whole.

The search goes over ever finer decimal grids. On each grid only the two neighbours of the number
can be nearest, so only these are tested against the interval of reals that round to the number.
The test is exact: both are scaled to natural numbers first.
-/

set_option autoImplicit false

namespace LiveForm.Decimal

/-- The decimal number `digits * 10 ^ exponent`. -/
structure Scaled where
  digits : Nat
  exponent : Int
deriving DecidableEq, Repr

namespace Scaled

/-- The decimal digits of `n`, most significant first. -/
def digitChars (n : Nat) : List Char :=
  Nat.toDigits 10 n

/-- Moves trailing zeros of the digits into the exponent. -/
def strip (d : Scaled) : Scaled :=
  let zeros := ((digitChars d.digits).reverse.takeWhile (· = '0')).length
  ⟨d.digits / Nat.pow 10 zeros, d.exponent + zeros⟩

/-- The positional text: trailing zeros for a positive exponent, and a point in front of the last
digits for a negative one, with at least one digit before it. -/
def positional (d : Scaled) : List Char :=
  let digits := digitChars d.digits
  if 0 ≤ d.exponent then digits ++ List.replicate d.exponent.toNat '0'
  else
    let places := (-d.exponent).toNat
    let padded := List.replicate (places + 1 - digits.length) '0' ++ digits
    padded.take (padded.length - places) ++ '.' :: padded.drop (padded.length - places)

end Scaled

namespace Binary

/-- The point of the grid `10 ^ place` that reads back to the number, or `none` if the grid is too
coarse to have one. The reals that round to `mantissa * 2 ^ exponent` reach halfway to its two
neighbours, and include the two ends exactly when the mantissa is even. Everything is counted in
quarters of the mantissa's unit. Where both grid points around the number read back, the nearer one
is taken, and the greater one if they are equally near. -/
def onGrid? (b : Binary) (place : Int) : Option Nat :=
  let quarter := Nat.pow 2 (b.exponent - 2).toNat * Nat.pow 10 (-place).toNat
  let step := Nat.pow 10 place.toNat * Nat.pow 2 (2 - b.exponent).toNat
  let value := 4 * b.mantissa * quarter
  let lowest := (4 * b.mantissa - if b.narrowBelow then 1 else 2) * quarter
  let highest := (4 * b.mantissa + 2) * quarter
  let readsBack (n : Nat) : Bool :=
    if b.mantissa % 2 = 0 then lowest ≤ n * step && n * step ≤ highest
    else lowest < n * step && n * step < highest
  let below := value / step
  let above := below + 1
  match readsBack below, readsBack above with
  | true, true => some (if value - below * step < above * step - value then below else above)
  | true, false => some below
  | false, true => some above
  | false, false => none

/-- The least `k` for which the magnitude is below `10 ^ k`. -/
def scale (b : Binary) : Int :=
  let numerator := b.mantissa * Nat.pow 2 b.exponent.toNat
  let denominator := Nat.pow 2 (-b.exponent).toNat
  let k : Int := (Scaled.digitChars numerator).length - (Scaled.digitChars denominator).length
  if numerator * Nat.pow 10 (-k).toNat < denominator * Nat.pow 10 k.toNat then k else k + 1

/-- The magnitude written out exactly. -/
def exactDecimal (b : Binary) : Scaled :=
  if 0 ≤ b.exponent then ⟨b.mantissa * Nat.pow 2 b.exponent.toNat, 0⟩
  else ⟨b.mantissa * Nat.pow 5 (-b.exponent).toNat, b.exponent⟩

/-- The decimal with the fewest digits that reads back to the magnitude. Seventeen digits always
suffice; should they not, the exact decimal stands in. -/
def shortest (b : Binary) : Scaled :=
  if b.mantissa = 0 then ⟨0, 0⟩
  else
    let k := b.scale
    let found := (List.range 17).findSome? fun (n : Nat) =>
      (b.onGrid? (k - 1 - n)).map fun digits => Scaled.mk digits (k - 1 - n)
    (found.getD b.exactDecimal).strip

end Binary

/-- The text of a real number. Negative zero keeps its sign. -/
def render (x : Float) : String :=
  match Binary.ofFloat? x with
  | some b => String.ofList ((if b.negative then ['-'] else []) ++ b.shortest.positional)
  | none => if x.isNaN then "NaN" else if x < 0 then "-inf" else "inf"

end LiveForm.Decimal
