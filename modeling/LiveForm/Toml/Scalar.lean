import LiveForm.Decimal.Numeral
import LiveForm.Toml.Quoted
import LiveForm.Toml.Value

/-!
# Plain values in TOML

Numbers, truth values, moments and texts. Digits can be grouped by single underscores. An integer has
no needless zero in front, and fits into 64 bits in whatever base it is written.
-/

set_option autoImplicit false

namespace LiveForm.Toml.Reader

/-- Splits off digits at the front of a text, with single underscores between them left out. -/
def groupedDigits (isDigit : Char → Bool) : List Char → List Char × List Char
  | [] => ([], [])
  | [c] => if isDigit c then ([c], []) else ([], [c])
  | c :: d :: rest =>
    if isDigit c then
      let (digits, after) := groupedDigits isDigit (d :: rest)
      (c :: digits, after)
    else if c = '_' && isDigit d then groupedDigits isDigit (d :: rest)
    else ([], c :: d :: rest)

/-- Takes one digit or more. -/
def digits (isDigit : Char → Bool) : Reader (List Char) := do
  match ← peek? with
  | some c => if isDigit c then fun cs => some (groupedDigits isDigit cs) else failure
  | none => failure

/-- Takes a sign, and tells whether there is a minus. -/
def sign : Reader Bool :=
  fun cs => some (Decimal.takeSign cs)

/-- An integer, if it fits into 64 bits. -/
def integerOf? (i : Int) : Option Value :=
  if Int64.minValue.toInt ≤ i ∧ i ≤ Int64.maxValue.toInt then some (.integer (Int64.ofInt i)) else none

/-- Takes an integer in base sixteen, eight or two, which has a mark in front and no sign. -/
def based : Reader Value := do
  char '0'
  let base : Nat ← match ← one fun _ => true with
    | 'x' => pure 16
    | 'o' => pure 8
    | 'b' => pure 2
    | _ => failure
  let digits ← digits fun c => (hexDigit? c).any (· < base)
  let n := (digits.filterMap hexDigit?).foldl (fun n d => base * n + d) 0
  integerOf? (n : Int)

/-- Takes a number in base ten. With a fraction or an exponent it is a real. One too great is refused,
one too far below zero is infinite. -/
def decimal : Reader Value := do
  let negative ← sign
  let whole ← digits Char.isDigit
  guard (whole.head? ≠ some '0' || whole.length = 1)
  let fraction ← optional? do
    char '.'
    digits Char.isDigit
  let exponent ← optional? do
    discard (one fun c => c = 'e' || c = 'E')
    let down ← sign
    let n := Decimal.valueOfDigits (← digits Char.isDigit)
    return if down then -(n : Int) else n
  if fraction.isNone && exponent.isNone then
    let n := Decimal.valueOfDigits whole
    integerOf? (if negative then -(n : Int) else n)
  else
    let places := fraction.getD []
    let magnitude :=
      Decimal.nearest (Decimal.valueOfDigits (whole ++ places)) (exponent.getD 0 - places.length)
    guard (negative || magnitude.isFinite)
    return .real (if negative then -magnitude else magnitude)

/-- Takes a real that has a name: infinity, or none at all. -/
def namedReal : Reader Value := do
  let negative ← sign
  let magnitude ← (do word "inf"; pure (1.0 / 0.0)) <|> (do word "nan"; pure (0.0 / 0.0))
  return .real (if negative then -magnitude else magnitude)

/-- Takes a truth value. -/
def boolean : Reader Value :=
  (do word "true"; pure (.boolean true)) <|> (do word "false"; pure (.boolean false))

/-- Takes a natural number of exactly `width` digits that lies between two bounds. -/
def fixed (width least greatest : Nat) : Reader Nat := do
  let digits ← (List.range width).mapM fun _ => one Char.isDigit
  let n := Decimal.valueOfDigits digits
  guard (least ≤ n && n ≤ greatest)
  return n

/-- The number of days in a month. -/
def daysInMonth (year month : Nat) : Nat :=
  if month = 2 then
    if year % 4 = 0 && (year % 100 ≠ 0 || year % 400 = 0) then 29 else 28
  else if month ∈ [4, 6, 9, 11] then 30
  else 31

/-- Takes a date. -/
def date : Reader Unit := do
  let year ← fixed 4 0 9999
  char '-'
  let month ← fixed 2 1 12
  char '-'
  discard (fixed 2 1 (daysInMonth year month))

/-- Takes a time of day, down to the second at least. A minute can have a leap second. -/
def timeOfDay : Reader Unit := do
  discard (fixed 2 0 23)
  char ':'
  discard (fixed 2 0 59)
  char ':'
  discard (fixed 2 0 60)
  discard <| optional? do
    char '.'
    discard (one Char.isDigit)
    takeWhile Char.isDigit

/-- Takes the distance of a time of day from universal time. -/
def zone : Reader Unit :=
  (discard <| one fun c => c = 'Z' || c = 'z') <|> do
    discard (one fun c => c = '+' || c = '-')
    discard (fixed 2 0 23)
    char ':'
    discard (fixed 2 0 59)

/-- Takes a date, a time of day, or a date with a time and a zone. -/
def moment : Reader Value :=
  .moment <$> written do
    timeOfDay <|> do
      date
      discard <| optional? do
        discard (one fun c => c = 'T' || c = 't' || c = ' ')
        timeOfDay
        optional? zone

/-- Takes a value that holds no others. -/
def scalar : Reader Value :=
  (.text <$> quoted) <|> boolean <|> moment <|> namedReal <|> based <|> decimal

end LiveForm.Toml.Reader
