import LiveForm.Number

/-!
# Field values

What a field holds and what a formula yields. `void` is the absence of a value: a null literal, or a
field that nobody has filled in yet.

Equality of values is numerical between an integer and a real, so it is not equality of the data.
-/

set_option autoImplicit false

namespace LiveForm

/-- A value of a field or a formula. -/
inductive Value where
  | void
  | bool (b : Bool)
  | int (i : Int64)
  | real (r : Float)
  | text (s : String)
deriving Inhabited

namespace Value

/-- Whether there is no value. -/
def isVoid : Value → Bool
  | void => true
  | _ => false

/-- The truth value, if it is one. -/
def asBool? : Value → Option Bool
  | bool b => some b
  | _ => none

/-- The text, if it is one. -/
def asText? : Value → Option String
  | text s => some s
  | _ => none

/-- The number, if it is one. Truth values and texts are not numbers. -/
def asNumber? : Value → Option Number
  | int i => some (.int i)
  | real r => some (.real r)
  | _ => none

/-- A number as a value. -/
def ofNumber : Number → Value
  | .int i => int i
  | .real r => real r

/-- Whether two values count as equal: an integer equals a real of the same magnitude, and a real that
is not a number equals nothing. -/
def same : Value → Value → Bool
  | void, void => true
  | bool a, bool b => a == b
  | text a, text b => a == b
  | a, b =>
    match a.asNumber?, b.asNumber? with
    | some m, some n => m == n
    | _, _ => false

instance : BEq Value where
  beq := same

/-- The value itself, or nothing if it is void. -/
def nonVoid? : Value → Option Value
  | void => none
  | v => some v

end Value

end LiveForm
