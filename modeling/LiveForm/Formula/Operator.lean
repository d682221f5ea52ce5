/-!
# Operators

The operators that a formula can start with, and their names.
-/

set_option autoImplicit false

namespace LiveForm

/-- The operator of a formula. -/
inductive Operator where
  /-- The sum, in which a truth value lets the next number count or not. -/
  | sum
  /-- The product. -/
  | mul
  /-- A sum divided by a number and rounded down. -/
  | mod
  /-- A single value, taken over. -/
  | ref
  /-- The one of several fields that a text names. -/
  | sel
  /-- A sum in which each term counts in full or multiplied, by a condition of its own. -/
  | condSumMul
  /-- How often two values stand side by side in two columns. -/
  | countSpells
  /-- The number that belongs to the name of a size. -/
  | sizeMod
deriving DecidableEq, Repr

namespace Operator

/-- All operators. -/
def all : List Operator :=
  [sum, mul, mod, ref, sel, condSumMul, countSpells, sizeMod]

/-- The name of an operator. -/
def name : Operator → String
  | sum => "sum"
  | mul => "mul"
  | mod => "mod"
  | ref => "ref"
  | sel => "sel"
  | condSumMul => "cond_sum_mul"
  | countSpells => "count_spells"
  | sizeMod => "size_mod"

/-- The operator with the given name, in which ASCII letters may be of either case. -/
def ofName? (word : String) : Option Operator :=
  all.find? fun op => op.name = word.toLower

end Operator

end LiveForm
