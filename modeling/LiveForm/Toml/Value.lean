/-!
# TOML values

What a TOML document holds. A document is a table. The entries of a table stand in the order in which
they are first written, and no two of them have the same key.
-/

set_option autoImplicit false

namespace LiveForm.Toml

/-- A value of a TOML document. -/
inductive Value where
  | text (s : String)
  | integer (i : Int64)
  | real (r : Float)
  | boolean (b : Bool)
  /-- A date, a time of day or both, as it is written. -/
  | moment (written : String)
  | array (items : List Value)
  | table (entries : List (String × Value))
deriving Inhabited

/-- A table, by its entries. -/
abbrev Table := List (String × Value)

namespace Value

/-- Whether the value is a table. -/
def isTable : Value → Bool
  | table _ => true
  | _ => false

/-- Whether the value is an array of one table or more, which has sections of its own when it is
written. -/
def isTables : Value → Bool
  | array [] => false
  | array items => items.all isTable
  | _ => false

/-- Whether the value is written behind its key, and not in sections of its own. -/
def isInline (v : Value) : Bool :=
  !v.isTable && !v.isTables

end Value

end LiveForm.Toml
