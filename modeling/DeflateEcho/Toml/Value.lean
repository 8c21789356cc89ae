import DeflateEcho.Number.Binary64

/-!
# Toml/Value — the values of a configuration file

Tables keep their keys in order, since that is the order in which they are looked at.
-/

namespace DeflateEcho.Toml

/-- A value.  Of dates and times only that they are ones is kept. -/
inductive Value where
  | string (text : String)
  | integer (n : Int)
  | float (x : Number.Binary64)
  | boolean (b : Bool)
  | dateTime
  | array (items : List Value)
  | table (entries : List (String × Value))
  deriving Repr

end DeflateEcho.Toml
