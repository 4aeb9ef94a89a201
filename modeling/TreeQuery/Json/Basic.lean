import TreeQuery.Fields
import TreeQuery.Number.Numeral

/-! # JSON

The tree that a JSON text spells. Numbers are kept as they are spelled, and the fields of an object are in
ascending order of their names. -/

namespace TreeQuery

inductive Json where
  | null
  | bool (b : Bool)
  | number (n : Numeral)
  | str (s : String)
  | array (items : List Json)
  | object (fields : List (String × Json))

/-- A tree of JSON may be nested fewer levels deep than this, counting arrays and objects. -/
def Json.maxNesting : Nat := 128

end TreeQuery
