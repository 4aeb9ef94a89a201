import TreeQuery.Number.Shortest
import TreeQuery.Value.Json

/-! # Building values and looking into them

Values built from floating-point numbers, and the scalars, elements and fields of a value. -/

namespace TreeQuery.Value

/-- The decimal with the fewest digits that rounds to a floating-point number. -/
def ofFloat (x : Binary64) : Except MakeError Value :=
  if x.isFinite then .ok (decimal x.shortest) else .error (.notFinite x.specialText)

/-- A floating-point number that may be missing. -/
def ofFloat? : Option Binary64 → Except MakeError Value
  | some x => ofFloat x
  | none => .ok null

/-- An array of floating-point numbers. -/
def ofFloats (xs : List (Option Binary64)) : Except MakeError Value := (xs.mapM ofFloat?).map array

/-- An object whose fields are arrays of floating-point numbers, converted in the order of their names. -/
def ofFloatFields (pairs : List (String × List (Option Binary64))) : Except MakeError Value :=
  ((Fields.ofList pairs).mapM fun p => (ofFloats p.2).map fun v => (p.1, v)).map object

/-- The value of a type that holds nothing; an invalid tag has none. -/
def ofTag (t : Tag) : Except MakeError Value :=
  match empty t with
  | some v => .ok v
  | none => .error (.unexpectedType t)

/-! ### Views -/

/-- The error of a value that is not of the type expected. -/
def mismatch (v : Value) (expected : Tag) : ReadError := .unexpectedType expected v.tag

def asStr : Value → Except ReadError String
  | str s => .ok s
  | v => .error (v.mismatch Tag.strTag)

def asBool : Value → Except ReadError Bool
  | bool b => .ok b
  | v => .error (v.mismatch Tag.boolTag)

def asInt : Value → Except ReadError Int
  | int i => .ok i
  | v => .error (v.mismatch Tag.intTag)

/-- An integer of at most 64 bits with sign. -/
def asInt64 (v : Value) : Except ReadError Int := do
  let i ← v.asInt
  if -2 ^ 63 ≤ i ∧ i < 2 ^ 63 then return i else throw (.integerOverflow i)

def asDecimal : Value → Except ReadError Decimal
  | decimal d => .ok d
  | v => .error (v.mismatch Tag.floatTag)

/-- The floating-point number nearest to an integer or a decimal. -/
def asFloat : Value → Except ReadError Binary64
  | decimal d => .ok (Binary64.ofDecimal d)
  | int i => .ok (Binary64.ofInt i)
  | v => .error (v.mismatch Tag.floatTag)

def asArray : Value → Except ReadError (List Value)
  | array items => .ok items
  | v => .error (v.mismatch Tag.arrayTag)

def asObject : Value → Except ReadError (Fields Value)
  | object fields => .ok fields
  | v => .error (v.mismatch Tag.objectTag)

end TreeQuery.Value
