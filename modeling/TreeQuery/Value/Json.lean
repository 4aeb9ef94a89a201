import TreeQuery.Error
import TreeQuery.Json.Parse
import TreeQuery.Json.Render
import TreeQuery.Value.Basic

/-! # Values as JSON

A number that is spelled without point and exponent is an integer, any other a decimal. Written back, a
decimal always has a point or an exponent, so that reading it again gives a decimal. The text of a value is written
from the value itself, and no tree of JSON is built for it. -/

namespace TreeQuery.Value

/-- The number that a numeral spells. -/
def ofNumeral (n : Numeral) : Except MakeError Value :=
  if n.isInteger then .ok (int n.wholeValue)
  else match Decimal.ofNumeral n with
    | .ok d => .ok (decimal d)
    | .error fault => .error (.invalidNumber (String.ofList n.text) fault)

mutual

/-- The value of a tree of JSON. The first number without a decimal, in the order of elements and of field
    names, is the one reported. -/
def ofJson : Json → Except MakeError Value
  | .null => .ok null
  | .bool b => .ok (bool b)
  | .number n => ofNumeral n
  | .str s => .ok (str s)
  | .array items => (ofJsonItems items).map array
  | .object fields => (ofJsonFields fields).map object

def ofJsonItems : List Json → Except MakeError (List Value)
  | [] => .ok []
  | j :: rest => do
    let v ← ofJson j
    let vs ← ofJsonItems rest
    return v :: vs

def ofJsonFields : List (String × Json) → Except MakeError (List (String × Value))
  | [] => .ok []
  | (name, j) :: rest => do
    let v ← ofJson j
    let vs ← ofJsonFields rest
    return (name, v) :: vs

end

mutual

/-- The tree of JSON of a value. -/
def toJson : Value → Json
  | null => .null
  | bool b => .bool b
  | int i => .number (Numeral.ofInt i)
  | decimal d => .number d.numeral
  | str s => .str s
  | array items => .array (toJsonItems items)
  | object fields => .object (toJsonFields fields)

def toJsonItems : List Value → List Json
  | [] => []
  | v :: rest => toJson v :: toJsonItems rest

def toJsonFields : List (String × Value) → List (String × Json)
  | [] => []
  | (name, v) :: rest => (name, toJson v) :: toJsonFields rest

end

mutual

/-- Writes a value with a serializer. -/
def serialize {α : Type} (s : Json.Serializer α) : Value → α
  | null => s.unit
  | bool b => s.bool b
  | int i => s.number (Numeral.ofInt i)
  | decimal d => s.number d.numeral
  | str text => s.str text
  | array items => s.seq (serializeItems s items)
  | object fields => s.map (serializeFields s fields)

def serializeItems {α : Type} (s : Json.Serializer α) : List Value → List α
  | [] => []
  | v :: rest => serialize s v :: serializeItems s rest

def serializeFields {α : Type} (s : Json.Serializer α) : List (String × Value) → List (String × α)
  | [] => []
  | (name, v) :: rest => (name, serialize s v) :: serializeFields s rest

end

/-- Reads a value from JSON text. -/
def ofText (text : String) : Except MakeError Value :=
  match Json.ofText? text with
  | some j => ofJson j
  | none => .error .malformed

/-- The compact JSON text of a value. -/
def text (v : Value) : String := String.ofList (v.serialize .compact)

/-- The indented JSON text of a value. -/
def pretty (v : Value) : String := String.ofList (v.serialize .indented 0)

/-- The text of a value for inspection. -/
def debug (v : Value) : String := "Datum(" ++ v.text ++ ")"

end TreeQuery.Value
