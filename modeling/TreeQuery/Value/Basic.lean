import TreeQuery.Fields
import TreeQuery.Number.Decimal
import TreeQuery.Tag

/-! # Values

The tree that documents are made of. Integers and decimals are kept with all their digits, and the fields
of an object are in ascending order of their names. Values are compared by what they denote: `1.0` equals
`1.00`, while an integer never equals a decimal. -/

namespace TreeQuery

/-- A document or a part of one. -/
inductive Value where
  | null
  | bool (b : Bool)
  | int (i : Int)
  | decimal (d : Decimal)
  | str (s : String)
  | array (items : List Value)
  | object (fields : List (String × Value))
deriving Inhabited

namespace Value

mutual

/-- Whether two values denote the same tree. -/
def same : Value → Value → Bool
  | null, null => true
  | bool a, bool b => a == b
  | int a, int b => a == b
  | decimal a, decimal b => a.same b
  | str a, str b => a == b
  | array as, array bs => sameItems as bs
  | object as, object bs => sameFields as bs
  | _, _ => false

def sameItems : List Value → List Value → Bool
  | [], [] => true
  | a :: as, b :: bs => same a b && sameItems as bs
  | _, _ => false

def sameFields : List (String × Value) → List (String × Value) → Bool
  | [], [] => true
  | (name, a) :: as, (other, b) :: bs => name == other && same a b && sameFields as bs
  | _, _ => false

end

instance : BEq Value := ⟨same⟩

mutual

/-- The type tag of a value. -/
def tag : Value → Tag
  | null => Tag.nilTag
  | bool _ => Tag.boolTag
  | int _ => Tag.intTag
  | decimal _ => Tag.floatTag
  | str _ => Tag.strTag
  | array items => Tag.ofElements (tags items)
  | object _ => Tag.objectTag

/-- The type tags of some values. -/
def tags : List Value → List Tag
  | [] => []
  | v :: rest => tag v :: tags rest

end

mutual

/-- Whether the fields of every object in a value ascend strictly by name. Every value that the library
    builds is ordered. -/
def Ordered : Value → Prop
  | array items => OrderedItems items
  | object fields => Fields.Sorted fields ∧ OrderedFields fields
  | _ => True

def OrderedItems : List Value → Prop
  | [] => True
  | v :: rest => Ordered v ∧ OrderedItems rest

def OrderedFields : List (String × Value) → Prop
  | [] => True
  | (_, v) :: rest => Ordered v ∧ OrderedFields rest

end

def isNull : Value → Bool
  | null => true
  | _ => false

def isArray : Value → Bool
  | array _ => true
  | _ => false

def isObject : Value → Bool
  | object _ => true
  | _ => false

/-- The number of elements or fields; scalars have none. -/
def length : Value → Nat
  | array items => items.length
  | object fields => fields.length
  | _ => 0

/-- The value of a type that holds nothing: an empty container, zero, false, the empty text or null. -/
def empty (t : Tag) : Option Value :=
  if !t.isValid then none
  else some <|
    if t.array then array []
    else if t.isObject then object []
    else if t.isInt then int 0
    else if t.isFloat then decimal ⟨0, 0⟩
    else if t.isBool then bool false
    else if t.isStr then str ""
    else null

end Value

end TreeQuery
