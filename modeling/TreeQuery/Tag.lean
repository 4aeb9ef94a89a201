/-! # Type tags

A tag is a set of seven bits: two modifiers, which say that null is permitted and that the value is a list,
and five primary kinds. A valid tag has at most one primary kind; the tag with all five stands for an
error. Each valid tag has exactly one text, the name of its kind followed by `[]` and then `?`. -/

namespace TreeQuery

/-- A set of type bits. -/
structure Tag where
  nil : Bool := false
  array : Bool := false
  object : Bool := false
  int : Bool := false
  float : Bool := false
  bool : Bool := false
  str : Bool := false
deriving DecidableEq, Repr

namespace Tag

def nilTag : Tag := { nil := true }
def arrayTag : Tag := { array := true }
def objectTag : Tag := { object := true }
def intTag : Tag := { int := true }
def floatTag : Tag := { float := true }
def boolTag : Tag := { bool := true }
def strTag : Tag := { str := true }

/-- The tag that stands for an error. -/
def invalid : Tag := { object := true, int := true, float := true, bool := true, str := true }

/-- The primary kinds of a tag. -/
def primary (t : Tag) : Tag := { t with nil := false, array := false }

/-- The modifiers of a tag. -/
def modifiers (t : Tag) : Tag := { nil := t.nil, array := t.array }

/-- The bits in either of two tags. -/
def union (s t : Tag) : Tag where
  nil := s.nil || t.nil
  array := s.array || t.array
  object := s.object || t.object
  int := s.int || t.int
  float := s.float || t.float
  bool := s.bool || t.bool
  str := s.str || t.str

/-- The tag of an array whose elements have these tags: it permits null if some element is null, and it
    carries the primary kind of the other elements if they all have the same one. -/
def ofElements (tags : List Tag) : Tag :=
  let kinds := (tags.filter (· != nilTag)).map primary
  let kind : Tag := match kinds with
    | [] => {}
    | k :: rest => if rest.all (· == k) then k else {}
  { kind with array := true, nil := tags.any (· == nilTag) }

/-- Whether a tag has at most one primary kind. -/
def isValid (t : Tag) : Bool := [t.object, t.int, t.float, t.bool, t.str].count true ≤ 1

def isObject (t : Tag) : Bool := t.primary == objectTag
def isInt (t : Tag) : Bool := t.primary == intTag
def isFloat (t : Tag) : Bool := t.primary == floatTag
def isBool (t : Tag) : Bool := t.primary == boolTag
def isStr (t : Tag) : Bool := t.primary == strTag

/-- A tag as a number. -/
def bits (t : Tag) : Nat :=
  t.nil.toNat + 2 * t.array.toNat + 16 * t.object.toNat + 32 * t.int.toNat + 64 * t.float.toNat +
    128 * t.bool.toNat + 256 * t.str.toNat

/-- The tag that a number spells; bits without a meaning are dropped. -/
def ofBits (n : Nat) : Tag where
  nil := n.testBit 0
  array := n.testBit 1
  object := n.testBit 4
  int := n.testBit 5
  float := n.testBit 6
  bool := n.testBit 7
  str := n.testBit 8

/-- The primary kinds with their names; no kind is `any`. -/
def names : List (Tag × List Char) :=
  [(objectTag, ['o', 'b', 'j']), (intTag, ['i', 'n', 't']), (floatTag, ['f', 'l', 'o', 'a', 't']),
    (boolTag, ['b', 'o', 'o', 'l']), (strTag, ['s', 't', 'r']), ({}, ['a', 'n', 'y'])]

/-- The name of the primary kind of a valid tag. -/
def kindName (t : Tag) : List Char := ((names.find? (·.1 == t.primary)).map (·.2)).getD []

/-- The text of a tag. -/
def text (t : Tag) : String :=
  if t.isValid then
    String.ofList (t.kindName ++ (if t.array then ['[', ']'] else []) ++ if t.nil then ['?'] else [])
  else "invalid"

/-- Whether a text ends in a suffix, and the text without it. -/
def dropSuffix (suffix text : List Char) : Bool × List Char :=
  if suffix.isSuffixOf text then (true, text.take (text.length - suffix.length)) else (false, text)

/-- The tag that a text spells: one `?` is taken off the end, then one `[]`, and the rest names a kind. -/
def ofText? (text : String) : Option Tag :=
  let (nil, rest) := dropSuffix ['?'] text.toList
  let (array, rest) := dropSuffix ['[', ']'] rest
  (names.find? (·.2 == rest)).map fun (kind, _) => { kind with nil := nil, array := array }

/-- The tag that a text spells, `invalid` if it spells none. -/
def ofText (text : String) : Tag := (ofText? text).getD invalid

end Tag

end TreeQuery
