import TreeQuery.Query.Edit
import TreeQuery.Value.Basic

/-! # Reading at a query

A body selects a key, a key selects a part of a value, and a path is followed from the place of the query
to its leaf. A bracket is evaluated on the whole document, whatever has been reached: a text names a field
and an integer an index. `?` on a segment excuses that nothing is there, and the value is then null. -/

namespace TreeQuery

/-- What one segment selects in the value reached. -/
inductive Key where
  /-- The value itself. -/
  | current
  /-- The field of an object. -/
  | name (name : String)
  /-- The element of an array. -/
  | index (i : Nat)
  /-- One past the end of an array. -/
  | append
deriving DecidableEq, Repr

variable {σ : Type}

/-- The key of an evaluated bracket. -/
def Value.key : Value → Except ReadError Key
  | .str name => .ok (.name name)
  | .int i => if 0 ≤ i ∧ i < 2 ^ 64 then .ok (.index i.toNat) else .error (.integerOverflow i)
  | v => .error (.unexpectedType Tag.strTag v.tag)

/-- The key of a body, where `evaluate` gives the value of a bracket. -/
def Body.key (evaluate : σ → Except ReadError Value) : Body σ → Except ReadError Key
  | .here => .ok .current
  | .append => .ok .append
  | .field name => .ok (.name name)
  | .index digits => .ok (.index (Digits.value digits))
  | .bracket _ inner => do (← evaluate inner).key

namespace Value

/-- The part of a value that a key selects; none if it is missing and `maybe` excuses that. `spec` is the text of the
    query for a refusal. -/
def select (spec : String) (maybe : Bool) (v : Value) : Key → Except ReadError (Option Value)
  | .current => .ok (some v)
  | .name name =>
    match v with
    | object fields =>
      match Fields.get? name fields with
      | some child => .ok (some child)
      | none => if maybe then .ok none else .error (.missingKey name)
    | null => if maybe then .ok none else .error (.unexpectedType Tag.objectTag v.tag)
    | _ => .error (.unexpectedType Tag.objectTag v.tag)
  | .index i =>
    match v with
    | array items =>
      match items[i]? with
      | some child => .ok (some child)
      | none => if maybe then .ok none else .error (.outOfBounds i items.length)
    | null => if maybe then .ok none else .error (.unexpectedType Tag.arrayTag v.tag)
    | _ => .error (.unexpectedType Tag.arrayTag v.tag)
  | .append => .error (.indeterministic spec)

end Value

/-- Follows a path from a value; none if a segment with `?` finds nothing. -/
def walk (spec : String) (key : Body σ → Except ReadError Key) : Path σ → Value → Except ReadError (Option Value)
  | [], v => .ok (some v)
  | s :: rest, v => do
    match ← v.select spec s.commands.maybe (← key s.body) with
    | some child => walk spec key rest child
    | none => return none

/-- The value of a path from the place `seq` on. A path that writes or moves cannot be read. -/
def readFrom (key : Body σ → Except ReadError Key) (path : Path σ) (seq : Nat) (root : Value) :
    Except ReadError Value :=
  if Path.appends path then .error (.indeterministic path.spec)
  else if Path.writes path || Path.moves path then .error (.notReadonly path.spec)
  else (walk path.spec key (path.drop seq) root).map (·.getD .null)

/-- The key of a body in a path without brackets. -/
def plainKey : Body Empty → Except ReadError Key := Body.key fun e => nomatch e

/-- The key of a body whose bracket is evaluated on a document. -/
def keyIn (root : Value) : Body PlainPath → Except ReadError Key :=
  Body.key fun inner => readFrom plainKey inner 0 root

namespace Query

/-- The segments from the place of a query to its leaf. -/
def remaining (q : Query) : Path PlainPath := q.path.drop q.seq

end Query

namespace Value

/-- The value at a query. -/
def get (root : Value) (q : Query) : Except ReadError Value := readFrom (keyIn root) q.path q.seq root

/-- Whether an error only says that nothing is at a query. -/
def isAbsence : ReadError → Bool
  | .missingKey _ | .outOfBounds .. | .unexpectedType .. => true
  | _ => false

/-- Whether there is a value at a query. A missing part and one of another type both answer no. -/
def has (root : Value) (q : Query) : Except ReadError Bool :=
  if Path.writes q.path || Path.moves q.path then .error (.notReadonly q.spec)
  else match walk q.spec (keyIn root) q.remaining root with
    | .ok found => .ok found.isSome
    | .error e => if isAbsence e then .ok false else .error e

end Value

end TreeQuery
