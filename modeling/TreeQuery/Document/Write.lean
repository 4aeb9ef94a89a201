import TreeQuery.Document.Read

/-! # Writing at a query

A write follows the path of a query and gives the whole document anew; a failing write gives none. Missing
containers are created from the first `$` on, an existing value is replaced only if `=` is written
somewhere, and `+` makes an array one element longer. Brackets are evaluated on the document as it was before
the write. -/

namespace TreeQuery

variable {σ : Type}

namespace Value

/-- Whether a value is null or an empty array, so that index 0 may be written to it. -/
def isBlank : Value → Bool
  | null => true
  | array [] => true
  | _ => false

/-- The fields to write in: those of an object, and none of null if `make` creates an object there. -/
def writableFields (make : Bool) : Value → Except WriteError (Fields Value)
  | object fields => .ok fields
  | null => if make then .ok [] else .error (.typeCast Tag.objectTag Tag.nilTag)
  | v => .error (.typeCast Tag.objectTag v.tag)

/-- The elements to write in: those of an array, and none of null if `make` creates an array there. -/
def writableItems (make : Bool) : Value → Except WriteError (List Value)
  | array items => .ok items
  | null => if make then .ok [] else .error (.typeCast Tag.arrayTag Tag.nilTag)
  | v => .error (.typeCast Tag.arrayTag v.tag)

/-- The empty container in which a key can be written. -/
def blankFor : Key → Value
  | .current => null
  | .name _ => object []
  | .index _ | .append => array []

/-- A value with `new` put at a key, the last one of its path. `place` is the text of the query for a
    refusal. -/
def put (make overwrite : Bool) (place : String) (v new : Value) : Key → Except WriteError Value
  | .current => if v.isNull || overwrite then .ok new else .error (.implicitOverwrite place)
  | .name name => do
    let fields ← writableFields make v
    if (Fields.get? name fields).isSome && !overwrite then .error (.implicitOverwrite place)
    else return object (Fields.insert name new fields)
  | .index i =>
    if i = 0 ∧ v.isBlank then .ok (array [new])
    else do
      let items ← writableItems make v
      if i < items.length then return array (items.set i new) else .error (.missingKey (toString i))
  | .append => do
    let items ← writableItems true v
    return array (items ++ [new])

/-- A value with the part at a key edited; `blank` is the part to begin with where `make` creates one. -/
def enter (make : Bool) (blank : Except Error Value) (edit : Value → Except Error Value) (v : Value) :
    Key → Except Error Value
  | .current => edit v
  | .name name => do
    let fields ← (writableFields make v).mapError .write
    let child ← match Fields.get? name fields with
      | some child => .ok child
      | none => if make then blank else .error (.write (.missingKey name))
    return object (Fields.insert name (← edit child) fields)
  | .index i =>
    if i = 0 ∧ v.isBlank ∧ make then do
      let child ← blank
      return array [← edit child]
    else do
      let items ← (writableItems make v).mapError .write
      match items[i]? with
      | some child => return array (items.set i (← edit child))
      | none => .error (.write (.missingKey (toString i)))
  | .append => do
    let items ← (writableItems true v).mapError .write
    let child ← blank
    return array (items ++ [← edit child])

end Value

/-- A value with `new` written at a path. `make` tells whether `$` is written before the path, and
    `overwrite` whether `=` is written in it or before it. -/
def assign (key : Body σ → Except ReadError Key) (overwrite : Bool) (place : String) (new : Value) (make : Bool) :
    Path σ → Value → Except Error Value
  | [], _ => .ok new
  | [s], v => do
    let k ← (key s.body).mapError .read
    (v.put (make || s.commands.make) overwrite place new k).mapError .write
  | s :: next :: rest, v => do
    let k ← (key s.body).mapError .read
    let make := make || s.commands.make
    v.enter make (((key next.body).map Value.blankFor).mapError .read)
      (assign key overwrite place new make (next :: rest)) k

namespace Value

/-- A value without the part at a key; `#` leaves null. -/
def removeAt (v : Value) : Key → Value
  | .current => null
  | .name name =>
    match v with
    | object fields => object (Fields.erase name fields)
    | v => v
  | .index i =>
    match v with
    | array items => array (items.eraseIdx i)
    | v => v
  | .append => v

/-- A value with the part at a key replaced by what `f` makes of it, if there is one. -/
def modifyAt (f : Value → Except ReadError Value) (v : Value) : Key → Except ReadError Value
  | .current => f v
  | .name name =>
    match v with
    | object fields =>
      match Fields.get? name fields with
      | some child => return object (Fields.insert name (← f child) fields)
      | none => .ok v
    | v => .ok v
  | .index i =>
    match v with
    | array items =>
      match items[i]? with
      | some child => return array (items.set i (← f child))
      | none => .ok v
    | v => .ok v
  | .append => .ok v

end Value

/-- A value without the part at a path. Its keys are evaluated again, on the document as it was before. -/
def remove (key : Body σ → Except ReadError Key) : Path σ → Value → Except ReadError Value
  | [], v => .ok v
  | [s], v => return v.removeAt (← key s.body)
  | s :: next :: rest, v => do v.modifyAt (remove key (next :: rest)) (← key s.body)

namespace Value

/-- The document with `new` written at a query. -/
def set (root : Value) (q : Query) (new : Value) : Except Error Value :=
  if Path.deletes q.path then .error (.write (.unexpectedValue q.spec))
  else if Path.moves q.path then .error (.parse (.notWritable q.spec))
  else assign (keyIn root) (Path.overwrites q.path) q.leaf.display new (Path.makes (q.path.take q.seq))
    q.remaining root

/-- The document without the value at a query; elements behind it move down. Where nothing is at the query
    the document stays as it is. -/
def delete (root : Value) (q : Query) : Except Error Value :=
  if Path.moves q.path then .error (.parse (.notWritable q.spec))
  else match walk q.spec (keyIn root) q.remaining root with
    | .ok (some _) => (remove (keyIn root) q.remaining root).mapError .read
    | .ok none | .error _ => .ok root

/-- The document with the value at the source of a move taken away and written at its destination. -/
def move (root : Value) (q : Query) : Except Error Value := do
  if !Path.moves q.path then .error (.write (.unsegmentedMove q.spec))
  else
    let (source, destination) ← q.splitMove
    let moved ← (root.get source).mapError .read
    let without ← root.delete source
    without.set destination moved

/-- Runs whichever write a query describes. A query that deletes or moves takes no value, every other one
    needs one. -/
def apply (root : Value) (q : Query) (new : Option Value) : Except Error Value :=
  match new with
  | some v =>
    if Path.deletes q.path || Path.moves q.path then .error (.write (.unexpectedValue q.spec)) else root.set q v
  | none =>
    if Path.deletes q.path then root.delete q
    else if Path.moves q.path then root.move q
    else .error (.write (.unexpectedValue q.spec))

end Value

end TreeQuery
