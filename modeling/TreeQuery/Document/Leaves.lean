import TreeQuery.Document.Write

/-! # Leaves

The leaves of a document are the values below its objects that are not themselves objects with fields. A
document can be listed as one query per leaf, and built from such queries with their values. The empty name
has no segment, so a field without a name is left out with all that is below it. -/

namespace TreeQuery.Value

mutual

/-- The names that lead to each leaf of a value that itself is reached by `place`. -/
def leafPlaces (place : List String) : Value → List (List String)
  | object fields =>
    if fields.isEmpty then (if place = [] then [] else [place]) else leafPlacesOf place fields
  | _ => if place = [] then [] else [place]

def leafPlacesOf (place : List String) : List (String × Value) → List (List String)
  | [] => []
  | (name, v) :: rest => (if name = "" then [] else leafPlaces (place ++ [name]) v) ++ leafPlacesOf place rest

end

/-- The query of each leaf, in the order of the field names. -/
def leaves (root : Value) : Except ParseError (List Query) :=
  (leafPlaces [] root).mapM fun place => Query.parse (String.ofList (dotted place))

/-- The query that a pair is written at: `$` on the first segment, if it can be written there. -/
def buildQuery (q : Query) : Query :=
  match q.root.addCommand .make with
  | .ok made => made
  | .error _ => q.root

/-- The document with pairs written to it one after another, where `seen` holds the texts of the queries
    written before. -/
def build (seen : List String) (root : Value) : List (Query × Value) → Except Error Value
  | [] => .ok root
  | (q, v) :: rest =>
    if Path.deletes q.path || Path.moves q.path then .error (.make (.prohibited q.spec))
    else if !Path.appends q.path && seen.contains q.spec then .error (.make (.duplicateKey q.spec))
    else do
      let next ← root.set (buildQuery q) v
      build (if Path.appends q.path then seen else q.spec :: seen) next rest

/-- The document that has each value at its query; no pairs give an object without fields. -/
def ofPairs (pairs : List (Query × Value)) : Except Error Value := do
  let root ← build [] null pairs
  return if root.isNull then object [] else root

end TreeQuery.Value
