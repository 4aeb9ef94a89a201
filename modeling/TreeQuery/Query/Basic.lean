import TreeQuery.Query.Mode
import TreeQuery.Query.Parse
import TreeQuery.Text.Inspect

/-! # Queries

A query is a path with a place in it: the node that an operation starts at. Reading a text gives a query at
the root, navigation changes only the place. Two queries are equal if they have the same canonical text and
the same place, and they are ordered by the two. -/

namespace TreeQuery

/-- A path and a place in it. -/
structure Query where
  path : Path PlainPath
  seq : Nat
  seq_lt : seq < path.length

/-- Why a query has no neighbour. -/
inductive StepError where
  | beforeRoot (spec : String)
  | afterLeaf (spec : String)
deriving DecidableEq, Repr

def StepError.message : StepError → String
  | beforeRoot spec => s!"prev() called on the root of '{spec}'"
  | afterLeaf spec => s!"next() called on the leaf of '{spec}'"

namespace Query

/-- The query at the root of a path, if the path has one. -/
def ofPath? (path : Path PlainPath) : Option Query :=
  if h : 0 < path.length then some ⟨path, 0, h⟩ else none

/-- The query at the root of a path that was read. -/
def ofReading (reading : Except ParseError (Path PlainPath)) : Except ParseError Query := do
  match ofPath? (← reading) with
  | some q => return q
  | none => throw .empty

/-- Reads a query. -/
def parse (spec : String) : Except ParseError Query := ofReading (readSpec spec.toList)

/-- Reads a query that begins `offset` bytes into a larger text, at a depth of brackets. No dialect is
    looked for. -/
def parseAt (offset depth : Nat) (spec : String) : Except ParseError Query :=
  if depth < maxNesting then ofReading (readOuter offset spec.toList)
  else ofReading ((readPath none offset spec.toList).map Path.ofPlain)

/-! ### Views -/

/-- The number of segments. -/
def length (q : Query) : Nat := q.path.length

/-- The canonical text of the whole path. -/
def spec (q : Query) : String := q.path.spec

/-- The segment at the place of the query. -/
def segment (q : Query) : Segment PlainPath := q.path.get ⟨q.seq, q.seq_lt⟩

/-- The node at the place of the query. -/
def node (q : Query) : Node PlainPath := q.path.nodeAt q.seq q.segment

/-- The nodes from the place of the query to the leaf. -/
def nodesFrom (q : Query) : List (Node PlainPath) := q.path.nodes.drop q.seq

/-- The canonical text, with `@` before the node of the query unless that is the root. -/
def display (q : Query) : String :=
  if q.seq = 0 then q.spec else String.ofList (q.path.renderMarked q.seq)

/-- The text of a query for inspection: `~` in front marks an indeterministic path. -/
def debug (q : Query) : String :=
  let marked := if Path.appends q.path then "~" ++ q.display else q.display
  "Query \x7b spec: " ++ inspect marked ++ ", flags: " ++ q.node.wordText ++ " \x7d"

instance : BEq Query := ⟨fun a b => a.seq == b.seq && a.spec == b.spec⟩

instance : Ord Query := ⟨fun a b => (compare a.spec b.spec).then (compare a.seq b.seq)⟩

/-! ### Navigation -/

/-- The query at another place of the path, the leaf if the path is too short. -/
def moveTo (q : Query) (seq : Nat) : Query :=
  ⟨q.path, min seq (q.path.length - 1), by have := q.seq_lt; omega⟩

/-- The query at the first node. -/
def root (q : Query) : Query := q.moveTo 0

/-- The query at the last node. -/
def leaf (q : Query) : Query := q.moveTo (q.path.length - 1)

/-- The query at the node before. -/
def prev (q : Query) : Except StepError Query :=
  if q.seq = 0 then .error (.beforeRoot q.spec) else .ok (q.moveTo (q.seq - 1))

/-- The query at the node behind. -/
def next (q : Query) : Except StepError Query :=
  if q.seq + 1 < q.length then .ok (q.moveTo (q.seq + 1)) else .error (.afterLeaf q.spec)

/-- The query at the root of the path in the bracket of a node. -/
def inner? (q : Query) : Option Query :=
  match q.segment.body with
  | .bracket _ inner => ofPath? (Path.ofPlain inner)
  | _ => none

end Query

end TreeQuery
