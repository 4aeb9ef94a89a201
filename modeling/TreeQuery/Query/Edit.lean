import TreeQuery.Query.Basic

/-! # Editing queries

A query is edited by writing the text of the path that is wanted and reading it again, so that an edit
succeeds exactly when the text is one that a user could have written, and fails with the reason that
reading gives. -/

namespace TreeQuery.Query

/-! ### Extension -/

/-- The path of `q` followed by the path of `other`. -/
def concat (q other : Query) : Except ParseError Query := parse (q.spec ++ "." ++ other.spec)

/-- The path of `q` followed by one field of this name. No segment has the empty name, so the point in front
    of it is then out of place. -/
def concatField (q : Query) (name : String) : Except ParseError Query :=
  if name = "" then .error (.unexpectedToken '.' q.spec.utf8ByteSize)
  else parse (q.spec ++ "." ++ escape name)

/-! ### Commands -/

/-- The same path with the commands of this node edited. -/
def editCommands (q : Query) (edit : Commands → Commands) : Except ParseError Query := do
  let edited ← parse (Path.spec (q.path.modify q.seq (Segment.edit edit)))
  return edited.moveTo q.seq

/-- The same path with a command written on this node. -/
def addCommand (q : Query) (c : Command) : Except ParseError Query := q.editCommands (·.insert c)

/-- The same path without a command on this node. -/
def dropCommand (q : Query) (c : Command) : Except ParseError Query := q.editCommands (·.erase c)

/-! ### Source and destination -/

/-- The segments up to the one that `>` follows, and the others. -/
def splitAtMarker (path : Path PlainPath) : Option (Path PlainPath × Path PlainPath) :=
  match path.findIdx? (·.marker) with
  | some i => some (path.take (i + 1), path.drop (i + 1))
  | none => none

/-- The path of the source of a move. It keeps neither `=` nor `$`, since it is only read and removed. -/
def sourcePath (head : Path PlainPath) : Path PlainPath :=
  head.map (Segment.edit fun c => (c.erase .overwrite).erase .make)

/-- The path of the destination of a move. Its first segment takes over `=`, which holds of the whole path,
    and a `$` of the source, which holds of everything behind it. -/
def destinationPath (head tail : Path PlainPath) : Path PlainPath :=
  let carried : Commands := { overwrite := Path.overwrites (head ++ tail), make := Path.makes head }
  tail.modifyHead (Segment.edit (·.union carried))

/-- The source and the destination of a move, each as a query of its own. -/
def splitMove (q : Query) : Except Error (Query × Query) :=
  match splitAtMarker q.path with
  | none => .error (.write (.unsegmentedMove q.spec))
  | some (head, tail) => do
    let source ← (parse (Path.spec (sourcePath head))).mapError .parse
    let destination ← (parse (Path.spec (destinationPath head tail))).mapError .parse
    return (source, destination)

/-! ### Reading only -/

/-- Whether a query can be used for reading: it neither writes nor moves. -/
def checkReadonly (q : Query) : Except ReadError Unit :=
  if Path.writes q.path || Path.moves q.path then .error (.notReadonly q.spec) else .ok ()

end TreeQuery.Query
