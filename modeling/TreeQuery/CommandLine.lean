import TreeQuery.Document.Leaves
import TreeQuery.Document.Merge
import TreeQuery.Value.Json

/-! # Command line

The arguments name one request, with `-v` allowed anywhere. A request gives the text to print, or the text
of a failure. What a request does not look at is not read: of two faults the one in the argument that is
read first is reported. -/

namespace TreeQuery.CommandLine

/-- What the arguments ask for. -/
inductive Request where
  | version
  | get (json query : String)
  | has (json query : String)
  | set (json query value : String)
  | delete (json query : String)
  | move (json query : String)
  | merge (left right : String)
  | tree (json : String)
  | check (query : String)
deriving DecidableEq, Repr

/-- What a run leaves behind. -/
structure Result where
  code : Nat
  stdout : String
  stderr : String
deriving DecidableEq, Repr

/-! ### Arguments -/

/-- What an argument is. -/
inductive Argument where
  | plain
  | verbose
  | version
  /-- `--`: everything behind it is plain. -/
  | separator
  | unknown
deriving DecidableEq, Repr

/-- The kind of an argument. A bare `-` is plain, and `-v` may be repeated within one argument. -/
def Argument.ofText (arg : String) : Argument :=
  match arg.toList with
  | ['-', '-'] => separator
  | '-' :: '-' :: _ =>
    if arg = "--verbose" then verbose else if arg = "--version" then version else unknown
  | '-' :: c :: rest =>
    match (c :: rest).dropWhile (· == 'v') with
    | [] => verbose
    | 'V' :: _ => version
    | _ => unknown
  | _ => plain

/-- The plain arguments behind the name of a command. No option but `-v` may be among them. -/
def operands : List String → Option (List String)
  | [] => some []
  | arg :: rest =>
    match Argument.ofText arg with
    | .plain => (operands rest).map (arg :: ·)
    | .verbose => operands rest
    | .separator => some rest
    | _ => none

/-- The request that a command with its operands makes. -/
def ofCommand? : String → List String → Option Request
  | "get", [json, query] => some (.get json query)
  | "has", [json, query] => some (.has json query)
  | "set", [json, query, value] => some (.set json query value)
  | "delete", [json, query] => some (.delete json query)
  | "move", [json, query] => some (.move json query)
  | "merge", [left, right] => some (.merge left right)
  | "tree", [json] => some (.tree json)
  | "check", [query] => some (.check query)
  | _, _ => none

/-- The request of a list of arguments. -/
def ofArguments? : List String → Option Request
  | [] => none
  | arg :: rest =>
    match Argument.ofText arg with
    | .plain => do ofCommand? arg (← operands rest)
    | .verbose => ofArguments? rest
    | .version => some .version
    | _ => none

/-! ### Requests -/

/-- The document of an operand. -/
def document (json : String) : Except String Value :=
  (Value.ofText json).mapError fun e => "Invalid JSON: " ++ e.message

/-- The query of an operand. -/
def query (spec : String) : Except String Query :=
  (Query.parse spec).mapError fun e => "Invalid query: " ++ e.message

/-- The line of a document. -/
def shown (result : Except Error Value) : Except String String :=
  match result with
  | .ok v => .ok (v.pretty ++ "\n")
  | .error e => .error e.message

/-- A text set flush right in a column. -/
def flushRight (width : Nat) (text : String) : String :=
  String.ofList (List.replicate (width - text.length) ' ') ++ text

/-- The line that describes a node. -/
def nodeLine (n : Node PlainPath) : String :=
  flushRight 3 (toString n.seq) ++ " " ++ n.wordText ++ " " ++ inspect n.body.text ++ "\n"

/-- What a request prints, or how it fails. -/
def Request.perform : Request → Except String String
  | .version => .ok "datum-query 0.1.0\n"
  | .get json spec => do
    let root ← document json
    let q ← query spec
    shown ((root.get q).mapError .read)
  | .has json spec => do
    let root ← document json
    let q ← query spec
    match root.has q with
    | .ok found => return (if found then "true\n" else "false\n")
    | .error e => throw (Error.read e).message
  | .set json spec value => do
    let new ← document value
    let root ← document json
    let q ← query spec
    shown (root.set q new)
  | .delete json spec => do
    let root ← document json
    let q ← query spec
    shown (root.delete q)
  | .move json spec => do
    let root ← document json
    let q ← query spec
    shown (root.move q)
  | .merge left right => do
    let left ← document left
    let right ← document right
    shown ((left.merge right).mapError .merge)
  | .tree json => do
    let root ← document json
    match root.leaves with
    | .ok queries => return String.join (queries.map fun q => q.display ++ "\n")
    | .error e => throw (Error.parse e).message
  | .check spec => do
    let q ← query spec
    return q.display ++ "\n" ++ String.join (q.path.nodes.map nodeLine)

/-- Runs the program on its arguments: code 0 with a text, 1 with the text of a failure, and 2 if the
    arguments name no request. -/
def run (args : List String) : Result :=
  match ofArguments? args with
  | none => ⟨2, "", "usage: dq [-v] <get|has|set|delete|move|merge|tree|check> ARGUMENTS\n"⟩
  | some request =>
    match request.perform with
    | .ok text => ⟨0, text, ""⟩
    | .error text => ⟨1, "", text ++ "\n"⟩

end TreeQuery.CommandLine
