import TreeQuery.Query.Segment

/-! # Written form of a path

The canonical text of a path: its segments joined by `.` or `>`, each with its commands in a fixed order,
indices without leading zeros, and names with a backslash before every reserved character. Reading the
canonical text gives the same path back, up to the leading zeros of indices. -/

namespace TreeQuery

/-- A character that a name may hold only behind a backslash. -/
def isReserved (c : Char) : Bool := c ∈ ['.', '\\', '#', '+', '!', '$', '?', '=', '>', '[', ']', '@', '~']

/-- A name with every reserved character escaped. -/
def escapeReserved : List Char → List Char
  | [] => []
  | c :: rest => if isReserved c then '\\' :: c :: escapeReserved rest else c :: escapeReserved rest

/-- The text that reads as one field of this name. A name made of digits gets a backslash in front,
    so that it is not read as an index. -/
def escapeName (name : List Char) : List Char :=
  if name ≠ [] ∧ Digits.isDigits name then '\\' :: name else escapeReserved name

/-- The text that reads as one field of this name. -/
def escape (name : String) : String := String.ofList (escapeName name.toList)

/-- The dotted text of a list of names. -/
def dotted : List String → List Char
  | [] => []
  | [name] => escapeName name.toList
  | name :: rest => escapeName name.toList ++ '.' :: dotted rest

variable {σ : Type}

/-- The text of a body behind its commands. -/
def Body.render : Body σ → List Char
  | .field name => escapeName name.toList
  | .index digits => Digits.ofNat (Digits.value digits)
  | .here => ['#']
  | .append => []
  | .bracket raw _ => '[' :: raw ++ [']']

/-- The text of a segment. -/
def Segment.render (s : Segment σ) : List Char := s.commands.text ++ s.body.render

namespace Path

/-- The texts of the segments joined by their separators; a text may depend on the place in the path. -/
def join (text : Nat → Segment σ → List Char) : Nat → Path σ → List Char
  | _, [] => []
  | i, [s] => text i s
  | i, s :: rest => text i s ++ s.separator :: join text (i + 1) rest

/-- The canonical text of a path. -/
def render (p : Path σ) : List Char := join (fun _ s => s.render) 0 p

/-- The canonical text with `@` before one segment. -/
def renderMarked (seq : Nat) (p : Path σ) : List Char :=
  join (fun i s => if i = seq then '@' :: s.render else s.render) 0 p

/-- The canonical text of a path. -/
def spec (p : Path σ) : String := String.ofList p.render

end Path

end TreeQuery
