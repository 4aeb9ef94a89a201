import TreeQuery.Query.Command
import TreeQuery.Text.Digits

/-! # Segments and paths

A path is a list of segments. A segment carries the commands written in front of it and a body, which
says what it selects, and one segment of a path may be followed by `>` instead of `.`: the segments up to
it are the source of a move, the others its destination.

A body may be a bracket, which holds another path. The type of what a bracket holds is a parameter, so
that a path inside brackets, of type `PlainPath`, has no brackets of its own.

The bits that a path as a whole determines (`appends`, `writes`, `moves` and so on) are read off the
written commands here and nowhere else. -/

namespace TreeQuery

/-- What a segment selects; a bracket holds a `σ`. -/
inductive Body (σ : Type) where
  /-- The field of an object with this name. -/
  | field (name : String)
  /-- The element of an array at the index that these digits spell. -/
  | index (digits : List Char)
  /-- `#`: the value itself. -/
  | here
  /-- `+`: one past the end of an array. -/
  | append
  /-- `[...]`: what the path inside, written `raw`, evaluates to. -/
  | bracket (raw : List Char) (inner : σ)
deriving DecidableEq, Repr

/-- One segment of a path. -/
structure Segment (σ : Type) where
  commands : Commands
  body : Body σ
  /-- Whether `>` follows the segment. -/
  marker : Bool := false
deriving DecidableEq, Repr

/-- A path whose brackets hold a `σ` each. -/
abbrev Path (σ : Type) := List (Segment σ)

/-- A path without brackets. -/
abbrev PlainPath := Path Empty

namespace Body
variable {σ : Type}

/-- The number an index segment carries, and zero for any other. -/
def value : Body σ → Nat
  | index digits => Digits.value digits
  | _ => 0

/-- Whether the body selects from an array. -/
def isArray : Body σ → Bool
  | index _ | append => true
  | _ => false

def isHere : Body σ → Bool
  | here => true
  | _ => false

def isBracket : Body σ → Bool
  | bracket _ _ => true
  | _ => false

/-- The name, digits or bracketed text of a body. -/
def text : Body σ → String
  | field name => name
  | index digits => String.ofList digits
  | bracket raw _ => String.ofList raw
  | here | append => ""

/-- The body with what its bracket holds replaced. -/
def map {τ : Type} (f : σ → τ) : Body σ → Body τ
  | field name => field name
  | index digits => index digits
  | here => here
  | append => append
  | bracket raw inner => bracket raw (f inner)

end Body

namespace Segment
variable {σ : Type}

/-- The character between a segment and the next one. -/
def separator (s : Segment σ) : Char := if s.marker then '>' else '.'

/-- The segment with what its bracket holds replaced. -/
def map {τ : Type} (f : σ → τ) (s : Segment σ) : Segment τ := ⟨s.commands, s.body.map f, s.marker⟩

/-- The segment with its commands edited. -/
def edit (f : Commands → Commands) (s : Segment σ) : Segment σ := { s with commands := f s.commands }

end Segment

namespace Path
variable {σ : Type}

/-- Whether `=` is written somewhere. -/
def overwrites (p : Path σ) : Bool := p.any (·.commands.overwrite)

/-- Whether `+` is written somewhere, so that the place addressed is not known beforehand. -/
def appends (p : Path σ) : Bool := p.any (·.commands.append)

/-- Whether `$` is written somewhere. -/
def makes (p : Path σ) : Bool := p.any (·.commands.make)

/-- Whether `!` is written somewhere. -/
def deletes (p : Path σ) : Bool := p.any (·.commands.delete)

/-- Whether a command that writes is written somewhere. -/
def writes (p : Path σ) : Bool := p.any (·.commands.isWrite)

/-- Whether the path has a source and a destination. -/
def moves (p : Path σ) : Bool := p.any (·.marker)

/-- A path without brackets, seen as one that may have some. -/
def ofPlain (p : PlainPath) : Path σ := p.map (Segment.map fun e => nomatch e)

end Path

end TreeQuery
