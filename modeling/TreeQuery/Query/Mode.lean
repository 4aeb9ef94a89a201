import TreeQuery.Query.Render

/-! # Mode bits and packed words

A node is a segment in its place in a path. Its mode is the set of bits that hold of it: some are written
on the segment itself, `make` runs forward from the segment it is written on, and `overwrite`,
`indeterministic`, `delete`, `write` and `move` hold of every node of the path or of none. A word packs
the index value, the place, the mode and the kind of a node into 64 bits. -/

namespace TreeQuery

/-- What holds of a node. -/
structure Mode where
  /-- The node is `#`. -/
  here : Bool := false
  /-- `=` is written in the path. -/
  overwrite : Bool := false
  /-- `+` is written in the path. -/
  indeterministic : Bool := false
  /-- `?` is written on the node. -/
  maybe : Bool := false
  /-- `$` is written on the node or before it. -/
  make : Bool := false
  /-- `+` is written on the node. -/
  append : Bool := false
  /-- `!` is written in the path. -/
  delete : Bool := false
  /-- The path has a source and a destination. -/
  move : Bool := false
  /-- The node is the last one of the source. -/
  marker : Bool := false
  /-- The node is the first one. -/
  root : Bool := false
  /-- The node is the last one. -/
  leaf : Bool := false
  /-- The node is the only one. -/
  single : Bool := false
  /-- A command that writes is written in the path. -/
  write : Bool := false
  /-- The node is a bracket. -/
  dynamic : Bool := false
deriving DecidableEq, Repr

namespace Mode

/-- The bits of a mode, from the lowest. -/
def flags (m : Mode) : List Bool :=
  [m.here, m.overwrite, m.indeterministic, m.maybe, m.make, m.append, m.delete, m.move, m.marker, m.root,
    m.leaf, m.single, m.write, m.dynamic]

/-- The number whose binary digits, from the lowest, are these. -/
def pack : List Bool → Nat
  | [] => 0
  | b :: rest => b.toNat + 2 * pack rest

/-- The mode as a number of 14 bits. -/
def bits (m : Mode) : Nat := pack m.flags

/-- The mode that a number spells; bits without a meaning are dropped. -/
def ofBits (n : Nat) : Mode where
  here := n.testBit 0
  overwrite := n.testBit 1
  indeterministic := n.testBit 2
  maybe := n.testBit 3
  make := n.testBit 4
  append := n.testBit 5
  delete := n.testBit 6
  move := n.testBit 7
  marker := n.testBit 8
  root := n.testBit 9
  leaf := n.testBit 10
  single := n.testBit 11
  write := n.testBit 12
  dynamic := n.testBit 13

/-- The commands among the bits of a mode, `#` aside. -/
def commands (m : Mode) : Commands := ⟨m.overwrite, m.maybe, m.make, m.append, m.delete⟩

/-- The symbol of the command that comes first in the writing order, with `#` last and `?` if the mode has
    no command at all. -/
def symbol (m : Mode) : Char :=
  match Command.writingOrder.find? m.commands.has with
  | some c => c.symbol
  | none => if m.here then '#' else '?'

/-- Whether a mode has no bits but those of commands. -/
def isCommand (m : Mode) : Bool :=
  m == { here := m.here, overwrite := m.overwrite, maybe := m.maybe, make := m.make, append := m.append,
         delete := m.delete }

end Mode

/-- A segment in its place in a path. -/
structure Node (σ : Type) extends Segment σ where
  seq : Nat
  mode : Mode
deriving DecidableEq, Repr

namespace Path
variable {σ : Type}

/-- The mode of the segment `s` at place `seq` of the path `p`, all bits at once. In what order they are set while a
    text is read is told by `Flags`. -/
def mode (p : Path σ) (seq : Nat) (s : Segment σ) : Mode where
  here := s.body.isHere
  overwrite := p.overwrites
  indeterministic := p.appends
  maybe := s.commands.maybe
  make := Path.makes (p.take (seq + 1))
  append := s.commands.append
  delete := p.deletes
  move := p.moves
  marker := s.marker
  root := seq == 0
  leaf := seq + 1 == p.length
  single := p.length == 1
  write := p.writes
  dynamic := s.body.isBracket

/-- The node of a segment at a place of a path. -/
def nodeAt (p : Path σ) (seq : Nat) (s : Segment σ) : Node σ := { s with seq := seq, mode := p.mode seq s }

/-- The nodes of a path, root first. -/
def nodes (p : Path σ) : List (Node σ) := p.mapIdx p.nodeAt

end Path

namespace Node
variable {σ : Type}

/-- The index that a node selects, if it is a plain index. -/
def index? (n : Node σ) : Option Nat :=
  match n.body with
  | .index digits => some (Digits.value digits)
  | _ => none

/-- The written form of the commands of a node; `#` counts as one. -/
def commandText (n : Node σ) : List Char := n.commands.text ++ if n.body.isHere then ['#'] else []

/-- The kind of a node as two bits: 1 selects from an object, 2 from an array. -/
def kindBits (n : Node σ) : Nat := if n.body.isArray then 2 else 1

/-- A node packed into 64 bits: the index value (bits 0 to 31), the place (32 to 39), the mode (40 to 53)
    and the kind (56 and 57). -/
def word (n : Node σ) : Nat :=
  n.body.value + n.seq * 2 ^ 32 + n.mode.bits * 2 ^ 40 + n.kindBits * 2 ^ 56

/-- The word of a node in hexadecimal. -/
def wordText (n : Node σ) : String :=
  let digits := Nat.toDigits 16 n.word
  "0x" ++ String.ofList (List.replicate (16 - digits.length) '0' ++ digits)

end Node

end TreeQuery
