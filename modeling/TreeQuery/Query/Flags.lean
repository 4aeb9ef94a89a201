import TreeQuery.Query.Mode

/-! # Flags

The flags of a node are set in two rounds. When its token is closed they hold what is written there (`Flags.new`). When
the whole text has been read, the bits are inserted that depend on the other nodes too (`Flags.finalize`): some of them
hold of every node or of none, and `make` is on from the first node with `$`. -/

namespace TreeQuery

namespace Mode

/-- The bits of either of two modes. -/
def union (m n : Mode) : Mode where
  here := m.here || n.here
  overwrite := m.overwrite || n.overwrite
  indeterministic := m.indeterministic || n.indeterministic
  maybe := m.maybe || n.maybe
  make := m.make || n.make
  append := m.append || n.append
  delete := m.delete || n.delete
  move := m.move || n.move
  marker := m.marker || n.marker
  root := m.root || n.root
  leaf := m.leaf || n.leaf
  single := m.single || n.single
  write := m.write || n.write
  dynamic := m.dynamic || n.dynamic

/-- The bits of both of two modes. -/
def inter (m n : Mode) : Mode where
  here := m.here && n.here
  overwrite := m.overwrite && n.overwrite
  indeterministic := m.indeterministic && n.indeterministic
  maybe := m.maybe && n.maybe
  make := m.make && n.make
  append := m.append && n.append
  delete := m.delete && n.delete
  move := m.move && n.move
  marker := m.marker && n.marker
  root := m.root && n.root
  leaf := m.leaf && n.leaf
  single := m.single && n.single
  write := m.write && n.write
  dynamic := m.dynamic && n.dynamic

/-- The bits that a token can write. -/
def writable : Mode :=
  { here := true, overwrite := true, maybe := true, make := true, append := true, delete := true }

/-- The bits of commands, and that of `#` if it is written behind them. -/
def ofCommands (c : Commands) (here : Bool) : Mode :=
  { here := here, overwrite := c.overwrite, maybe := c.maybe, make := c.make, append := c.append, delete := c.delete }

end Mode

/-- The kind, the mode, the commands as written, the index value and the place of a node. -/
structure Flags where
  isArray : Bool
  mode : Mode
  commands : Mode
  value : Nat
  seq : Nat
deriving DecidableEq, Repr

namespace Flags

/-- The flags of a node of which the commands are known. -/
def new (isArray : Bool) (commands : Mode) (value seq : Nat) : Flags :=
  let commands := commands.inter .writable
  ⟨isArray, commands, commands, value, seq⟩

/-- The flags with more bits in the mode. The commands stay as they are written. -/
def insert (f : Flags) (m : Mode) : Flags := { f with mode := f.mode.union m }

/-- The bits that hold of every node of a path, by the commands written in it and the number of its `>`. -/
def global (seen : Commands) (moves : Nat) : Mode where
  overwrite := seen.overwrite
  indeterministic := seen.append
  delete := seen.delete
  move := 0 < moves
  write := seen.isWrite

/-- The flags of the nodes from the place `seq` of a path of `length` nodes on; `make` tells whether `$` is written on
    a node before that place. -/
def finalizeFrom (global : Mode) (length : Nat) : (make : Bool) → (seq : Nat) → List Flags → List Flags
  | _, _, [] => []
  | make, seq, f :: rest =>
    let make := make || f.commands.make
    f.insert (global.union { make := make, root := seq == 0, leaf := seq + 1 == length, single := length == 1 }) ::
      finalizeFrom global length make (seq + 1) rest

/-- The flags of the nodes of a path. -/
def finalize (seen : Commands) (moves : Nat) (flags : List Flags) : List Flags :=
  finalizeFrom (global seen moves) flags.length false 0 flags

end Flags

/-- The flags of a node. -/
def Node.flags {σ : Type} (n : Node σ) : Flags :=
  ⟨n.body.isArray, n.mode, .ofCommands n.commands n.body.isHere, n.body.value, n.seq⟩

end TreeQuery
