/-! # Commands

Five commands may be written in front of a segment. This file holds the commands, their symbols and
sets of them. Two orders matter: a set is written in the order of `writingOrder`, with `!` first so that
the text is read back, and a refusal names the first command of `namingOrder`. -/

namespace TreeQuery

/-- A command that may be written in front of a segment. -/
inductive Command where
  /-- `=`: an existing value may be replaced. -/
  | overwrite
  /-- `?`: a missing value reads as null. -/
  | maybe
  /-- `$`: missing containers are created. -/
  | make
  /-- `+`: an array grows by one element. -/
  | append
  /-- `!`: the addressed value is removed. -/
  | delete
deriving DecidableEq, Repr

/-- A set of commands. -/
structure Commands where
  overwrite : Bool := false
  maybe : Bool := false
  make : Bool := false
  append : Bool := false
  delete : Bool := false
deriving DecidableEq, Repr

namespace Command

/-- The character that writes a command. -/
def symbol : Command → Char
  | overwrite => '='
  | maybe => '?'
  | make => '$'
  | append => '+'
  | delete => '!'

/-- The command that a character writes. -/
def ofSymbol? : Char → Option Command
  | '=' => some overwrite
  | '?' => some maybe
  | '$' => some make
  | '+' => some append
  | '!' => some delete
  | _ => none

/-- The order in which the commands of a segment are written. -/
def writingOrder : List Command := [delete, overwrite, maybe, append, make]

/-- The order in which a refusal looks for the command it names. -/
def namingOrder : List Command := [overwrite, maybe, make, append, delete]

/-- Whether a command turns a path into one that writes. -/
def isWrite : Command → Bool
  | maybe => false
  | _ => true

@[simp] theorem ofSymbol?_symbol (c : Command) : ofSymbol? c.symbol = some c := by
  cases c <;> rfl

end Command

namespace Commands

/-- Whether a command is in a set. -/
def has (s : Commands) : Command → Bool
  | .overwrite => s.overwrite
  | .maybe => s.maybe
  | .make => s.make
  | .append => s.append
  | .delete => s.delete

/-- The set with a command added. -/
def insert (s : Commands) : Command → Commands
  | .overwrite => { s with overwrite := true }
  | .maybe => { s with maybe := true }
  | .make => { s with make := true }
  | .append => { s with append := true }
  | .delete => { s with delete := true }

/-- The set with a command removed. -/
def erase (s : Commands) : Command → Commands
  | .overwrite => { s with overwrite := false }
  | .maybe => { s with maybe := false }
  | .make => { s with make := false }
  | .append => { s with append := false }
  | .delete => { s with delete := false }

/-- The commands in either of two sets. -/
def union (s t : Commands) : Commands where
  overwrite := s.overwrite || t.overwrite
  maybe := s.maybe || t.maybe
  make := s.make || t.make
  append := s.append || t.append
  delete := s.delete || t.delete

/-- The commands in both of two sets. -/
def inter (s t : Commands) : Commands where
  overwrite := s.overwrite && t.overwrite
  maybe := s.maybe && t.maybe
  make := s.make && t.make
  append := s.append && t.append
  delete := s.delete && t.delete

/-- The command that a refusal names when the commands of a set stand in the way. -/
def first? (s : Commands) : Option Command := Command.namingOrder.find? s.has

/-- Whether some command of a set writes. -/
def isWrite (s : Commands) : Bool := s.overwrite || s.make || s.append || s.delete

/-- The written form of a set. -/
def text (s : Commands) : List Char := (Command.writingOrder.filter s.has).map Command.symbol

theorem has_insert (s : Commands) (c d : Command) : (s.insert c).has d = (decide (d = c) || s.has d) := by
  cases c <;> cases d <;> simp [insert, has]

theorem has_union (s t : Commands) (c : Command) : (s.union t).has c = (s.has c || t.has c) := by
  cases c <;> rfl

theorem has_inter (s t : Commands) (c : Command) : (s.inter t).has c = (s.has c && t.has c) := by
  cases c <;> rfl

theorem has_of_has_erase {s : Commands} {c d : Command} (h : (s.erase c).has d = true) : s.has d = true := by
  cases c <;> cases d <;> first | exact h | cases h

/-- Sets with the same commands are equal. -/
theorem ext_has {s t : Commands} (h : ∀ c, s.has c = t.has c) : s = t := by
  have h1 := h .overwrite
  have h2 := h .maybe
  have h3 := h .make
  have h4 := h .append
  have h5 := h .delete
  cases s
  cases t
  simp_all [has]

end Commands

end TreeQuery
