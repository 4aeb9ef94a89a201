import TreeQuery.Query.Parse

/-! # The language of queries

Which texts spell which paths. The rules are given twice over: `WellFormed` says which paths there are, and
`SpelledBy` which texts spell a path. A path may have several spellings: commands come in any order, a
backslash may stand before any character of a name, an index may have leading zeros, and a `.` may stand
at the end.

Neither rule mentions positions or the order in which a text is read. -/

namespace TreeQuery

variable {σ : Type}

/-! ### Spellings -/

/-- A name is written with a backslash before each of its reserved characters, and before any other
    character as one likes. -/
inductive NameText : List Char → List Char → Prop where
  | nil : NameText [] []
  | plain {c : Char} {text name : List Char} (h : isReserved c = false) :
    NameText text name → NameText (c :: text) (c :: name)
  | escaped {c : Char} {text name : List Char} :
    NameText text name → NameText ('\\' :: c :: text) (c :: name)

/-- Commands are written once each in any order, except that `!` comes first. -/
def Commands.SpelledBy (s : Commands) (text : List Char) : Prop :=
  ∃ order : List Command, order.Nodup ∧ (∀ c, c ∈ order ↔ s.has c = true) ∧
    (Command.delete ∈ order → order.head? = some .delete) ∧ text = order.map Command.symbol

/-- A body behind its commands. A name is not written with digits only, since that spells an index. -/
def Body.SpelledBy : Body σ → List Char → Prop
  | .field name, text => NameText text name.toList ∧ Digits.isDigits text = false
  | .index digits, text => text = digits
  | .here, text => text = ['#']
  | .append, text => text = []
  | .bracket raw _, text => text = '[' :: raw ++ [']']

/-- A segment is written as its commands and its body. -/
def Segment.SpelledBy (s : Segment σ) (text : List Char) : Prop :=
  ∃ front back, s.commands.SpelledBy front ∧ s.body.SpelledBy back ∧ text = front ++ back

/-- The segments of a path are joined by their separators, and a `.` may stand at the end. -/
inductive Path.SpelledBy : Path σ → List Char → Prop where
  | last {s : Segment σ} {text : List Char} : s.SpelledBy text → s.marker = false → SpelledBy [s] text
  | dotted {s : Segment σ} {text : List Char} :
    s.SpelledBy text → s.marker = false → SpelledBy [s] (text ++ ['.'])
  | cons {s : Segment σ} {text : List Char} {p : Path σ} {rest : List Char} :
    s.SpelledBy text → SpelledBy p rest → SpelledBy (s :: p) (text ++ s.separator :: rest)

/-- The text of a query: a path, with the dialect in front or without it. -/
def Path.SpelledByQuery (p : Path σ) (text : List Char) : Prop :=
  Path.SpelledBy p text ∨ ∃ rest, text = dialectPrefix ++ rest ∧ Path.SpelledBy p rest

/-! ### Well-formed paths -/

/-- A body that can be written, where `Inner` says which text in a bracket holds what. -/
def Body.WellFormed (Inner : List Char → σ → Prop) : Body σ → Prop
  | .field name => name ≠ ""
  | .index digits => digits ≠ [] ∧ Digits.isDigits digits = true ∧ Digits.value digits < 2 ^ 32
  | .here | .append => True
  | .bracket raw inner => Inner raw inner

/-- The rules that a path obeys. -/
structure Path.WellFormed (Inner : List Char → σ → Prop) (p : Path σ) : Prop where
  nonempty : p ≠ []
  length_lt : p.length < maxLength
  bodies : ∀ s ∈ p, s.body.WellFormed Inner
  /-- `#` carries no command. -/
  here : ∀ s ∈ p, s.body = .here → s.commands = {}
  /-- `+` is written on the segments without a body and on no others. -/
  append : ∀ s ∈ p, s.commands.append = true ↔ s.body = .append
  /-- `!` is written on the first segment only. -/
  delete_first : ∀ s ∈ p.tail, s.commands.delete = false
  /-- `!` is written without `=`, `+`, `$` and `>`. -/
  delete_alone : Path.deletes p = true →
    Path.overwrites p = false ∧ Path.appends p = false ∧ Path.makes p = false ∧ Path.moves p = false
  /-- `=` is written without `?`, `+` and `$`. -/
  overwrite_alone : Path.overwrites p = true →
    (∀ s ∈ p, s.commands.maybe = false) ∧ Path.appends p = false ∧ Path.makes p = false
  /-- From a segment with `$` on, `?` is not written. -/
  make_ends_maybe : ∀ before s after, p = before ++ s :: after → s.commands.make = true →
    ∀ t ∈ s :: after, t.commands.maybe = false
  /-- `>` stands in one gap at most. -/
  one_marker : p.countP (·.marker) ≤ 1
  /-- No `>` stands at the end. -/
  last_unmarked : ∀ s ∈ p.getLast?, s.marker = false

/-- Nothing can be in a bracket. -/
def NoBracket (_ : List Char) (_ : σ) : Prop := False

/-- What can be in a bracket: a path without brackets that neither writes nor moves. -/
def Bracketed (raw : List Char) (inner : PlainPath) : Prop :=
  Path.WellFormed NoBracket inner ∧ Path.SpelledBy inner raw ∧ Path.writes inner = false ∧
    Path.moves inner = false

end TreeQuery
