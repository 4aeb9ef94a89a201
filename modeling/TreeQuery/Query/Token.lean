import TreeQuery.Query.Segment

/-! # Tokens

The text of a query is split at every `.` and `>` that stands neither behind a backslash nor inside a
bracket. Splitting never fails and loses nothing: the tokens with the separators between them are the
text. -/

namespace TreeQuery

/-- What ends a segment. -/
inductive Separator where
  /-- `.` -/
  | step
  /-- `>` -/
  | move
deriving DecidableEq, Repr

def Separator.symbol : Separator → Char
  | step => '.'
  | move => '>'

/-- The text of one segment, and the separator behind it unless the query ends there. -/
structure Token where
  text : List Char
  closedBy : Option Separator
deriving DecidableEq, Repr

namespace Token

/-- Tokens with a text put in front of the first one. -/
def prepend (front : List Char) : List Token → List Token
  | [] => [⟨front, none⟩]
  | t :: rest => { t with text := front ++ t.text } :: rest

/-- The tokens of a text of which a bracket is open or not. A backslash and the character behind it stay
    together, and a bracket extends to the next `]`. -/
def split (inBracket : Bool) : List Char → List Token
  | [] => [⟨[], none⟩]
  | '\\' :: c :: rest => prepend ['\\', c] (split inBracket rest)
  | c :: rest =>
    if inBracket then prepend [c] (split (c != ']') rest)
    else if c = '.' then ⟨[], some .step⟩ :: split false rest
    else if c = '>' then ⟨[], some .move⟩ :: split false rest
    else prepend [c] (split (c == '[') rest)

/-- The text of tokens with the separators behind them. -/
def unsplit : List Token → List Char
  | [] => []
  | t :: rest => t.text ++ (t.closedBy.elim [] fun s => [s.symbol]) ++ unsplit rest

theorem unsplit_prepend (front : List Char) (ts : List Token) :
    unsplit (prepend front ts) = front ++ unsplit ts := by
  cases ts <;> simp [prepend, unsplit]

/-- Splitting loses nothing. -/
theorem unsplit_split (inBracket : Bool) (cs : List Char) : unsplit (split inBracket cs) = cs := by
  fun_induction split inBracket cs <;> simp_all [unsplit, unsplit_prepend, Separator.symbol]

end Token

end TreeQuery
