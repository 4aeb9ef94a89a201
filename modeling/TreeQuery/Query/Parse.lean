import TreeQuery.Error
import TreeQuery.Query.Render
import TreeQuery.Query.Token

/-! # Reading the text of a query

The tokens of a text are read from left to right. A token is a run of commands followed by `#`, a bracket,
a name, an index, or nothing if `+` is among the commands. What is met first is refused first: the
commands of a token are checked against those of earlier tokens as they are read, then its body, then the
`>` behind it, and last what the whole token means.

Positions count bytes. They are absolute: each function takes the position of the text it is given. -/

namespace TreeQuery
open Except

/-- The number of bytes of a text. -/
def byteLength : List Char → Nat
  | [] => 0
  | c :: rest => c.utf8Size + byteLength rest

/-- A path has fewer than this many segments. -/
def maxLength : Nat := 255

/-- Brackets may be nested this deep. -/
def maxNesting : Nat := 1

/-- The text that names the dialect, which may stand in front of a query. -/
def dialectPrefix : List Char := "~giraffe1v1.".toList

/-- How brackets are read: the text inside and its position give what the bracket holds. Where there is no
    way to read them they are refused as nested too deep. -/
abbrev BracketReader (σ : Type) := Option (Nat → List Char → Except ParseError σ)

/-! ### Commands -/

/-- The commands that keep `c` from being written after the commands `seen` of earlier tokens and the
    commands `written` of its own. -/
def Command.conflicts (c : Command) (seen written : Commands) : Commands :=
  let all := seen.union written
  match c with
  | .append => all.inter { overwrite := true, delete := true }
  | .make => (written.inter { maybe := true }).union (all.inter { overwrite := true, delete := true })
  | .maybe => all.inter { overwrite := true, make := true }
  | .overwrite => all.inter { maybe := true, append := true, make := true, delete := true }
  | .delete => written

/-- Why `c` cannot be written at a position: it is written already, it is `!` and not in the first token,
    or another command stands in the way. -/
def Command.refusal? (c : Command) (seen written : Commands) (after : Option Separator) (position : Nat) :
    Option ParseError :=
  if written.has c then some (.duplicated c.symbol position)
  else match (if c = .delete then after else none) with
    | some separator => some (.conflicting c.symbol separator.symbol position)
    | none => (c.conflicts seen written).first?.map fun other => .conflicting c.symbol other.symbol position

/-- The commands at the front of a token, the position behind them and the text from there. -/
def readCommands (seen : Commands) (after : Option Separator) (written : Commands) (position : Nat) :
    List Char → Except ParseError (Commands × Nat × List Char)
  | [] => ok (written, position, [])
  | c :: rest =>
    match Command.ofSymbol? c with
    | none => ok (written, position, c :: rest)
    | some command =>
      match command.refusal? seen written after position with
      | some e => error e
      | none => readCommands seen after (written.insert command) (position + 1) rest

/-! ### Bodies -/

/-- What stands behind the commands of a token. -/
inductive Draft (σ : Type) where
  | blank
  | here
  | bracket (raw : List Char) (inner : σ)
  /-- A name, its first character as written and the position of that, and whether any character of it is
      escaped. -/
  | name (text : List Char) (first : Char) (position : Nat) (escaped : Bool)

/-- The characters of a name without the escaping backslashes, and whether there were any. -/
def readName (position : Nat) : List Char → Except ParseError (List Char × Bool)
  | [] => ok ([], false)
  | '\\' :: c :: rest => do
    let (text, _) ← readName (position + 1 + c.utf8Size) rest
    return (c :: text, true)
  | c :: rest =>
    if isReserved c then error (.unexpectedToken c position)
    else do
      let (text, escaped) ← readName (position + c.utf8Size) rest
      return (c :: text, escaped)

/-- The text of a bracket up to the next `]` that is not behind a backslash, and the text behind that. -/
def splitBracket : List Char → Option (List Char × List Char)
  | [] => none
  | '\\' :: c :: rest => (splitBracket rest).map fun (raw, after) => ('\\' :: c :: raw, after)
  | c :: rest => if c = ']' then some ([], rest) else (splitBracket rest).map fun (raw, after) => (c :: raw, after)

/-- Nothing may stand here. -/
def expectEnd (position : Nat) : List Char → Except ParseError Unit
  | [] => ok ()
  | c :: _ => error (.unexpectedToken c position)

variable {σ : Type}

/-- The bracket whose text, after the `[` at a position, is given. -/
def readBracket (reader : BracketReader σ) (written : Commands) (position : Nat) (text : List Char) :
    Except ParseError (Draft σ) :=
  if written.append then error (.conflicting '[' '+' position)
  else match reader with
    | none => error (.tooDeep maxNesting)
    | some read =>
      match splitBracket text with
      | none => error (.unexpectedToken '[' position)
      | some (raw, after) => do
        let inner ← read (position + 1) raw
        expectEnd (position + 1 + byteLength raw + 1) after
        return .bracket raw inner

/-- What stands behind the commands `written` of a token. -/
def readBody (reader : BracketReader σ) (written : Commands) (position : Nat) :
    List Char → Except ParseError (Draft σ)
  | [] => ok .blank
  | c :: rest =>
    if c = '#' then
      match written.first? with
      | some other => error (.conflicting '#' other.symbol position)
      | none => do
        expectEnd (position + 1) rest
        return .here
    else if c = '[' then readBracket reader written position rest
    else do
      let (text, escaped) ← readName position (c :: rest)
      return .name text c position escaped

/-! ### Segments -/

/-- What a token means: an escaped name is never an index, and a blank body is an append if `+` is
    written. `blankAt` is the character and the position that a missing body is reported at. -/
def Draft.body (written : Commands) (blankAt : Char × Nat) : Draft σ → Except ParseError (Body σ)
  | .here => ok .here
  | .bracket raw inner => ok (.bracket raw inner)
  | .blank => if written.append then ok .append else error (.unexpectedToken blankAt.1 blankAt.2)
  | .name text first position escaped =>
    if written.append then error (.unexpectedToken first position)
    else if !escaped && Digits.isDigits text then
      if Digits.value text < 2 ^ 32 then ok (.index text) else error (.indexOverflow (String.ofList text))
    else ok (.field (String.ofList text))

/-- How far a text has been read: the commands of the tokens read so far, their number, whether a `>` is
    among their separators, the separator before the next token, and the position of that token. -/
structure Progress where
  seen : Commands := {}
  count : Nat := 0
  moved : Bool := false
  after : Option Separator := none
  position : Nat

/-- A `>` behind a token with the commands `written` is refused if `!` is written before it, or if it is
    not the first one. -/
def Progress.checkMove (p : Progress) (written : Commands) (t : Token) : Except ParseError Unit :=
  if t.closedBy = some .move then
    if (p.seen.union written).delete then error (.conflicting '>' '!' (p.position + byteLength t.text))
    else if p.moved then error (.unexpectedSegments 3)
    else ok ()
  else ok ()

/-- What a token without a body is reported at: the separator behind it, or its own first character at the
    end of the text. -/
def Progress.blankAt (p : Progress) (t : Token) : Char × Nat :=
  match t.closedBy, t.text with
  | some separator, _ => (separator.symbol, p.position + byteLength t.text)
  | none, c :: _ => (c, p.position)
  | none, [] => (' ', p.position)

/-- A path may have one more segment. -/
def Progress.checkLength (p : Progress) : Except ParseError Unit :=
  if p.count + 1 < maxLength then ok () else error (.tooDeep maxLength)

/-- The progress behind a token with the commands `written` and the separator behind it. -/
def Progress.next (p : Progress) (written : Commands) (t : Token) : Progress where
  seen := p.seen.union written
  count := p.count + 1
  moved := p.moved || t.closedBy == some .move
  after := t.closedBy
  position := p.position + byteLength t.text + 1

/-- The segment that a token spells. -/
def readToken (reader : BracketReader σ) (p : Progress) (t : Token) : Except ParseError (Segment σ) := do
  let (written, position, rest) ← readCommands p.seen p.after {} p.position t.text
  let draft ← readBody reader written position rest
  p.checkMove written t
  let body ← draft.body written (p.blankAt t)
  p.checkLength
  return ⟨written, body, t.closedBy == some .move⟩

/-- Whether a text may end where a token would have to begin: a `.` at the end is allowed. -/
def Progress.checkEnd (p : Progress) : Except ParseError Unit :=
  match p.after with
  | none => error .empty
  | some .step => ok ()
  | some .move => error (.unexpectedToken '>' (p.position - 1))

/-- The path that tokens spell. -/
def readTokens (reader : BracketReader σ) (p : Progress) : List Token → Except ParseError (Path σ)
  | [] => ok []
  | t :: rest =>
    if t = ⟨[], none⟩ then do
      p.checkEnd
      return []
    else do
      let segment ← readToken reader p t
      let path ← readTokens reader (p.next segment.commands t) rest
      return segment :: path

/-- The path that a text at a position spells. -/
def readPath (reader : BracketReader σ) (position : Nat) (text : List Char) : Except ParseError (Path σ) :=
  readTokens reader { position } (Token.split false text)

/-! ### Whole texts -/

/-- A bracket holds a path that has no brackets, does not write and does not move. -/
def readInner (position : Nat) (raw : List Char) : Except ParseError PlainPath := do
  let path ← readPath none position raw
  if Path.writes path || Path.moves path then error (.notWritable (String.ofList raw)) else return path

/-- The path that a text spells, without looking for a dialect. -/
def readOuter (position : Nat) (text : List Char) : Except ParseError (Path PlainPath) :=
  readPath (some readInner) position text

/-- The path that a text spells. The dialect may be written in front. -/
def readSpec (text : List Char) : Except ParseError (Path PlainPath) :=
  if dialectPrefix.isPrefixOf text then
    readOuter (byteLength dialectPrefix) (text.drop dialectPrefix.length)
  else readOuter 0 text

end TreeQuery
