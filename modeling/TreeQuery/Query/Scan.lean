import TreeQuery.Proofs.Outcome
import TreeQuery.Query.Basic
import TreeQuery.Query.Flags
import TreeQuery.Text.Bytes

/-! # Scanning the bytes of a query

A query is read here as `Query.parseAt` reads it, but from the bytes of its text and in one pass. All characters with a
meaning are ASCII, so a byte is enough to tell them apart, and no character is decoded before its token ends. A
backslash takes the one byte behind it, and the search for the end of a bracket passes over that byte too, whatever
character it belongs to.

So nothing in these definitions makes sure that a place is one where a character begins. Where that would matter, what
happens otherwise is spelled out: bytes that are no characters are replaced when a name is decoded, a refusal that
names a character names the replacement, and a slice that cuts through a character is a fault of its own. -/

namespace TreeQuery.Scan
open Except

/-- Why a scan gives nothing. -/
inductive Fault where
  /-- A slice was taken between places that are out of order or within a character. -/
  | badSlice (start stop : Nat)
  | refused (e : ParseError)
deriving DecidableEq, Repr

/-- Why a scan stops. -/
inductive Stop where
  /-- The character that begins at a place is refused. -/
  | unexpected (place : Nat)
  | fault (f : Fault)
deriving DecidableEq, Repr

/-- What a token holds. -/
inductive Held (σ : Type) where
  /-- The bytes collected for it, if any. -/
  | text
  | here
  | bracket (raw : String) (inner : σ)

/-- A token as far as it has been read. -/
structure OpenToken (σ : Type) where
  /-- The bytes of a name, without the escaping backslashes. -/
  bytes : List UInt8 := []
  /-- Whether a backslash is among what was read. -/
  escaped : Bool := false
  commands : Commands := {}
  held : Held σ := .text
  /-- The place of the token. -/
  start : Nat := 0
  /-- The place of its name. -/
  textStart : Nat := 0

/-- A scan as far as it has come: the place of the next byte, the token being read, and what is known of the tokens
    that are closed. -/
structure State (σ : Type) where
  place : Nat := 0
  token : OpenToken σ := {}
  segments : Path σ := []
  flags : List Flags := []
  seen : Commands := {}
  moves : Nat := 0
  /-- The separator before the token, and its place. -/
  last : Option (Separator × Nat) := none

/-- A text that begins `offset` bytes into a larger one, and the way to read the brackets in it, if there is one. -/
structure Scanner (σ : Type) where
  text : String
  offset : Nat
  reader : Option (Nat → String → Except Fault σ)

variable {σ : Type}

/-! ### Tokens -/

namespace OpenToken

/-- Whether a name has begun. -/
def started (t : OpenToken σ) : Bool := !t.bytes.isEmpty || t.escaped

/-- Whether the token can only be closed. -/
def finalized (t : OpenToken σ) : Bool :=
  match t.held with
  | .text => false
  | .here | .bracket _ _ => true

def isBlank (t : OpenToken σ) : Bool := !t.started && !t.finalized && t.commands == {}

/-- The token with a byte of its name, which was found at a place. -/
def push (t : OpenToken σ) (b : UInt8) (place : Nat) : OpenToken σ :=
  { t with bytes := t.bytes ++ [b], textStart := if t.started then t.textStart else place }

end OpenToken

/-- The place of the next `]` that is not behind a backslash. -/
def bracketEnd? (text : String) (place : Nat) : Option Nat :=
  match h : byteAt? text place with
  | none => none
  | some b =>
    -- The byte behind a backslash is not looked at, and there may be none.
    if Char.ofUInt8 b = '\\' then bracketEnd? text (place + 2)
    else if Char.ofUInt8 b = ']' then some place
    else bracketEnd? text (place + 1)
termination_by text.utf8ByteSize - place
decreasing_by
  all_goals
    have hlt := lt_of_byteAt? h
    omega

theorem le_of_bracketEnd? {text : String} {place stop : Nat} (h : bracketEnd? text place = some stop) :
    place ≤ stop := by
  fun_induction bracketEnd? text place with
  | case1 => cases h
  | case2 place _ _ _ ih => exact Nat.le_of_add_right_le (ih h)
  | case3 => exact Nat.le_of_eq (Option.some.inj h)
  | case4 place _ _ _ _ ih => exact Nat.le_of_succ_le (ih h)

/-- The list with its last element changed. -/
def modifyLast {α : Type} (f : α → α) (xs : List α) : List α := xs.modify (xs.length - 1) f

/-- The flags of the node that a token becomes at a place of a path. -/
def closedFlags (commands : Commands) (body : Body σ) (seq : Nat) : Flags :=
  let flags := Flags.new body.isArray (.ofCommands commands body.isHere) body.value seq
  if body.isBracket then flags.insert { dynamic := true } else flags

namespace State

/-- The state behind the open token, which selects `body`. -/
def closed (st : State σ) (body : Body σ) : State σ :=
  { st with
    token := {}
    segments := st.segments ++ [⟨st.token.commands, body, false⟩]
    flags := st.flags ++ [closedFlags st.token.commands body st.segments.length]
    seen := st.seen.union st.token.commands }

/-- The state with a `>` behind the last token that is closed. -/
def marked (st : State σ) : State σ :=
  { st with
    segments := modifyLast (fun s => { s with marker := true }) st.segments
    flags := modifyLast (fun f => f.insert { marker := true }) st.flags
    moves := st.moves + 1 }

end State

/-- Stops with a refusal that does not name the character at a place. -/
def refuse {α : Type} (e : ParseError) : Except Stop α := error (.fault (.refused e))

namespace Scanner

variable (sc : Scanner σ)

/-- What the open token selects when it is closed at a place. -/
def body (t : OpenToken σ) (place : Nat) : Except Stop (Body σ) :=
  match t.held with
  | .here => ok .here
  | .bracket raw inner => ok (.bracket raw.toList inner)
  | .text =>
    if t.commands.append then
      if t.started then error (.unexpected t.textStart) else ok .append
    else if !t.started then
      -- At the end of the text there is no separator to name.
      error (.unexpected (if place < sc.text.utf8ByteSize then place else t.start))
    else
      let name := decodeLossy t.bytes
      if !t.escaped && Digits.isDigits name then
        if Digits.value name < 2 ^ 32 then ok (.index name) else refuse (.indexOverflow (String.ofList name))
      else ok (.field (String.ofList name))

def close (st : State σ) (place : Nat) : Except Stop (State σ) := do
  let body ← sc.body st.token place
  if st.segments.length + 1 < maxLength then return st.closed body else refuse (.tooDeep maxLength)

/-! ### One byte

Each of these functions is for one byte, or for those without a meaning of their own (`readPlain`). The state that it is
given is already behind the byte, which is at `place`. -/

def readEscaped (st : State σ) (place : Nat) : Except Stop (State σ) :=
  if st.token.finalized then error (.unexpected place)
  else match byteAt? sc.text st.place with
    | none => error (.unexpected place)
    -- One byte is taken, which may be the first of several of a character.
    | some next => ok { st with place := st.place + 1, token := { st.token.push next place with escaped := true } }

def readStep (st : State σ) (place : Nat) : Except Stop (State σ) := do
  let st ← sc.close st place
  return { st with last := some (.step, place) }

def readMove (st : State σ) (place : Nat) : Except Stop (State σ) :=
  if (st.seen.union st.token.commands).delete then refuse (.conflicting '>' '!' (sc.offset + place))
  else if st.moves + 1 > 1 then refuse (.unexpectedSegments (st.moves + 1 + 1))
  else do
    let st ← sc.close st place
    return { st.marked with last := some (.move, place) }

def readHere (st : State σ) (place : Nat) : Except Stop (State σ) :=
  if st.token.started || st.token.finalized then error (.unexpected place)
  else match st.token.commands.first? with
    | some other => refuse (.conflicting '#' other.symbol (sc.offset + place))
    | none => ok { st with token := { st.token with held := .here } }

def readCommand (st : State σ) (c : Command) (place : Nat) : Except Stop (State σ) :=
  if st.token.started || st.token.finalized then error (.unexpected place)
  else match c.refusal? st.seen st.token.commands (st.last.map Prod.fst) (sc.offset + place) with
    | some e => refuse e
    | none => ok { st with token := { st.token with commands := st.token.commands.insert c } }

def readBracket (st : State σ) (place : Nat) : Except Stop (State σ) :=
  if st.token.started || st.token.finalized then error (.unexpected place)
  else if st.token.commands.append then refuse (.conflicting '[' '+' (sc.offset + place))
  else match sc.reader with
    | none => refuse (.tooDeep maxNesting)
    | some read =>
      match bracketEnd? sc.text st.place with
      | none => error (.unexpected place)
      | some stop =>
        match slice? sc.text st.place stop with
        | none => error (.fault (.badSlice st.place stop))
        | some raw => do
          let inner ← (read (sc.offset + st.place) raw).mapError .fault
          return { st with place := stop + 1, token := { st.token with held := .bracket raw inner } }

def readPlain (st : State σ) (b : UInt8) (place : Nat) : Except Stop (State σ) :=
  if st.token.finalized then error (.unexpected place) else ok { st with token := st.token.push b place }

/-- The state behind the next byte; a token that begins there has its place. -/
def advance (st : State σ) : State σ :=
  { st with
    place := st.place + 1
    token := if st.token.isBlank then { st.token with start := st.place } else st.token }

/-- Reads the next byte, and what it takes with it. -/
def step (st : State σ) (b : UInt8) : Except Stop (State σ) :=
  let next := advance st
  let c := Char.ofUInt8 b
  if c = '\\' then sc.readEscaped next st.place
  else if c = '.' then sc.readStep next st.place
  else if c = '>' then sc.readMove next st.place
  else if c = '#' then sc.readHere next st.place
  else if c = '[' then sc.readBracket next st.place
  else if c = ']' ∨ c = '@' ∨ c = '~' then error (.unexpected st.place)
  else match Command.ofSymbol? c with
    | some command => sc.readCommand next command st.place
    | none => readPlain next b st.place

/-! ### What a step does -/

/-- What a step makes of a state: it goes on with the open token, or it closes that. -/
inductive Next (st : State σ) : State σ → Prop
  | on (token : OpenToken σ) {place : Nat} (h : st.place < place) : Next st { st with place := place, token := token }
  | step {body : Body σ} (h : sc.body (advance st).token st.place = ok body) :
    Next st { (advance st).closed body with last := some (.step, st.place) }
  | move {body : Body σ} (h : sc.body (advance st).token st.place = ok body) :
    Next st { ((advance st).closed body).marked with last := some (.move, st.place) }

section
variable {sc} {st next : State σ} {b : UInt8} {c : Command} {place : Nat}

theorem close_ok (h : sc.close st place = ok next) :
    ∃ body, sc.body st.token place = ok body ∧ next = st.closed body := by
  obtain ⟨body, hbody, h⟩ := Outcome.bind_ok_iff.mp h
  split at h
  · exact ⟨body, hbody, (Except.ok.inj h).symm⟩
  · cases h

theorem readEscaped_ok (h : sc.readEscaped st place = ok next) :
    ∃ token, next = { st with place := st.place + 1, token := token } := by
  unfold readEscaped at h
  split at h
  · cases h
  · split at h <;> cases h
    exact ⟨_, rfl⟩

theorem readStep_ok (h : sc.readStep st place = ok next) :
    ∃ body, sc.body st.token place = ok body ∧ next = { st.closed body with last := some (.step, place) } := by
  obtain ⟨closed, hclose, h⟩ := Outcome.bind_ok_iff.mp h
  obtain ⟨body, hbody, rfl⟩ := close_ok hclose
  exact ⟨body, hbody, (Except.ok.inj h).symm⟩

theorem readMove_ok (h : sc.readMove st place = ok next) :
    ∃ body, sc.body st.token place = ok body ∧ next = { (st.closed body).marked with last := some (.move, place) } := by
  unfold readMove at h
  split at h
  · cases h
  · split at h
    · cases h
    · obtain ⟨closed, hclose, h⟩ := Outcome.bind_ok_iff.mp h
      obtain ⟨body, hbody, rfl⟩ := close_ok hclose
      exact ⟨body, hbody, (Except.ok.inj h).symm⟩

theorem readHere_ok (h : sc.readHere st place = ok next) : ∃ token, next = { st with token := token } := by
  unfold readHere at h
  split at h
  · cases h
  · split at h <;> cases h
    exact ⟨_, rfl⟩

theorem readCommand_ok (h : sc.readCommand st c place = ok next) : ∃ token, next = { st with token := token } := by
  unfold readCommand at h
  split at h
  · cases h
  · split at h <;> cases h
    exact ⟨_, rfl⟩

theorem readBracket_ok (h : sc.readBracket st place = ok next) :
    ∃ token stop, st.place ≤ stop ∧ next = { st with place := stop + 1, token := token } := by
  unfold readBracket at h
  split at h
  · cases h
  split at h
  · cases h
  split at h
  · cases h
  split at h
  · cases h
  · rename_i stop hstop
    split at h
    · cases h
    · obtain ⟨inner, -, h⟩ := Outcome.bind_ok_iff.mp h
      exact ⟨_, stop, le_of_bracketEnd? hstop, (Except.ok.inj h).symm⟩

theorem readPlain_ok (h : readPlain st b place = ok next) : ∃ token, next = { st with token := token } := by
  unfold readPlain at h
  split at h <;> cases h
  exact ⟨_, rfl⟩

theorem next_of_step (h : sc.step st b = ok next) : sc.Next st next := by
  have hbehind : st.place < st.place + 1 := Nat.lt_succ_self st.place
  unfold step at h
  dsimp only at h
  split at h
  · obtain ⟨token, rfl⟩ := readEscaped_ok h
    exact .on token (Nat.lt_succ_of_lt hbehind)
  split at h
  · obtain ⟨body, hbody, rfl⟩ := readStep_ok h
    exact .step hbody
  split at h
  · obtain ⟨body, hbody, rfl⟩ := readMove_ok h
    exact .move hbody
  split at h
  · obtain ⟨token, rfl⟩ := readHere_ok h
    exact .on token hbehind
  split at h
  · obtain ⟨token, stop, hstop, rfl⟩ := readBracket_ok h
    exact .on token (Nat.lt_succ_of_lt hstop)
  split at h
  · cases h
  split at h
  · obtain ⟨token, rfl⟩ := readCommand_ok h
    exact .on token hbehind
  · obtain ⟨token, rfl⟩ := readPlain_ok h
    exact .on token hbehind

/-- A byte that is read is left behind. -/
theorem lt_of_step (h : sc.step st b = ok next) : st.place < next.place := by
  cases next_of_step h with
  | on _ hplace => exact hplace
  | step | move => exact Nat.lt_succ_self st.place

end

/-! ### Whole texts -/

/-- The state behind all tokens, of which there are some, with one `>` behind them at most. -/
def conclude (st : State σ) : Except Stop (State σ) :=
  let parts := if st.moves = 0 then 0 else st.moves + 1
  if st.segments.isEmpty then refuse .empty
  else if parts ≠ 0 ∧ parts ≠ 2 then refuse (.unexpectedSegments parts)
  else ok st

/-- The state behind all tokens, from one in which no byte is left. -/
def finish (st : State σ) : Except Stop (State σ) :=
  if st.token.isBlank then
    match st.last with
    | some (.step, _) => conclude st
    | some (.move, place) => error (.unexpected place)
    | none => refuse .empty
  else do
    let st ← sc.close st sc.text.utf8ByteSize
    conclude st

/-- The state behind all tokens, from any state on. -/
def run (st : State σ) : Except Stop (State σ) :=
  match _ : byteAt? sc.text st.place with
  | none => sc.finish st
  | some b =>
    match _ : sc.step st b with
    | error stop => error stop
    | ok next => run next
termination_by sc.text.utf8ByteSize - st.place
decreasing_by exact Nat.sub_lt_sub_left (lt_of_byteAt? ‹_›) (lt_of_step ‹_›)

/-- The states that a scan comes to. -/
inductive Reached : State σ → Prop where
  | start : Reached {}
  | step {st next : State σ} {b : UInt8} (h : Reached st) (hb : byteAt? sc.text st.place = some b)
    (hs : sc.step st b = ok next) : Reached next

/-- A refusal names the character that begins at the place, or the replacement if none does. -/
def fault : Stop → Fault
  | .unexpected place =>
    .refused (.unexpectedToken ((String.Pos.Raw.get? sc.text ⟨place⟩).getD replacement) (sc.offset + place))
  | .fault f => f

/-- The state behind all tokens of the text. -/
def readAll : Except Fault (State σ) :=
  if sc.text.isEmpty then error (.refused .empty) else (sc.run {}).mapError sc.fault

/-- The path that the text spells. -/
def scan : Except Fault (Path σ) := sc.readAll.map State.segments

/-- The flags of the nodes of that path. -/
def flags : Except Fault (List Flags) := sc.readAll.map fun st => Flags.finalize st.seen st.moves st.flags

end Scanner

/-- What brackets hold at a depth of brackets: nothing, except at the top. -/
def Inside : Nat → Type
  | 0 => PlainPath
  | _ + 1 => Empty

/-- Scans a text in which no bracket may stand. -/
def plainScanner (offset : Nat) (text : String) : Scanner Empty := ⟨text, offset, none⟩

/-- A bracket holds a path that has no brackets, does not write and does not move. -/
def readInside (offset : Nat) (raw : String) : Except Fault PlainPath := do
  let path ← (plainScanner offset raw).scan
  if Path.writes path || Path.moves path then error (.refused (.notWritable raw)) else return path

/-- Scans a text that begins `offset` bytes into a larger one, at a depth of brackets. -/
def scannerAt (offset : Nat) (text : String) : (depth : Nat) → Scanner (Inside depth)
  | 0 => ⟨text, offset, some readInside⟩
  | _ + 1 => plainScanner offset text

/-- A path that was read at a depth of brackets, seen as one that may have some. -/
def Inside.lift : (depth : Nat) → Path (Inside depth) → Path PlainPath
  | 0, p => p
  | _ + 1, p => Path.ofPlain p

/-- The flags of the nodes of a text that begins `offset` bytes into a larger one, at a depth of brackets. -/
def flagsAt (offset depth : Nat) (text : String) : Except Fault (List Flags) := (scannerAt offset text depth).flags

/-- The query that a text spells which begins `offset` bytes into a larger one, at a depth of brackets. -/
def parseAt (offset depth : Nat) (text : String) : Except Fault Query := do
  let path ← (scannerAt offset text depth).scan
  match Query.ofPath? (Inside.lift depth path) with
  | some q => return q
  | none => error (.refused .empty)

end TreeQuery.Scan
