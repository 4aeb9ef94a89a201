import TreeQuery.Proofs.Grammar.Bodies
import TreeQuery.Query.Basic

/-! # Reading further on

Where a text begins in a larger one has no effect on what is read. It moves the positions that refusals name, all by
the same distance (`readPath_add`). Each part of the reader is given a position and hands on positions behind it, so
each one has its own such law. -/

namespace TreeQuery

variable {σ : Type} {reader : BracketReader σ} {seen written : Commands} {after : Option Separator}
  {text : List Char} {position n : Nat} {p : Progress} {t : Token}

/-- The refusal of the same text `n` bytes further on. -/
def ParseError.shift (n : Nat) : ParseError → ParseError
  | duplicated command position => duplicated command (position + n)
  | conflicting command other position => conflicting command other (position + n)
  | unexpectedToken token position => unexpectedToken token (position + n)
  | e => e

/-- Every position that the reader of brackets names moves with the bracket. -/
def BracketReader.Shifts (reader : BracketReader σ) : Prop :=
  ∀ read ∈ reader, ∀ position n raw, read (position + n) raw = (read position raw).mapError (.shift n)

/-! ### One token -/

theorem Command.refusal?_add (c : Command) :
    c.refusal? seen written after (position + n) = (c.refusal? seen written after position).map (.shift n) := by
  unfold Command.refusal?
  split
  · rfl
  · cases (if c = .delete then after else none) with
    | some separator => rfl
    | none => cases (c.conflicts seen written).first? <;> rfl

theorem readCommands_add :
    readCommands seen after written (position + n) text =
      ((readCommands seen after written position text).map fun (c, i, rest) => (c, i + n, rest)).mapError
        (.shift n) := by
  induction text generalizing written position with
  | nil => rfl
  | cons c rest ih =>
    rw [readCommands, readCommands]
    cases Command.ofSymbol? c with
    | none => rfl
    | some command =>
      dsimp only
      rw [Command.refusal?_add]
      cases command.refusal? seen written after position with
      | some e => rfl
      | none =>
        dsimp only [Option.map_none]
        rw [Nat.add_right_comm position n 1, ih]

theorem readName_add : readName (position + n) text = (readName position text).mapError (.shift n) := by
  fun_induction readName position text with
  | case1 => rfl
  | case2 position c rest ih =>
    have hbehind : position + n + 1 + c.utf8Size = position + 1 + c.utf8Size + n := by omega
    rw [readName, hbehind, ih, Outcome.mapError_bind]
    rfl
  | case3 position c rest hc hr =>
    rw [readName.eq_3 _ _ _ hc, if_pos hr]
    rfl
  | case4 position c rest hc hr ih =>
    have hbehind : position + n + c.utf8Size = position + c.utf8Size + n := by omega
    rw [readName.eq_3 _ _ _ hc, if_neg hr, hbehind, ih, Outcome.mapError_bind]
    rfl

theorem expectEnd_add : expectEnd (position + n) text = (expectEnd position text).mapError (.shift n) := by
  cases text <;> rfl

/-- What stands behind the commands of a token that begins `n` bytes further on. -/
def Draft.shift (n : Nat) : Draft σ → Draft σ
  | .name text first position escaped => .name text first (position + n) escaped
  | .blank => .blank
  | .here => .here
  | .bracket raw inner => .bracket raw inner

theorem readBracket_add (hr : reader.Shifts) :
    readBracket reader written (position + n) text =
      ((readBracket reader written position text).map (.shift n)).mapError (.shift n) := by
  unfold readBracket
  split
  · rfl
  · cases reader with
    | none => rfl
    | some read =>
      cases splitBracket text with
      | none => rfl
      | some parts =>
        obtain ⟨raw, behind⟩ := parts
        have hread : read (position + 1 + n) raw = (read (position + 1) raw).mapError (.shift n) :=
          hr read rfl (position + 1) n raw
        have hbehind : position + 1 + n + byteLength raw + 1 = position + 1 + byteLength raw + 1 + n := by omega
        dsimp only
        rw [Nat.add_right_comm position n 1, hread, hbehind, expectEnd_add]
        cases read (position + 1) raw with
        | error e => rfl
        | ok inner => cases expectEnd (position + 1 + byteLength raw + 1) behind <;> rfl

theorem readBody_add (hr : reader.Shifts) :
    readBody reader written (position + n) text =
      ((readBody reader written position text).map (.shift n)).mapError (.shift n) := by
  cases text with
  | nil => rfl
  | cons c rest =>
    rw [readBody, readBody]
    split
    · cases written.first? with
      | some other => rfl
      | none =>
        dsimp only
        rw [Nat.add_right_comm position n 1, expectEnd_add]
        cases expectEnd (position + 1) rest <;> rfl
    · split
      · exact readBracket_add hr
      · rw [readName_add]
        cases readName position (c :: rest) <;> rfl

theorem Draft.body_shift (draft : Draft σ) (blankAt : Char × Nat) :
    (draft.shift n).body written (blankAt.1, blankAt.2 + n) = (draft.body written blankAt).mapError (.shift n) := by
  cases draft with
  | here | bracket => rfl
  | blank =>
    rw [Draft.shift, Draft.body, Draft.body]
    split <;> rfl
  | name text first position escaped =>
    rw [Draft.shift, Draft.body, Draft.body]
    split
    · rfl
    · split
      · split <;> rfl
      · rfl

/-! ### All tokens -/

/-- The same progress in a text that begins `n` bytes further on. -/
def Progress.shift (n : Nat) (p : Progress) : Progress := { p with position := p.position + n }

namespace Progress

theorem next_shift : (p.shift n).next written t = (p.next written t).shift n := by
  have hposition : p.position + n + byteLength t.text + 1 = p.position + byteLength t.text + 1 + n := by omega
  rw [next, shift, hposition]
  rfl

theorem blankAt_shift : (p.shift n).blankAt t = ((p.blankAt t).1, (p.blankAt t).2 + n) := by
  obtain ⟨text, closedBy⟩ := t
  cases closedBy with
  | some separator => exact congrArg (Prod.mk separator.symbol) (Nat.add_right_comm p.position n (byteLength text))
  | none => cases text <;> rfl

theorem checkMove_shift : (p.shift n).checkMove written t = (p.checkMove written t).mapError (.shift n) := by
  have hshift : (p.shift n).checkMove written t =
      if t.closedBy = some .move then
        if (p.seen.union written).delete then .error (.conflicting '>' '!' (p.position + n + byteLength t.text))
        else if p.moved then .error (.unexpectedSegments 3)
        else .ok ()
      else .ok () := rfl
  rw [hshift, checkMove, Nat.add_right_comm p.position n (byteLength t.text)]
  split
  · split
    · rfl
    · split <;> rfl
  · rfl

theorem checkLength_shift : (p.shift n).checkLength = p.checkLength.mapError (.shift n) := by
  have hshift : (p.shift n).checkLength = p.checkLength := rfl
  rw [hshift, checkLength]
  split <;> rfl

/-- The separator before the next token takes up a byte. -/
def Started (p : Progress) : Prop := p.after ≠ none → 0 < p.position

theorem started_next : (p.next written t).Started := fun _ => Nat.succ_pos _

theorem checkEnd_shift (hp : p.Started) : (p.shift n).checkEnd = p.checkEnd.mapError (.shift n) := by
  obtain ⟨seen, count, moved, after, position⟩ := p
  cases after with
  | none => rfl
  | some separator =>
    cases separator with
    | step => rfl
    | move =>
      have hpos : 0 < position := hp nofun
      have hback : position + n - 1 = position - 1 + n := by omega
      exact congrArg (fun i => Except.error (ParseError.unexpectedToken '>' i)) hback

end Progress

theorem readToken_shift (hr : reader.Shifts) :
    readToken reader (p.shift n) t = (readToken reader p t).mapError (.shift n) := by
  -- The parts in their order: each hands on its result with the position moved, or fails with its error moved.
  have hcommands : readCommands (p.shift n).seen (p.shift n).after {} (p.shift n).position t.text =
      ((readCommands p.seen p.after {} p.position t.text).map fun (c, i, rest) => (c, i + n, rest)).mapError
        (.shift n) := readCommands_add
  rw [readToken, readToken, hcommands]
  cases readCommands p.seen p.after {} p.position t.text with
  | error e => rfl
  | ok run =>
    obtain ⟨written, position, rest⟩ := run
    rw [Outcome.ok_bind]
    dsimp only [Except.map, Except.mapError]
    rw [Outcome.ok_bind, readBody_add hr]
    cases readBody reader written position rest with
    | error e => rfl
    | ok draft =>
      rw [Outcome.ok_bind]
      dsimp only [Except.map, Except.mapError]
      rw [Outcome.ok_bind, Progress.checkMove_shift, Progress.blankAt_shift, Draft.body_shift,
        Progress.checkLength_shift]
      cases p.checkMove written t with
      | error e => rfl
      | ok _ =>
        cases draft.body written (p.blankAt t) with
        | error e => rfl
        | ok body => cases p.checkLength <;> rfl

theorem readTokens_shift (hr : reader.Shifts) (hp : p.Started) (ts : List Token) :
    readTokens reader (p.shift n) ts = (readTokens reader p ts).mapError (.shift n) := by
  induction ts generalizing p with
  | nil => rfl
  | cons t ts ih =>
    rw [readTokens, readTokens]
    split
    · rw [Progress.checkEnd_shift hp]
      cases p.checkEnd <;> rfl
    · rw [readToken_shift hr]
      cases readToken reader p t with
      | error e => rfl
      | ok s =>
        have hstarted : (p.next s.commands t).Started := Progress.started_next
        have hrest := ih hstarted
        dsimp only [Except.mapError]
        rw [Outcome.ok_bind, Outcome.ok_bind, Progress.next_shift, hrest]
        cases readTokens reader (p.next s.commands t) ts <;> rfl

/-! ### Whole texts -/

theorem readPath_add (hr : reader.Shifts) :
    readPath reader (position + n) text = (readPath reader position text).mapError (.shift n) :=
  readTokens_shift (p := { position }) hr (fun h => absurd rfl h) (Token.split false text)

theorem shifts_none : BracketReader.Shifts (none : BracketReader σ) := nofun

theorem shifts_readInner : BracketReader.Shifts (some readInner) := by
  rintro _ ⟨⟩ position n raw
  rw [readInner, readInner, readPath_add shifts_none]
  cases readPath none position raw with
  | error e => rfl
  | ok path =>
    have hread : (Except.ok path : Except ParseError PlainPath).mapError (ParseError.shift n) = .ok path := rfl
    rw [hread, Outcome.ok_bind]
    split <;> rfl

theorem readOuter_add : readOuter (position + n) text = (readOuter position text).mapError (.shift n) :=
  readPath_add shifts_readInner

namespace Query

theorem ofReading_mapError (reading : Except ParseError (Path PlainPath)) :
    ofReading (reading.mapError (ParseError.shift n)) = (ofReading reading).mapError (.shift n) := by
  cases reading with
  | error e => rfl
  | ok path =>
    have hread : (Except.ok path).mapError (ParseError.shift n) = .ok path := rfl
    rw [hread, ofReading, Outcome.ok_bind]
    cases ofPath? path <;> rfl

theorem parseAt_add (offset n depth : Nat) (text : String) :
    parseAt (offset + n) depth text = (parseAt offset depth text).mapError (.shift n) := by
  unfold parseAt
  split
  · rw [readOuter_add, ofReading_mapError]
  · rw [readPath_add shifts_none, ← ofReading_mapError]
    cases readPath none offset text.toList <;> rfl

/-- Behind the dialect a text is read as it is where no dialect is looked for. -/
theorem parse_dialect (text : String) :
    parse (String.ofList dialectPrefix ++ text) = (parseAt 0 0 text).mapError (ParseError.shift 12) := by
  have hprefix : dialectPrefix.isPrefixOf (dialectPrefix ++ text.toList) = true :=
    List.isPrefixOf_iff_prefix.mpr (List.prefix_append _ _)
  have hlength : byteLength dialectPrefix = 0 + 12 := rfl
  rw [parse, String.toList_append, String.toList_ofList, readSpec, if_pos hprefix, List.drop_left, hlength,
    readOuter_add, ofReading_mapError]
  rfl

end Query

end TreeQuery
