import TreeQuery.Proofs.Grammar.Display

/-! # Reading on within a token

`readToken` reads a token at once. Here it is read in parts: `readOn` reads on behind a part of which the commands and
the draft are known, and `PartWay` says that a part of a token has come to these. A part grows by a command, `#`, a
bracket or a character of a name (`PartWay.extend` with the `readOn_*`), it is refused whatever stands behind it
(`PartWay.fails`), or its token is closed (`PartWay.closes`, `PartWay.ends`). -/

namespace TreeQuery
open Except

variable {σ : Type} {reader : BracketReader σ} {seen written : Commands} {after : Option Separator} {position : Nat}
  {draft : Draft σ} {front more rest : List Char} {c : Char} {p : Progress} {e : ParseError}

/-- The commands and the draft of a token, of which the part before a position gave the commands `written` and a
    draft. -/
def readOn (reader : BracketReader σ) (seen : Commands) (after : Option Separator) (written : Commands)
    (position : Nat) : Draft σ → List Char → Except ParseError (Commands × Draft σ)
  | .blank, text => do
    let (written, position, rest) ← readCommands seen after written position text
    let draft ← readBody reader written position rest
    return (written, draft)
  | .name name first i escaped, text => do
    let (more, escaped') ← readName position text
    return (written, .name (name ++ more) first i (escaped || escaped'))
  | .here, text => do
    expectEnd position text
    return (written, .here)
  | .bracket raw inner, text => do
    expectEnd position text
    return (written, .bracket raw inner)

theorem readToken_eq_readOn (reader : BracketReader σ) (p : Progress) (t : Token) :
    readToken reader p t = (do
      let (written, draft) ← readOn reader p.seen p.after {} p.position .blank t.text
      p.checkMove written t
      let body ← draft.body written (p.blankAt t)
      p.checkLength
      return ⟨written, body, t.closedBy == some .move⟩) := by
  rw [readToken, readOn]
  cases readCommands p.seen p.after {} p.position t.text with
  | error e => rfl
  | ok parts =>
    obtain ⟨written, position, rest⟩ := parts
    dsimp only [bind, Except.bind]
    cases readBody reader written position rest <;> rfl

theorem readOn_nil : readOn reader seen after written position draft [] = ok (written, draft) := by
  cases draft with
  | blank | here | bracket => rfl
  | name name first i escaped =>
    show ok (written, Draft.name (name ++ []) first i (escaped || false)) = _
    rw [List.append_nil, Bool.or_false]

/-! ### One character more -/

theorem readOn_command (d : Command) :
    readOn reader seen after written position .blank (d.symbol :: more) =
      match d.refusal? seen written after position with
      | some e => error e
      | none => readOn reader seen after (written.insert d) (position + 1) .blank more := by
  rw [readOn, readCommands, Command.ofSymbol?_symbol]
  dsimp only
  cases d.refusal? seen written after position <;> rfl

theorem readOn_body (hc : Command.ofSymbol? c = none) :
    readOn reader seen after written position .blank (c :: more) =
      (readBody reader written position (c :: more)).map fun draft => (written, draft) := by
  rw [readOn, readCommands, hc]
  rfl

theorem readOn_here :
    readOn reader seen after written position .blank ('#' :: more) =
      match written.first? with
      | some other => error (.conflicting '#' other.symbol position)
      | none => readOn reader seen after written (position + 1) .here more := by
  rw [readOn_body rfl, readBody, if_pos rfl]
  cases written.first? with
  | some other => rfl
  | none => cases more <;> rfl

theorem readOn_bracket :
    readOn reader seen after written position .blank ('[' :: more) =
      (readBracket reader written position more).map fun draft => (written, draft) := readOn_body rfl

theorem readOn_bracket_append (ha : written.append = true) :
    readOn reader seen after written position .blank ('[' :: more) = error (.conflicting '[' '+' position) := by
  rw [readOn_bracket]
  unfold readBracket
  rw [if_pos ha]
  rfl

section
variable (ha : written.append = false)
include ha

theorem readOn_bracket_none :
    readOn (none : BracketReader σ) seen after written position .blank ('[' :: more) = error (.tooDeep maxNesting) := by
  rw [readOn_bracket, readBracket, ha]
  rfl

variable {read : Nat → List Char → Except ParseError σ}

theorem readOn_bracket_of_split_none (hs : splitBracket more = none) :
    readOn (some read) seen after written position .blank ('[' :: more) = error (.unexpectedToken '[' position) := by
  rw [readOn_bracket, readBracket, ha, hs]
  rfl

/-- A bracket that ends is read, and then nothing may follow. -/
theorem readOn_bracket_of_split {raw : List Char} (hs : splitBracket (raw ++ ']' :: more) = some (raw, more)) :
    readOn (some read) seen after written position .blank ('[' :: (raw ++ ']' :: more)) =
      read (position + 1) raw >>= fun inner =>
        readOn (some read) seen after written (position + (1 + byteLength raw + 1)) (.bracket raw inner) more := by
  rw [readOn_bracket, readBracket, ha, hs, ← Nat.add_assoc, ← Nat.add_assoc]
  dsimp only
  cases read (position + 1) raw with
  | error e => rfl
  | ok inner => cases more <;> rfl

end

/-- A name begins with the character that nothing else begins with. -/
theorem readOn_first (hc : Command.ofSymbol? c = none) (h : c ≠ '#') (h' : c ≠ '[') :
    readOn reader seen after written position .blank (c :: more) =
      readOn reader seen after written position (.name [] c position false) (c :: more) := by
  rw [readOn_body hc, readBody, if_neg h, if_neg h', readOn]
  cases readName position (c :: more) <;> rfl

section
variable {name : List Char} {first : Char} {i : Nat} {escaped : Bool}

theorem readOn_plain (hc : isReserved c = false) :
    readOn reader seen after written position (.name name first i escaped) (c :: more) =
      readOn reader seen after written (position + c.utf8Size) (.name (name ++ [c]) first i escaped) more := by
  have hne : c ≠ '\\' := by rintro rfl; simp [isReserved] at hc
  rw [readOn, readOn, readName.eq_3 _ _ _ fun d rest h => absurd h hne, if_neg (by simp [hc])]
  cases readName (position + c.utf8Size) more with
  | error e => rfl
  | ok parts =>
    show ok (written, Draft.name (name ++ c :: parts.1) first i (escaped || parts.2)) = _
    rw [List.append_cons]
    rfl

theorem readOn_escaped :
    readOn reader seen after written position (.name name first i escaped) ('\\' :: c :: more) =
      readOn reader seen after written (position + 1 + c.utf8Size) (.name (name ++ [c]) first i true) more := by
  rw [readOn, readOn, readName]
  cases readName (position + 1 + c.utf8Size) more with
  | error e => rfl
  | ok parts =>
    show ok (written, Draft.name (name ++ c :: parts.1) first i (escaped || true)) = _
    rw [List.append_cons, Bool.or_true]
    rfl

theorem readOn_reserved (hc : isReserved c = true) (hne : c ≠ '\\') :
    readOn reader seen after written position (.name name first i escaped) (c :: more) =
      error (.unexpectedToken c position) := by
  rw [readOn, readName.eq_3 _ _ _ fun d rest h => absurd h hne, if_pos hc]
  rfl

end

/-! ### Characters of a name -/

/-- What a token of which `draft` is read gives with one more character of a name, which is escaped or not and written
    from `first` on. -/
def Draft.add (draft : Draft σ) (first : Char) (position : Nat) (c : Char) (escaped : Bool) : Draft σ :=
  match draft with
  | .blank => .name [c] first position escaped
  | .name text first' position' escaped' => .name (text ++ [c]) first' position' (escaped' || escaped)
  | .here => .here
  | .bracket raw inner => .bracket raw inner

/-- Whether a draft may go on as a name. -/
def Draft.isOpen : Draft σ → Bool
  | .blank | .name .. => true
  | .here | .bracket .. => false

theorem readOn_add (ho : draft.isOpen = true) (hc : isReserved c = false) :
    readOn reader seen after written position draft (c :: more) =
      readOn reader seen after written (position + c.utf8Size) (draft.add c position c false) more := by
  cases draft with
  | blank =>
    rw [readOn_first (ofSymbol?_of_not_reserved hc), readOn_plain hc]
    · rfl
    all_goals
      rintro rfl
      simp [isReserved] at hc
  | name text first i escaped => rw [readOn_plain hc, Draft.add, Bool.or_false]
  | here | bracket => cases ho

theorem readOn_add_escaped (ho : draft.isOpen = true) :
    readOn reader seen after written position draft ('\\' :: c :: more) =
      readOn reader seen after written (position + byteLength ['\\', c]) (draft.add '\\' position c true) more := by
  have hposition : position + byteLength ['\\', c] = position + 1 + c.utf8Size :=
    (Nat.add_assoc position 1 c.utf8Size).symm
  rw [hposition]
  cases draft with
  | blank =>
    rw [readOn_first rfl (by decide) (by decide), readOn_escaped]
    rfl
  | name text first i escaped => rw [readOn_escaped, Draft.add, Bool.or_true]
  | here | bracket => cases ho

theorem readOn_backslash (ho : draft.isOpen = true) :
    readOn reader seen after written position draft ['\\'] = error (.unexpectedToken '\\' position) := by
  cases draft with
  | blank | name => rfl
  | here | bracket => cases ho

/-! ### Refusals -/

theorem readOn_closed (ho : draft.isOpen = false) :
    readOn reader seen after written position draft (c :: more) = error (.unexpectedToken c position) := by
  cases draft with
  | blank | name => cases ho
  | here | bracket => rfl

theorem readOn_begun (hd : draft ≠ .blank) (hc : isReserved c = true) (hne : c ≠ '\\') :
    readOn reader seen after written position draft (c :: more) = error (.unexpectedToken c position) := by
  cases draft with
  | blank => exact absurd rfl hd
  | name => exact readOn_reserved hc hne
  | here | bracket => rfl

theorem readOn_stray (hc : c = ']' ∨ c = '@' ∨ c = '~') :
    readOn reader seen after written position draft (c :: more) = error (.unexpectedToken c position) := by
  have hne : c ≠ '\\' ∧ c ≠ '#' ∧ c ≠ '[' ∧ isReserved c = true ∧ Command.ofSymbol? c = none := by
    rcases hc with rfl | rfl | rfl <;> decide
  obtain ⟨hescape, hhere, hbracket, hreserved, hcommand⟩ := hne
  by_cases hd : draft = .blank
  · rw [hd, readOn_first hcommand hhere hbracket, readOn_reserved hreserved hescape]
  · exact readOn_begun hd hreserved hescape

/-! ### Splitting -/

/-- A token that begins with a character but a separator. -/
theorem Token.split_cons (hc : c ≠ '.') (hc' : c ≠ '>') (rest : List Char) :
    ∃ text closedBy ts, Token.split false (c :: rest) = ⟨c :: text, closedBy⟩ :: ts := by
  have hprepend : ∀ front ts, ∃ text closedBy ts', Token.prepend (c :: front) ts = ⟨c :: text, closedBy⟩ :: ts' :=
    fun front ts => by
      cases ts with
      | nil => exact ⟨front, none, [], rfl⟩
      | cons t ts => exact ⟨front ++ t.text, t.closedBy, ts, rfl⟩
  by_cases hescape : ∃ d rest', c = '\\' ∧ rest = d :: rest'
  · obtain ⟨d, rest, rfl, rfl⟩ := hescape
    exact hprepend [d] _
  · rw [Token.split.eq_3 _ _ _ fun d rest' h h' => hescape ⟨d, rest', h, h'⟩]
    simp only [Bool.false_eq_true, if_false, if_neg hc, if_neg hc']
    exact hprepend [] _

theorem enclosed_of_splitBracket {text raw behind : List Char} (h : splitBracket text = some (raw, behind)) :
    Enclosed raw := by
  fun_induction splitBracket text generalizing raw behind with
  | case1 => cases h
  | case2 c rest ih =>
    obtain ⟨⟨raw, behind⟩, hrest, h⟩ := Option.map_eq_some_iff.mp h
    cases h
    exact .escaped (ih hrest)
  | case3 =>
    cases h
    exact .nil
  | case4 c rest hc hc' ih =>
    obtain ⟨⟨raw, behind⟩, hrest, h⟩ := Option.map_eq_some_iff.mp h
    cases h
    refine .plain ?_ hc' (ih hrest)
    rintro rfl
    cases rest with
    | nil => cases hrest
    | cons d rest => exact hc d rest rfl rfl

/-- A bracket without an end takes all of the text. -/
theorem Token.split_true_of_splitBracket {text : List Char} (h : splitBracket text = none) :
    split true text = [⟨text, none⟩] := by
  fun_induction splitBracket text with
  | case1 => rfl
  | case2 c rest ih => rw [split, ih (Option.map_eq_none_iff.mp h), prepend, List.cons_append, List.singleton_append]
  | case3 => cases h
  | case4 c rest hc hc' ih =>
    have hne : (c != ']') = true := bne_iff_ne.mpr hc'
    rw [split.eq_3 _ _ _ hc, if_pos rfl, hne, ih (Option.map_eq_none_iff.mp h), prepend, List.singleton_append]

/-! ### Parts of a token -/

/-- The part `front` of the token that begins where the progress `p` is gave the commands `written` and a draft, and
    holds no separator. -/
structure PartWay (reader : BracketReader σ) (p : Progress) (front : List Char) (written : Commands)
    (draft : Draft σ) : Prop where
  solid : Token.Solid front
  readOn : ∀ more, readOn reader p.seen p.after {} p.position .blank (front ++ more) =
    readOn reader p.seen p.after written (p.position + byteLength front) draft more

theorem partWay_start (reader : BracketReader σ) (p : Progress) : PartWay reader p [] {} .blank :=
  ⟨Token.solid_nil, fun _ => rfl⟩

namespace PartWay

variable (h : PartWay reader p front written draft)
include h

theorem extend {part : List Char} {written' : Commands} {draft' : Draft σ} (hs : Token.Solid part)
    (hr : ∀ more, TreeQuery.readOn reader p.seen p.after written (p.position + byteLength front) draft (part ++ more) =
      TreeQuery.readOn reader p.seen p.after written' (p.position + byteLength front + byteLength part) draft' more) :
    PartWay reader p (front ++ part) written' draft' where
  solid := h.solid.append hs
  readOn more := by rw [List.append_assoc, h.readOn, hr, byteLength_append, Nat.add_assoc]

/-- Where the rest of the token is refused, all is. -/
theorem fails {t : Token} {ts : List Token} (hs : Token.split false rest = t :: ts) (ht : t.text ≠ [])
    (hr : TreeQuery.readOn reader p.seen p.after written (p.position + byteLength front) draft t.text = error e) :
    readTokens reader p (Token.split false (front ++ rest)) = error e := by
  -- Only the empty token at the end of a text is not read.
  have hne : ({ t with text := front ++ t.text } : Token) ≠ ⟨[], none⟩ := fun heq =>
    ht (List.append_eq_nil_iff.mp (congrArg Token.text heq)).2
  rw [h.solid, hs, Token.prepend, readTokens, if_neg hne, readToken_eq_readOn, h.readOn, hr]
  rfl

theorem readToken_eq (closedBy : Option Separator) :
    readToken reader p ⟨front, closedBy⟩ = (do
      p.checkMove written ⟨front, closedBy⟩
      let body ← draft.body written (p.blankAt ⟨front, closedBy⟩)
      p.checkLength
      return ⟨written, body, closedBy == some .move⟩) := by
  have hread := h.readOn []
  rw [List.append_nil, readOn_nil] at hread
  rw [readToken_eq_readOn, hread]
  rfl

theorem closes (separator : Separator) (rest : List Char) :
    readTokens reader p (Token.split false (front ++ separator.symbol :: rest)) = (do
      p.checkMove written ⟨front, some separator⟩
      let body ← draft.body written (p.blankAt ⟨front, some separator⟩)
      p.checkLength
      (readTokens reader (p.next written ⟨front, some separator⟩) (Token.split false rest)).map
        (⟨written, body, separator == .move⟩ :: ·)) := by
  rw [Token.split_solid h.solid, readTokens, if_neg (by simp), h.readToken_eq]
  cases p.checkMove written ⟨front, some separator⟩ with
  | error e => rfl
  | ok _ =>
    cases draft.body written (p.blankAt ⟨front, some separator⟩) with
    | error e => rfl
    | ok body => cases p.checkLength <;> rfl

theorem ends (hf : front ≠ []) :
    readTokens reader p (Token.split false front) = (do
      let body ← draft.body written (p.blankAt ⟨front, none⟩)
      p.checkLength
      return [⟨written, body, false⟩]) := by
  rw [Token.split_solid_end h.solid, readTokens, if_neg (by simp [hf]), h.readToken_eq]
  cases draft.body written (p.blankAt ⟨front, none⟩) with
  | error e => rfl
  | ok body => cases p.checkLength <;> rfl

end PartWay

end TreeQuery
