import TreeQuery.Proofs.Scan.Tracks

/-! # Steps within a token

A step reads a byte, and what is taken with it, as the characters say: it goes on to what the whole text is read as, or
it stops with the refusal of that text (`Leads`). There is one lemma for a byte within a character, one for a character
without a meaning, and one for each character that has one and closes no token. -/

namespace TreeQuery
open Except Scan

variable {σ : Type} {sc : Scanner σ} {reader : BracketReader σ} {result : Except ParseError (Path σ)} {st : State σ}
  {before front rest : List Char} {pending more : List UInt8} {draft : Draft σ} {c : Char} {b : UInt8}

/-! ### Names -/

/-- All characters with a meaning are ASCII. -/
theorem toNat_lt_of_reserved (h : isReserved c = true) : c.toNat < 128 := by
  simp only [isReserved, decide_eq_true_eq, List.mem_cons, List.not_mem_nil, or_false] at h
  rcases h with rfl | rfl | rfl | rfl | rfl | rfl | rfl | rfl | rfl | rfl | rfl | rfl | rfl <;> decide

theorem not_reserved_ofUInt8 (h : 128 ≤ b.toNat) : isReserved (Char.ofUInt8 b) = false :=
  Bool.eq_false_iff.mpr fun hreserved => ofUInt8_ne h (toNat_lt_of_reserved hreserved) rfl

theorem step_of_not_reserved (h : isReserved (Char.ofUInt8 b) = false) :
    sc.step st b = Scanner.readPlain (Scanner.advance st) b st.place := by
  have hcommand := ofSymbol?_of_not_reserved h
  simp only [isReserved, decide_eq_false_iff_not, List.mem_cons, List.not_mem_nil, or_false, not_or] at h
  simp [Scanner.step, h, hcommand]

/-- A byte within a character goes to the name that the character belongs to. -/
theorem Tracks.leads_pending (h : Tracks sc reader result st before front rest (b :: more) draft) :
    Leads sc reader result (sc.step st b) := by
  obtain ⟨hb, hmore⟩ := List.forall_mem_cons.mp h.high
  have hopen : draft.isOpen = true := h.shows.isOpen_of_pending (List.cons_ne_nil b more)
  have hshows := h.shows.withStart (byteLength before)
  have hfinal := hshows.finalized
  rw [hopen] at hfinal
  rw [step_of_not_reserved (not_reserved_ofUInt8 hb), Scanner.readPlain, h.advance_eq, if_neg (by simp [hfinal])]
  -- The draft got the whole character with its first byte, so only the bytes of the token catch up with it.
  refine ⟨before, front, rest, more, draft, ?_⟩
  exact {
    splits := by
      have hsplits := h.splits
      rw [List.length_cons, Nat.add_comm more.length, ← Nat.add_assoc] at hsplits
      exact hsplits
    bytes := (bytesFrom_succ sc.text st.place).trans (congrArg List.tail h.bytes)
    high := hmore
    shows := hshows.push st.place
    fresh := h.fresh
    start := fun _ => rfl
    partWay := h.partWay
    moves := h.moves
    last := h.last
    result := h.result }

/-- A character of a name is read as far as its first byte; it is written as `part`, with a backslash or without. -/
theorem Tracks.leads_add {first : Char} {part : List Char} {lead : List UInt8} {escaped : Bool}
    (h : Tracks sc reader result st before front (first :: part ++ rest) [] draft) (ho : draft.isOpen = true)
    (hpart : NameText (first :: part) [c]) (henc : String.utf8EncodeChar c = b :: more)
    (hmore : ∀ x ∈ more, 128 ≤ x.toNat) (hlead : bytesOf (first :: part) = lead ++ more)
    (hread : ∀ more, readOn reader st.seen (st.last.map Prod.fst) st.token.commands (sc.offset + st.place) draft
        (first :: part ++ more) =
      readOn reader st.seen (st.last.map Prod.fst) st.token.commands
        (sc.offset + st.place + byteLength (first :: part)) (draft.add first (sc.offset + st.place) c escaped) more) :
    Leads sc reader result (ok { st with
      place := st.place + lead.length
      token := { { st.token with start := byteLength before }.push b st.place with
        escaped := st.token.escaped || escaped } }) := by
  have hshows := (h.shows.withStart (byteLength before)).add ho hpart henc escaped h.place_eq
  have hplace : st.place + lead.length + more.length = st.place + byteLength (first :: part) := by
    rw [← length_bytesOf, hlead, List.length_append, Nat.add_assoc]
  have hbytes : bytesFrom sc.text (st.place + lead.length) = more ++ bytesOf rest := by
    refine bytesFrom_add (h.bytes.trans ?_)
    rw [List.nil_append, bytesOf_append, hlead, List.append_assoc]
  refine h.extend hplace hbytes hmore hshows ?_ rfl (List.cons_ne_nil first part) hpart.solid hread
  rintro ⟨hblank, -⟩
  cases draft <;> cases hblank

/-- A character without a meaning goes to a name, unless nothing may stand there. -/
theorem Tracks.leads_plain (h : Tracks sc reader result st before front (c :: rest) [] draft)
    (hc : isReserved c = false) (henc : String.utf8EncodeChar c = b :: more) (hmore : ∀ x ∈ more, 128 ≤ x.toNat) :
    Leads sc reader result (Scanner.readPlain (Scanner.advance st) b st.place) := by
  have hfinal := (h.shows.withStart (byteLength before)).finalized
  rw [Scanner.readPlain, h.advance_eq, hfinal]
  cases ho : draft.isOpen with
  | false =>
    have hne : c ≠ '.' ∧ c ≠ '>' := ⟨by rintro rfl; simp [isReserved] at hc, by rintro rfl; simp [isReserved] at hc⟩
    exact h.unexpected hne.1 hne.2 fun more => readOn_closed ho
  | true =>
    have hlead : bytesOf [c] = [b] ++ more := by rw [bytesOf_cons, henc]; exact List.append_nil _
    have htrack : Tracks sc reader result st before front ([c] ++ rest) [] draft := h
    have hleads := htrack.leads_add ho (.plain hc .nil) henc hmore hlead fun more => readOn_add ho hc
    rw [Bool.or_false] at hleads
    exact hleads

/-- A backslash and the first byte of the character behind it. -/
theorem Tracks.leads_escaped (h : Tracks sc reader result st before front ('\\' :: rest) [] draft) :
    Leads sc reader result (sc.readEscaped (Scanner.advance st) st.place) := by
  have hfinal := (h.shows.withStart (byteLength before)).finalized
  rw [Scanner.readEscaped, h.advance_eq, hfinal]
  cases ho : draft.isOpen with
  | false => exact h.unexpected (by decide) (by decide) fun more => readOn_closed ho
  | true =>
    have hbehind : bytesFrom sc.text (st.place + 1) = bytesOf rest := by
      rw [bytesFrom_succ, h.bytes]
      rfl
    rw [Bool.not_true, if_neg Bool.false_ne_true]
    dsimp only
    rw [byteAt?_eq_head?, hbehind]
    cases rest with
    | nil => exact ⟨_, h.refuses rfl (by simp) (readOn_backslash ho), h.splits.means⟩
    | cons d rest =>
      obtain ⟨b, more, henc, hmore⟩ := encode_tail d
      have hlead : bytesOf ['\\', d] = [0x5C, b] ++ more := by
        rw [bytesOf_cons, bytesOf_cons, henc]
        exact congrArg (0x5C :: ·) (List.append_nil _)
      have htrack : Tracks sc reader result st before front (['\\', d] ++ rest) [] draft := h
      have hleads := htrack.leads_add ho (.escaped .nil) henc hmore hlead fun more => readOn_add_escaped ho
      rw [Bool.or_true] at hleads
      rw [bytesOf_cons, henc]
      exact hleads

/-! ### Commands, `#` and what means nothing -/

theorem Tracks.leads_command {d : Command} (h : Tracks sc reader result st before front (d.symbol :: rest) [] draft) :
    Leads sc reader result (sc.readCommand (Scanner.advance st) d st.place) := by
  have hsymbol : d.symbol ≠ '.' ∧ d.symbol ≠ '>' ∧ d.symbol ≠ '\\' ∧ isReserved d.symbol = true := by cases d <;> decide
  obtain ⟨hc, hc', hescape, hreserved⟩ := hsymbol
  have hbegun := (h.shows.withStart (byteLength before)).begun
  rw [Scanner.readCommand, h.advance_eq]
  by_cases hd : draft = .blank
  · subst hd
    rw [if_neg (by simp [hbegun])]
    dsimp only
    cases hrefusal : d.refusal? st.seen st.token.commands (st.last.map Prod.fst) (sc.offset + st.place) with
    | some e =>
      exact ⟨e, h.refuses_char hc hc' fun more => by rw [readOn_command, hrefusal], rfl⟩
    | none =>
      have htrack : Tracks sc reader result st before front ([d.symbol] ++ rest) [] .blank := h
      have hshows : { st.token with start := byteLength before, commands := st.token.commands.insert d }.Shows before
          (front ++ [d.symbol]) [] sc.offset .blank := by
        obtain ⟨hheld, hbytes, hescaped, hpending, hfront⟩ := h.shows
        refine ⟨hheld, hbytes, hescaped, hpending, List.forall_mem_append.mpr ⟨hfront, ?_⟩⟩
        rw [List.forall_mem_singleton, Command.ofSymbol?_symbol]
        rfl
      have hfollows := htrack.extend_whole hshows (fun hfresh => Commands.insert_ne_empty hfresh.2) rfl
        (List.cons_ne_nil _ _) (Token.solid_symbol d) fun more => by
          rw [List.singleton_append, readOn_command, hrefusal, d.byteLength_symbol]
      rw [d.byteLength_symbol] at hfollows
      exact hfollows
  · rw [if_pos (hbegun.mpr hd)]
    exact h.unexpected hc hc' fun more => readOn_begun hd hreserved hescape

theorem Tracks.leads_here (h : Tracks sc reader result st before front ('#' :: rest) [] draft) :
    Leads sc reader result (sc.readHere (Scanner.advance st) st.place) := by
  have hbegun := (h.shows.withStart (byteLength before)).begun
  rw [Scanner.readHere, h.advance_eq]
  by_cases hd : draft = .blank
  · subst hd
    rw [if_neg (by simp [hbegun])]
    dsimp only
    cases hfirst : st.token.commands.first? with
    | some other =>
      exact ⟨_, h.refuses_char (by decide) (by decide) fun more => by rw [readOn_here, hfirst], rfl⟩
    | none =>
      have htrack : Tracks sc reader result st before front (['#'] ++ rest) [] .blank := h
      have hshows : { st.token with start := byteLength before, held := .here }.Shows before (front ++ ['#']) []
          sc.offset (.here : Draft σ) := ⟨rfl, h.shows.2.1, rfl⟩
      have hsolid : Token.Solid ['#'] := Token.solid_of_not_special (by decide) (by decide) (by decide) (by decide)
      have hfresh : ¬((.here : Draft σ) = .blank ∧ st.token.commands = {}) := by rintro ⟨⟨⟩, -⟩
      exact htrack.extend_whole hshows hfresh rfl (List.cons_ne_nil _ _) hsolid fun more => by
        rw [List.singleton_append, readOn_here, hfirst]
        rfl
  · rw [if_pos (hbegun.mpr hd)]
    exact h.unexpected (by decide) (by decide) fun more => readOn_begun hd rfl (by decide)

theorem Tracks.leads_stray (h : Tracks sc reader result st before front (c :: rest) [] draft)
    (hc : c = ']' ∨ c = '@' ∨ c = '~') : Leads sc reader result (error (.unexpected st.place)) := by
  refine h.unexpected ?_ ?_ fun more => readOn_stray hc
  all_goals rcases hc with rfl | rfl | rfl <;> decide

/-! ### Brackets -/

/-- A scan and a reading give the same for every bracket, refusals included. -/
inductive ReadsAlike : Option (Nat → String → Except Fault σ) → BracketReader σ → Prop where
  | none : ReadsAlike none none
  | some {read : Nat → String → Except Fault σ} {read' : Nat → List Char → Except ParseError σ}
    (h : ∀ position raw, read position (String.ofList raw) = (read' position raw).mapError .refused) :
    ReadsAlike (some read) (some read')

/-- A bracket whose end has been found is refused as its text is, or it is read. -/
theorem Tracks.leads_bracket_of_split {raw behind : List Char} {inner : Except ParseError σ}
    {read : Nat → List Char → Except ParseError σ}
    (h : Tracks sc (some read) result st before front ('[' :: rest) [] .blank)
    (ha : st.token.commands.append = false) (hs : splitBracket rest = some (raw, behind))
    (hread : read (sc.offset + st.place + 1) raw = inner) :
    Leads sc (some read) result (((inner.mapError Fault.refused).mapError Stop.fault).map fun inner =>
      { st with
        place := st.place + 1 + byteLength raw + 1
        token := { st.token with start := byteLength before, held := .bracket (String.ofList raw) inner } }) := by
  have hraw := enclosed_of_splitBracket hs
  obtain rfl := eq_append_of_splitBracket hs
  have hpart : ∀ more, '[' :: (raw ++ [']']) ++ more = '[' :: (raw ++ ']' :: more) := fun more => by
    rw [List.cons_append, List.append_assoc, List.singleton_append]
  have hlength : byteLength ('[' :: (raw ++ [']'])) = 1 + byteLength raw + 1 := by
    rw [byteLength, byteLength_append, Nat.add_assoc]
    rfl
  have hon : ∀ more, readOn (some read) st.seen (st.last.map Prod.fst) st.token.commands (sc.offset + st.place) .blank
      ('[' :: (raw ++ [']']) ++ more) = inner >>= fun inner =>
        readOn (some read) st.seen (st.last.map Prod.fst) st.token.commands
          (sc.offset + st.place + byteLength ('[' :: (raw ++ [']']))) (.bracket raw inner) more := fun more => by
    rw [hpart, readOn_bracket_of_split ha (splitBracket_of_enclosed hraw more), hread, hlength]
  cases inner with
  | error e =>
    -- A reading gets to the refusal within the token of the bracket, whatever closes it.
    obtain ⟨t, ts, hts⟩ := List.exists_cons_of_ne_nil (Token.split_ne_nil false behind)
    have hsplit := Token.solid_bracket hraw behind
    rw [hpart, hts, Token.prepend] at hsplit
    exact ⟨e, h.refuses hsplit (List.cons_ne_nil _ _) (hon t.text), rfl⟩
  | ok inner =>
    rw [← hpart] at h
    have hshows : { st.token with start := byteLength before, held := .bracket (String.ofList raw) inner }.Shows before
        (front ++ '[' :: (raw ++ [']'])) [] sc.offset (.bracket raw inner) := ⟨rfl, h.shows.2.1, rfl⟩
    have hfresh : ¬((.bracket raw inner : Draft σ) = .blank ∧ st.token.commands = {}) := by rintro ⟨⟨⟩, -⟩
    have hfollows := h.extend_whole hshows hfresh rfl (List.cons_ne_nil _ _) (Token.solid_bracket hraw) hon
    rw [hlength, ← Nat.add_assoc, ← Nat.add_assoc] at hfollows
    exact hfollows

theorem Tracks.splits_bracket (h : Tracks sc reader result st before front ('[' :: rest) [] draft) :
    Splits sc.text (st.place + 1) (before ++ front ++ ['[']) rest := by
  have htext : Splits sc.text st.place (before ++ front) (['['] ++ rest) := h.splits
  exact htext.append

theorem Tracks.leads_bracket (h : Tracks sc reader result st before front ('[' :: rest) [] draft)
    (hr : ReadsAlike sc.reader reader) : Leads sc reader result (sc.readBracket (Scanner.advance st) st.place) := by
  have hbegun := (h.shows.withStart (byteLength before)).begun
  rw [Scanner.readBracket, h.advance_eq]
  by_cases hd : draft = .blank
  · subst hd
    rw [if_neg (by simp [hbegun])]
    dsimp only
    cases ha : st.token.commands.append with
    | true => exact ⟨_, h.refuses_char (by decide) (by decide) fun more => readOn_bracket_append ha, rfl⟩
    | false =>
      obtain ⟨text, offset, scRead⟩ := sc
      cases hr with
      | none => exact ⟨_, h.refuses_char (by decide) (by decide) fun more => readOn_bracket_none ha, rfl⟩
      | @some scRead read hr =>
        have hbehind : Splits text (st.place + 1) (before ++ front ++ ['[']) rest := h.splits_bracket
        simp only [Bool.false_eq_true, if_false]
        rw [bracketEnd?_of_splits hbehind]
        cases hs : splitBracket rest with
        | none =>
          have hsplit : Token.split false ('[' :: rest) = [⟨'[' :: rest, none⟩] := by
            rw [Token.split_bracket, Token.split_true_of_splitBracket hs]
            rfl
          exact ⟨_, h.refuses hsplit (List.cons_ne_nil _ _) (readOn_bracket_of_split_none ha hs), h.splits.means⟩
        | some parts =>
          obtain ⟨raw, behind⟩ := parts
          have hslice : slice? text (st.place + 1) (st.place + 1 + byteLength raw) = some (String.ofList raw) := by
            rw [eq_append_of_splitBracket hs] at hbehind
            exact slice?_of_splits hbehind
          have hleads := h.leads_bracket_of_split ha hs rfl
          rw [← hr] at hleads
          simp only [Option.map_some, hslice]
          exact hleads
  · rw [if_pos (hbegun.mpr hd)]
    exact h.unexpected (by decide) (by decide) fun more => readOn_begun hd rfl (by decide)

end TreeQuery
