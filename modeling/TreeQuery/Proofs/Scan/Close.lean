import TreeQuery.Proofs.Scan.Steps

/-! # Closing a token

A token is closed by a separator or by the end of the text, and it selects what the draft of its characters selects
(`body_matches`). A separator leads on to the next token (`Tracks.leads_close`), and the end of the text gives the path
(`finish_matches`). Together with the steps within a token these are all steps of a scan (`leads_step`). -/

namespace TreeQuery
open Except Scan

variable {σ : Type} {sc : Scanner σ} {reader : BracketReader σ} {result : Except ParseError (Path σ)} {st : State σ}
  {before front rest : List Char} {more : List UInt8} {draft : Draft σ} {c : Char} {b : UInt8}

/-! ### Separators -/

/-- The name of a token is decoded as it is written, and its body is the body of the draft. -/
theorem body_matches {t : OpenToken σ} {place position : Nat}
    (ht : t.Shows before front [] sc.offset draft) (htext : sc.text.toList = before ++ front ++ rest)
    (hblank : sc.Means (.unexpectedToken c position)
      (.unexpected (if place < sc.text.utf8ByteSize then place else t.start))) :
    Matches sc (draft.body t.commands (c, position)) (sc.body t place) := by
  cases draft with
  | here =>
    rw [Scanner.body, ht.1]
    exact rfl
  | bracket raw inner =>
    rw [Scanner.body, ht.1]
    exact congrArg (fun text => ok (Body.bracket text inner)) String.toList_ofList.symm
  | blank =>
    obtain ⟨hheld, hnil, hescaped, -⟩ := ht
    have hstarted : t.started = false := by simp [OpenToken.started, hnil, hescaped]
    rw [Scanner.body, hheld, hstarted]
    cases ha : t.commands.append with
    | true => exact if_pos ha
    | false => exact ⟨_, if_neg (by simp [ha]), hblank⟩
  | name name first position escaped =>
    obtain ⟨hheld, hne, rfl, hbytes, rfl, lead, raw, rfl, -, -, hstart⟩ := ht
    have hstarted : t.started = true := by simp [OpenToken.started, hne]
    rw [List.append_nil] at hbytes
    rw [Scanner.body, hheld, hstarted, Draft.body, hbytes, decodeLossy_bytesOf]
    cases ha : t.commands.append with
    | true =>
      have hsplits : Splits sc.text t.textStart (before ++ lead) (first :: (raw ++ rest)) :=
        ⟨by rw [htext]; simp, hstart⟩
      exact ⟨_, rfl, hsplits.means⟩
    | false =>
      rw [if_neg Bool.false_ne_true, if_neg Bool.false_ne_true, Bool.not_true, if_neg Bool.false_ne_true]
      dsimp only
      split
      · split
        · exact rfl
        · exact ⟨_, rfl, rfl⟩
      · exact rfl

section
variable {separator : Separator} (h : Tracks sc reader result st before front (separator.symbol :: rest) [] draft)
include h

/-- What the text is read as when the open token is closed by a separator. -/
theorem Tracks.result_closed :
    result = (do
      let p := st.progress (sc.offset + byteLength before)
      p.checkMove st.token.commands ⟨front, some separator⟩
      let body ← draft.body st.token.commands (separator.symbol, sc.offset + st.place)
      p.checkLength
      (readTokens reader (p.next st.token.commands ⟨front, some separator⟩) (Token.split false rest)).map
        fun path => st.segments ++ ⟨st.token.commands, body, separator == .move⟩ :: path) := by
  have hblank : (st.progress (sc.offset + byteLength before)).blankAt ⟨front, some separator⟩ =
      (separator.symbol, sc.offset + st.place) := congrArg (Prod.mk _) h.position_eq
  rw [h.result, h.partWay.closes, hblank]
  dsimp only
  cases (st.progress (sc.offset + byteLength before)).checkMove st.token.commands ⟨front, some separator⟩ with
  | error e => rfl
  | ok _ =>
    cases draft.body st.token.commands (separator.symbol, sc.offset + st.place) with
    | error e => rfl
    | ok body =>
      cases (st.progress (sc.offset + byteLength before)).checkLength with
      | error e => rfl
      | ok _ => cases readTokens reader _ (Token.split false rest) <;> rfl

/-- The token behind a separator begins with nothing read of it. -/
theorem Tracks.follows_closed {body : Body σ} {flags : List Flags} {moves : Nat}
    (hbody : draft.body st.token.commands (separator.symbol, sc.offset + st.place) = ok body)
    (hmove : (st.progress (sc.offset + byteLength before)).checkMove st.token.commands ⟨front, some separator⟩ = ok ())
    (hlength : st.segments.length + 1 < maxLength) (hle : moves ≤ 1)
    (hmoved : (moves != 0) = (st.moves != 0 || separator == .move)) :
    Follows sc reader result {
      place := st.place + 1
      segments := st.segments ++ [⟨st.token.commands, body, separator == .move⟩]
      flags := flags
      seen := st.seen.union st.token.commands
      moves := moves
      last := some (separator, st.place) } := by
  have hsymbol : byteLength [separator.symbol] = 1 := by cases separator <;> rfl
  have htext : Splits sc.text st.place (before ++ front) ([separator.symbol] ++ rest) := h.splits
  have hsplits : Splits sc.text (st.place + 1) (before ++ front ++ [separator.symbol]) rest := hsymbol ▸ htext.append
  have hmove' : (some separator == some .move) = (separator == .move) := by cases separator <;> rfl
  have hnext : (st.progress (sc.offset + byteLength before)).next st.token.commands ⟨front, some separator⟩ =
      ⟨st.seen.union st.token.commands, st.segments.length + 1, moves != 0, some separator,
        sc.offset + byteLength (before ++ front ++ [separator.symbol])⟩ := by
    rw [Progress.next, hmove', hmoved, byteLength_append, byteLength_append, hsymbol]
    simp only [State.progress, Nat.add_assoc]
  refine ⟨before ++ front ++ [separator.symbol], [], rest, [], .blank, ?_⟩
  exact {
    splits := by rwa [List.append_nil]
    bytes := hsplits.bytesFrom
    high := List.forall_mem_nil _
    shows := ⟨rfl, rfl, rfl, rfl, List.forall_mem_nil _⟩
    fresh := by simp
    start := fun hnil => absurd rfl hnil
    partWay := partWay_start reader _
    moves := hle
    last := by
      rintro _ _ ⟨⟩
      exact ⟨List.append_ne_nil_of_right_ne_nil _ (List.cons_ne_nil _ _), before ++ front, rfl, h.place_eq⟩
    result := by
      have hresult := h.result_closed
      dsimp only at hresult
      rw [hmove, hbody, checkLength_ok_iff.mpr hlength, hnext] at hresult
      rw [hresult, State.progress]
      simp only [List.append_assoc, List.singleton_append, List.length_append, List.length_singleton]
      rfl }

/-- Closing the open token at a separator is refused as the reading is, or it leads on with the segment. -/
theorem Tracks.leads_close (behind : State σ → State σ)
    (hmove : (st.progress (sc.offset + byteLength before)).checkMove st.token.commands ⟨front, some separator⟩ = ok ())
    (hbehind : ∀ body, draft.body st.token.commands (separator.symbol, sc.offset + st.place) = ok body →
      st.segments.length + 1 < maxLength →
        Follows sc reader result (behind ({ st with place := st.place + 1 }.closed body))) :
    Leads sc reader result (sc.close (Scanner.advance st) st.place >>= fun closed => pure (behind closed)) := by
  have hlt : st.place < sc.text.utf8ByteSize := Nat.lt_of_add_lt_add_left (h.splits.beginsAt sc.offset).lt
  have hmeans : sc.Means (.unexpectedToken separator.symbol (sc.offset + st.place))
      (.unexpected (if st.place < sc.text.utf8ByteSize then st.place else byteLength before)) := by
    rw [if_pos hlt]
    exact h.splits.means
  have hbody := body_matches (h.shows.withStart (byteLength before)) h.splits.text hmeans
  have hresult := h.result_closed
  dsimp only at hresult
  rw [hmove] at hresult
  rw [h.advance_eq, Scanner.close, bind_assoc]
  refine hbody.bind hresult fun body hread hresult => ?_
  by_cases hlength : st.segments.length + 1 < maxLength
  · rw [if_pos hlength]
    exact hbehind body hread hlength
  · rw [if_neg hlength]
    have hlong : (st.progress (sc.offset + byteLength before)).checkLength = error (.tooDeep maxLength) := if_neg hlength
    rw [hlong] at hresult
    exact ⟨_, hresult, rfl⟩

end

theorem Tracks.leads_dot (h : Tracks sc reader result st before front ('.' :: rest) [] draft) :
    Leads sc reader result (sc.readStep (Scanner.advance st) st.place) := by
  have htrack : Tracks sc reader result st before front (Separator.step.symbol :: rest) [] draft := h
  exact htrack.leads_close _ rfl fun body hbody hlength =>
    htrack.follows_closed hbody rfl hlength h.moves (Bool.or_false _).symm

theorem modifyLast_append {α : Type} (f : α → α) (xs : List α) (x : α) :
    modifyLast f (xs ++ [x]) = xs ++ [f x] := by
  rw [modifyLast, List.length_append, List.length_singleton, Nat.add_sub_cancel]
  exact List.modifyTailIdx_add _ 0 xs [x]

theorem Tracks.leads_move (h : Tracks sc reader result st before front ('>' :: rest) [] draft) :
    Leads sc reader result (sc.readMove (Scanner.advance st) st.place) := by
  have htrack : Tracks sc reader result st before front (Separator.move.symbol :: rest) [] draft := h
  have hcheck : (st.progress (sc.offset + byteLength before)).checkMove st.token.commands ⟨front, some .move⟩ =
      if (st.seen.union st.token.commands).delete then error (.conflicting '>' '!' (sc.offset + st.place))
      else if st.moves != 0 then error (.unexpectedSegments 3) else ok () := by
    rw [← h.position_eq]
    rfl
  have hresult := htrack.result_closed
  have hadvance : Scanner.advance st = _ := h.advance_eq
  rw [Scanner.readMove, hadvance]
  dsimp only at hresult ⊢
  rw [hcheck] at hresult
  cases hdelete : (st.seen.union st.token.commands).delete with
  | true =>
    rw [hdelete] at hresult
    exact ⟨_, hresult, rfl⟩
  | false =>
    rw [hdelete] at hresult hcheck
    -- With a `>` behind it already, this one would begin a third part.
    obtain hmoves | hmoves : st.moves = 0 ∨ st.moves = 1 := Nat.le_one_iff_eq_zero_or_eq_one.mp h.moves
    · rw [hmoves] at hcheck ⊢
      let behind : State σ → State σ := fun closed => { closed.marked with last := some (.move, st.place) }
      have hleads := htrack.leads_close behind hcheck fun body hbody hlength => by
        dsimp only [behind, State.marked, State.closed]
        rw [modifyLast_append, modifyLast_append]
        exact htrack.follows_closed hbody hcheck hlength (Nat.le_of_eq (congrArg (· + 1) hmoves)) (by rw [hmoves]; rfl)
      rw [hadvance, hmoves] at hleads
      exact hleads
    · rw [hmoves] at hresult ⊢
      exact ⟨_, hresult, rfl⟩

/-! ### All steps -/

/-- The first byte of a character means what the character means. -/
theorem ofUInt8_eq_or (henc : String.utf8EncodeChar c = b :: more) :
    Char.ofUInt8 b = c ∨ isReserved c = false ∧ isReserved (Char.ofUInt8 b) = false := by
  rcases encode_cases c with ⟨x, hc, hx⟩ | ⟨hc, x, more', henc', hhigh⟩
  · rw [henc] at hc
    obtain ⟨rfl, -⟩ := List.cons.inj hc
    exact Or.inl hx
  · rw [henc] at henc'
    obtain ⟨rfl, -⟩ := List.cons.inj henc'
    have hplain : isReserved c = false :=
      Bool.eq_false_iff.mpr fun hreserved => absurd hc (Nat.not_le.mpr (toNat_lt_of_reserved hreserved))
    exact Or.inr ⟨hplain, not_reserved_ofUInt8 (hhigh b List.mem_cons_self)⟩

/-- A character with a meaning is read by the function for it. -/
theorem Tracks.leads_reserved (h : Tracks sc reader result st before front (c :: rest) [] draft)
    (hr : ReadsAlike sc.reader reader) (hc : isReserved c = true) (hb : Char.ofUInt8 b = c) :
    Leads sc reader result (sc.step st b) := by
  unfold Scanner.step
  rw [hb]
  simp only [isReserved, decide_eq_true_eq, List.mem_cons, List.not_mem_nil, or_false] at hc
  rcases hc with rfl | rfl | rfl | rfl | rfl | rfl | rfl | rfl | rfl | rfl | rfl | rfl | rfl
  · exact h.leads_dot
  · exact h.leads_escaped
  · exact h.leads_here
  · exact Tracks.leads_command (d := .append) h
  · exact Tracks.leads_command (d := .delete) h
  · exact Tracks.leads_command (d := .make) h
  · exact Tracks.leads_command (d := .maybe) h
  · exact Tracks.leads_command (d := .overwrite) h
  · exact h.leads_move
  · exact h.leads_bracket hr
  · exact h.leads_stray (Or.inl rfl)
  · exact h.leads_stray (Or.inr (Or.inl rfl))
  · exact h.leads_stray (Or.inr (Or.inr rfl))

theorem leads_step (hr : ReadsAlike sc.reader reader) (h : Follows sc reader result st)
    (hb : byteAt? sc.text st.place = some b) : Leads sc reader result (sc.step st b) := by
  obtain ⟨before, front, rest, more, draft, h⟩ | ⟨before, front, c, rest, more, draft, h, henc, hmore⟩ := h.at_byte hb
  · exact h.leads_pending
  · rcases ofUInt8_eq_or henc with hc | ⟨hplain, hbyte⟩
    · cases hreserved : isReserved c with
      | true => exact h.leads_reserved hr hreserved hc
      | false =>
        rw [step_of_not_reserved (hc.symm ▸ hreserved)]
        exact h.leads_plain hreserved henc hmore
    · rw [step_of_not_reserved hbyte]
      exact h.leads_plain hplain henc hmore

/-! ### The end of the text -/

theorem conclude_eq (hmoves : st.moves ≤ 1) (hsegments : st.segments ≠ []) :
    Scanner.conclude st = ok st := by
  have hparts : ¬((if st.moves = 0 then 0 else st.moves + 1) ≠ 0 ∧ (if st.moves = 0 then 0 else st.moves + 1) ≠ 2) := by
    split <;> omega
  rw [Scanner.conclude, if_neg (by simpa using hsegments)]
  exact if_neg hparts

/-- Where the text ends behind a separator, it may end there or not. -/
theorem Tracks.finish_blank (h : Tracks sc reader result st before [] [] [] .blank)
    (hcommands : st.token.commands = {}) : Matches sc result ((sc.finish st).map State.segments) := by
  have hblank : st.token.isBlank = true := h.shows.isBlank.mpr ⟨rfl, hcommands⟩
  have hresult := h.result
  have hsplit : Token.split false ([] ++ []) = [⟨[], none⟩] := rfl
  rw [hsplit, readTokens, if_pos rfl, Progress.checkEnd, State.progress] at hresult
  rw [Scanner.finish, if_pos hblank]
  cases hlast : st.last with
  | none =>
    rw [hlast] at hresult
    exact ⟨_, hresult, rfl⟩
  | some last =>
    obtain ⟨separator, place⟩ := last
    obtain ⟨hsegments, lead, rfl, hplace⟩ := h.last separator place hlast
    rw [hlast] at hresult
    cases separator with
    | step =>
      dsimp only
      rw [conclude_eq h.moves hsegments]
      exact hresult.trans (congrArg ok (List.append_nil _))
    | move =>
      have hsplits : Splits sc.text place lead ('>' :: []) := ⟨h.splits.text.trans (by simp [Separator.symbol]), hplace⟩
      have hposition : sc.offset + byteLength (lead ++ [Separator.move.symbol]) - 1 = sc.offset + place := by
        rw [byteLength_append, hplace]
        rfl
      refine ⟨.unexpectedToken '>' (sc.offset + place), ?_, hsplits.means⟩
      rw [← hposition]
      exact hresult

/-- The end of the text closes the last token. -/
theorem Tracks.finish_token (h : Tracks sc reader result st before (c :: front) [] [] draft) :
    Matches sc result ((sc.finish st).map State.segments) := by
  have hne : c :: front ≠ [] := List.cons_ne_nil c front
  have htext := h.splits.text
  have hsplits : Splits sc.text (byteLength before) before (c :: front) := ⟨by rw [htext, List.append_nil], rfl⟩
  have hmeans : sc.Means (.unexpectedToken c (sc.offset + byteLength before))
      (.unexpected (if sc.text.utf8ByteSize < sc.text.utf8ByteSize then sc.text.utf8ByteSize else st.token.start)) := by
    rw [if_neg (Nat.lt_irrefl _), h.start hne]
    exact hsplits.means
  have hresult : result = (do
      let body ← draft.body st.token.commands (c, sc.offset + byteLength before)
      (st.progress (sc.offset + byteLength before)).checkLength
      return st.segments ++ [⟨st.token.commands, body, false⟩]) := by
    rw [h.result, List.append_nil, h.partWay.ends hne]
    have hat : (st.progress (sc.offset + byteLength before)).blankAt ⟨c :: front, none⟩ =
        (c, sc.offset + byteLength before) := rfl
    rw [hat]
    cases draft.body st.token.commands (c, sc.offset + byteLength before) with
    | error e => rfl
    | ok body => cases (st.progress (sc.offset + byteLength before)).checkLength <;> rfl
  rw [Scanner.finish, if_neg fun hblank => hne (h.fresh.mp (h.shows.isBlank.mp hblank)), Scanner.close, bind_assoc,
    Outcome.map_bind]
  refine (body_matches h.shows htext hmeans).bind hresult fun body hread hresult => ?_
  by_cases hlength : st.segments.length + 1 < maxLength
  · have hfits : (st.progress (sc.offset + byteLength before)).checkLength = ok () := checkLength_ok_iff.mpr hlength
    have hsegments : (st.closed body).segments ≠ [] :=
      List.append_ne_nil_of_right_ne_nil _ (List.cons_ne_nil _ _)
    rw [hfits] at hresult
    rw [if_pos hlength, pure_bind, conclude_eq]
    · exact hresult
    · exact h.moves
    · exact hsegments
  · have hlong : (st.progress (sc.offset + byteLength before)).checkLength = error (.tooDeep maxLength) := if_neg hlength
    rw [hlong] at hresult
    rw [if_neg hlength]
    exact ⟨_, hresult, rfl⟩

theorem finish_matches (h : Follows sc reader result st) (hb : byteAt? sc.text st.place = none) :
    Matches sc result ((sc.finish st).map State.segments) := by
  obtain ⟨before, front, draft, h⟩ := h.at_end hb
  cases front with
  | nil =>
    obtain ⟨rfl, hcommands⟩ := h.fresh.mpr rfl
    exact h.finish_blank hcommands
  | cons c front => exact h.finish_token

end TreeQuery
