import TreeQuery.Proofs.Scan.Close

/-! # Scanning bytes breaks no character

A scan gives what reading characters gives (`Scan.parseAt_eq`), and it stays between characters wherever it matters,
though it moves by bytes: in every state that it comes to (`Scan.aligned_of_reached`), a token that is closed holds the
bytes of its characters, the text of a bracket is a slice between characters, and a refusal that names a character
points at where one begins. -/

namespace TreeQuery
open Except Scan

variable {σ : Type} {sc : Scanner σ} {reader : BracketReader σ} {result : Except ParseError (Path σ)}
  {st next : State σ} {b : UInt8} {place : Nat}

/-! ### Whole scans -/

theorem run_matches (hr : ReadsAlike sc.reader reader) (h : Follows sc reader result st) :
    Matches sc result ((sc.run st).map State.segments) := by
  -- `Follows` is what each step keeps, with the same result from the start to the end.
  fun_induction Scanner.run sc st with
  | case1 st hb => exact finish_matches h hb
  | case2 st b hb stop hs =>
    have hleads := leads_step hr h hb
    rw [hs] at hleads
    exact hleads
  | case3 st b hb next hs ih =>
    have hleads := leads_step hr h hb
    rw [hs] at hleads
    exact ih hleads

/-- A scan gives what reading the characters gives. -/
theorem scan_eq (hr : ReadsAlike sc.reader reader) :
    sc.scan = (readPath reader sc.offset sc.text.toList).mapError .refused := by
  unfold Scanner.scan Scanner.readAll
  split
  · rename_i hempty
    have htext : sc.text = "" := by simpa using hempty
    rw [htext]
    rfl
  · have hmatches := run_matches hr (follows_start sc reader)
    cases hrun : sc.run {} with
    | ok last =>
      rw [hrun] at hmatches
      have hread : readPath reader sc.offset sc.text.toList = ok last.segments := hmatches
      rw [hread]
      rfl
    | error stop =>
      rw [hrun] at hmatches
      obtain ⟨e, he, hmeans⟩ := hmatches
      rw [he]
      exact congrArg error (fault_of_means hmeans)

theorem readInside_eq (position : Nat) (raw : List Char) :
    readInside position (String.ofList raw) = (readInner position raw).mapError .refused := by
  have hscan : (plainScanner position (String.ofList raw)).scan =
      (readPath none position (String.ofList raw).toList).mapError .refused := scan_eq .none
  rw [readInside, hscan, readInner, String.toList_ofList]
  cases readPath (none : BracketReader Empty) position raw with
  | error e => rfl
  | ok path =>
    show (if Path.writes path || Path.moves path then error _ else ok path) =
      (if Path.writes path || Path.moves path then error _ else ok path).mapError Fault.refused
    split <;> rfl

/-- How brackets are read at a depth of brackets. -/
def readerAt : (depth : Nat) → BracketReader (Inside depth)
  | 0 => some readInner
  | _ + 1 => none

theorem readsAlike_at (offset : Nat) (text : String) (depth : Nat) :
    ReadsAlike (scannerAt offset text depth).reader (readerAt depth) := by
  cases depth with
  | zero => exact .some readInside_eq
  | succ => exact .none

theorem follows_of_reached (hr : ReadsAlike sc.reader reader) (h : sc.Reached st) :
    Follows sc reader (readPath reader sc.offset sc.text.toList) st := by
  induction h with
  | start => exact follows_start sc reader
  | step _ hb hs ih =>
    have hleads := leads_step hr ih hb
    rw [hs] at hleads
    exact hleads

theorem parseAt_eq_ofReading (offset depth : Nat) (text : String) :
    Query.parseAt offset depth text =
      Query.ofReading ((readPath (readerAt depth) offset text.toList).map (Inside.lift depth)) := by
  cases depth with
  | zero => exact congrArg Query.ofReading (congrFun Except.map_id _).symm
  | succ depth => exact if_neg (Nat.not_lt.mpr (Nat.le_add_left 1 depth))

theorem scanAt_eq (offset depth : Nat) (text : String) : (scannerAt offset text depth).scan =
    (readPath (readerAt depth) offset text.toList).mapError .refused := by
  have hscan := scan_eq (readsAlike_at offset text depth)
  cases depth <;> exact hscan

namespace Scan

/-- Scanning the bytes of a text gives what reading its characters gives. -/
theorem parseAt_eq (offset depth : Nat) (text : String) :
    parseAt offset depth text = (Query.parseAt offset depth text).mapError .refused := by
  rw [parseAt, scanAt_eq, parseAt_eq_ofReading, Query.ofReading]
  cases readPath (readerAt depth) offset text.toList with
  | error e => rfl
  | ok path =>
    have hscanned : (ok path : Except ParseError (Path (Inside depth))).mapError Fault.refused = ok path := rfl
    have hlift : (ok path : Except ParseError (Path (Inside depth))).map (Inside.lift depth) =
        ok (Inside.lift depth path) := rfl
    rw [hscanned, hlift, Outcome.ok_bind, Outcome.ok_bind]
    cases Query.ofPath? (Inside.lift depth path) <;> rfl

end Scan

/-! ### Where a state stands -/

/-- Where the next byte is a character of the grammar, that character is next. -/
theorem Follows.next_reserved (h : Follows sc reader result st) (hb : byteAt? sc.text st.place = some b)
    (hr : isReserved (Char.ofUInt8 b) = true) :
    ∃ before front rest draft, Tracks sc reader result st before front (Char.ofUInt8 b :: rest) [] draft := by
  obtain ⟨before, front, rest, more, draft, h⟩ | ⟨before, front, c, rest, more, draft, h, henc, -⟩ := h.at_byte hb
  · rw [not_reserved_ofUInt8 (h.high b List.mem_cons_self)] at hr
    cases hr
  · rcases ofUInt8_eq_or henc with hc | ⟨-, hbyte⟩
    · rw [hc]
      exact ⟨before, front, rest, draft, h⟩
    · rw [hbyte] at hr
      cases hr

namespace Scan

/-- The open token is closed next: the text ends, or a separator is there. -/
def Scanner.Closes (sc : Scanner σ) (st : State σ) : Prop :=
  ∀ b ∈ byteAt? sc.text st.place, Char.ofUInt8 b = '.' ∨ Char.ofUInt8 b = '>'

/-- What the next turn of a scan gives: a step, or the end of the text. -/
def Scanner.turn (sc : Scanner σ) (st : State σ) : Except Stop (Path σ) :=
  match byteAt? sc.text st.place with
  | some b => (sc.step st b).map State.segments
  | none => (sc.finish st).map State.segments

/-- The bytes of a token that ends at a place of a text are those of its name: behind its commands it is written as
    `raw`, the name with a backslash before some of its characters. -/
structure OpenToken.Whole (t : OpenToken σ) (text : String) (place : Nat) : Prop where
  valid : t.bytes.toByteArray.IsValidUTF8
  kept : bytesOf (decodeLossy t.bytes) = t.bytes
  written : t.bytes ≠ [] → ∃ lead raw, slice? text t.start place = some (String.ofList (lead ++ raw)) ∧
    slice? text t.textStart place = some (String.ofList raw) ∧
    (∀ d ∈ lead, (Command.ofSymbol? d).isSome = true) ∧ NameText raw (decodeLossy t.bytes)

/-- A state of a scan breaks no character. -/
structure Scanner.Aligned (sc : Scanner σ) (st : State σ) : Prop where
  /-- A token that is closed is a whole one, and its name is the text of the segment that it becomes. -/
  closed : sc.Closes st → st.token.Whole sc.text st.place ∧ ∀ path, sc.turn st = .ok path → st.token.bytes ≠ [] →
    ∃ segment, path = st.segments ++ [segment] ∧ segment.body.text = String.ofList (decodeLossy st.token.bytes)
  /-- The text of a bracket is a slice between characters. -/
  bracket : ∀ b ∈ byteAt? sc.text st.place, Char.ofUInt8 b = '[' → ∀ stop ∈ bracketEnd? sc.text (st.place + 1),
    st.place + 1 ≤ stop ∧ stop ≤ sc.text.utf8ByteSize ∧ String.Pos.Raw.IsValid sc.text ⟨st.place + 1⟩ ∧
      String.Pos.Raw.IsValid sc.text ⟨stop⟩
  /-- A character begins where one is refused, and it is the one that is named. -/
  unexpected : ∀ place, sc.turn st = .error (.unexpected place) →
    ∃ c, BeginsAt sc.text sc.offset c (sc.offset + place) ∧
      sc.fault (.unexpected place) = .refused (.unexpectedToken c (sc.offset + place))
  /-- No slice is taken that is none. -/
  slices : ∀ start stop, sc.turn st ≠ .error (.fault (.badSlice start stop))

end Scan

theorem Tracks.whole {before front rest : List Char} {draft : Draft σ}
    (h : Tracks sc reader result st before front rest [] draft) : st.token.Whole sc.text st.place := by
  have hempty : st.token.bytes = [] → st.token.Whole sc.text st.place := fun hnil =>
    ⟨hnil ▸ isValidUTF8_bytesOf [], hnil ▸ congrArg bytesOf (decodeLossy_bytesOf []), fun hne => absurd hnil hne⟩
  have hshows := h.shows
  cases draft with
  | blank | here | bracket => exact hempty hshows.2.1
  | name name first position escaped =>
    obtain ⟨-, -, -, hbytes, -, lead, raw, rfl, hname, hlead, hstart⟩ := hshows
    have hne : lead ++ first :: raw ≠ [] := List.append_ne_nil_of_right_ne_nil lead (List.cons_ne_nil first raw)
    have htoken : Splits sc.text st.token.start before (lead ++ first :: raw ++ rest) :=
      ⟨by rw [h.splits.text, List.append_assoc], h.start hne⟩
    have hbody : Splits sc.text st.token.textStart (before ++ lead) (first :: raw ++ rest) :=
      ⟨by rw [h.splits.text]; simp only [List.append_assoc], hstart⟩
    have htokenEnd : st.token.start + byteLength (lead ++ first :: raw) = st.place := by
      rw [h.place_eq, h.start hne, byteLength_append before]
    have hbodyEnd : st.token.textStart + byteLength (first :: raw) = st.place := by
      rw [h.place_eq, hstart, ← List.append_assoc, byteLength_append (before ++ lead)]
    rw [List.append_nil] at hbytes
    refine ⟨hbytes ▸ isValidUTF8_bytesOf name, by rw [hbytes, decodeLossy_bytesOf], fun _ => ?_⟩
    refine ⟨lead, first :: raw, ?_, ?_, hlead, by rwa [hbytes, decodeLossy_bytesOf]⟩
    · rw [← htokenEnd]
      exact slice?_of_splits htoken
    · rw [← hbodyEnd]
      exact slice?_of_splits hbody

/-! ### What a token becomes -/

/-- A token that collected bytes is a field or an index with the name that they encode. -/
theorem text_of_body {t : OpenToken σ} {body : Body σ} (hheld : t.held = .text) (hne : t.bytes ≠ [])
    (h : sc.body t place = ok body) : body.text = String.ofList (decodeLossy t.bytes) := by
  have hstarted : t.started = true := by simp [OpenToken.started, hne]
  rw [Scanner.body, hheld, hstarted] at h
  dsimp only at h
  split at h
  · cases h
  · rw [if_neg (by simp)] at h
    split at h
    · split at h
      · cases h
        rfl
      · cases h
    · cases h
      rfl

theorem eq_of_conclude (h : Scanner.conclude st = ok next) : next = st := by
  dsimp only [Scanner.conclude] at h
  by_cases hempty : st.segments.isEmpty = true
  · rw [if_pos hempty] at h
    cases h
  · rw [if_neg hempty] at h
    generalize (if st.moves = 0 then 0 else st.moves + 1) = parts at h
    split at h
    · cases h
    · exact (Except.ok.inj h).symm

/-- What the token becomes that a turn closes. -/
theorem segment_of_turn {path : Path σ} (hcloses : sc.Closes st) (hheld : st.token.held = .text)
    (hne : st.token.bytes ≠ []) (h : sc.turn st = ok path) :
    ∃ segment, path = st.segments ++ [segment] ∧ segment.body.text = String.ofList (decodeLossy st.token.bytes) := by
  have hblank : ¬st.token.isBlank = true := by simp [OpenToken.isBlank, OpenToken.started, hne]
  have hadvance : Scanner.advance st = { st with place := st.place + 1 } := by rw [Scanner.advance, if_neg hblank]
  unfold Scanner.turn at h
  cases hb : byteAt? sc.text st.place with
  | none =>
    simp only [hb, Scanner.finish, if_neg hblank] at h
    obtain ⟨last, hlast, rfl⟩ := Outcome.map_ok_iff.mp h
    obtain ⟨closed, hclose, hconclude⟩ := Outcome.bind_ok_iff.mp hlast
    obtain ⟨body, hbody, rfl⟩ := Scanner.close_ok hclose
    rw [eq_of_conclude hconclude]
    exact ⟨_, rfl, text_of_body hheld hne hbody⟩
  | some b =>
    simp only [hb] at h
    obtain ⟨next, hstep, rfl⟩ := Outcome.map_ok_iff.mp h
    rcases hcloses b hb with hdot | hmove
    · have hread : sc.readStep (Scanner.advance st) st.place = ok next := by
        rw [← hstep]
        unfold Scanner.step
        rw [hdot]
        rfl
      obtain ⟨body, hbody, rfl⟩ := Scanner.readStep_ok hread
      rw [hadvance] at hbody ⊢
      exact ⟨_, rfl, text_of_body hheld hne hbody⟩
    · have hread : sc.readMove (Scanner.advance st) st.place = ok next := by
        rw [← hstep]
        unfold Scanner.step
        rw [hmove]
        rfl
      obtain ⟨body, hbody, rfl⟩ := Scanner.readMove_ok hread
      rw [hadvance] at hbody ⊢
      exact ⟨_, modifyLast_append _ _ _, text_of_body hheld hne hbody⟩

namespace Scan

theorem aligned_of_follows (hr : ReadsAlike sc.reader reader) (h : Follows sc reader result st) : sc.Aligned st := by
  -- A turn stops only with a refusal that a reading gives, and a slice that is none is not among these.
  have hturn : ∀ stop, sc.turn st = error stop → ∃ e, sc.Means e stop := fun stop hstop => by
    unfold Scanner.turn at hstop
    cases hb : byteAt? sc.text st.place with
    | none =>
      simp only [hb] at hstop
      have hmatches := finish_matches h hb
      rw [hstop] at hmatches
      obtain ⟨e, -, hmeans⟩ := hmatches
      exact ⟨e, hmeans⟩
    | some b =>
      simp only [hb] at hstop
      have hleads := leads_step hr h hb
      rw [Outcome.map_error_iff.mp hstop] at hleads
      obtain ⟨e, -, hmeans⟩ := hleads
      exact ⟨e, hmeans⟩
  refine ⟨fun hcloses => ?_, fun b hb hbracket stop hstop => ?_, fun place hstop => ?_, fun start stop hstop => ?_⟩
  · obtain ⟨before, front, rest, draft, h⟩ : ∃ before front rest draft,
        Tracks sc reader result st before front rest [] draft := by
      cases hb : byteAt? sc.text st.place with
      | none =>
        obtain ⟨before, front, draft, h⟩ := h.at_end hb
        exact ⟨before, front, [], draft, h⟩
      | some b =>
        have hreserved : isReserved (Char.ofUInt8 b) = true := by
          rcases hcloses b hb with hc | hc <;> rw [hc] <;> rfl
        obtain ⟨before, front, rest, draft, h⟩ := h.next_reserved hb hreserved
        exact ⟨before, front, _, draft, h⟩
    exact ⟨h.whole, fun path hpath hne => segment_of_turn hcloses (h.shows.held hne) hne hpath⟩
  · obtain ⟨before, front, rest, draft, h⟩ := h.next_reserved hb (by rw [hbracket]; rfl)
    rw [hbracket] at h
    have hbehind := h.splits_bracket
    rw [Option.mem_def, bracketEnd?_of_splits hbehind] at hstop
    obtain ⟨⟨raw, behind⟩, hs, rfl⟩ := Option.map_eq_some_iff.mp hstop
    rw [eq_append_of_splitBracket hs] at hbehind
    exact ⟨Nat.le_add_right _ _, hbehind.append.le, hbehind.isValid, hbehind.append.isValid⟩
  · obtain ⟨e, hmeans⟩ := hturn _ hstop
    obtain ⟨c, hc, rfl⟩ := hmeans
    exact ⟨c, hc, fault_of_means ⟨c, hc, rfl⟩⟩
  · obtain ⟨e, hmeans⟩ := hturn _ hstop
    cases hmeans

/-- Scanning the bytes of a text that begins `offset` bytes into a larger one, at a depth of brackets, breaks no
    character in any state that it comes to, and gives what reading the characters gives. -/
theorem aligned_of_reached {offset depth : Nat} {text : String} {st : State (Inside depth)}
    (h : (scannerAt offset text depth).Reached st) :
    (scannerAt offset text depth).Aligned st ∧
      parseAt offset depth text = (Query.parseAt offset depth text).mapError .refused :=
  ⟨aligned_of_follows (readsAlike_at offset text depth) (follows_of_reached (readsAlike_at offset text depth) h),
    parseAt_eq offset depth text⟩

/-- Behind an escaped letter of two bytes a token is closed, and behind that stands a bracket with one of three. -/
theorem aligned_of_reached_letters :
    ∃ st, (scannerAt 7 "\\é.[€]" 0).Reached st ∧ st.place = 3 ∧ st.token.bytes = [0xC3, 0xA9] ∧
      (scannerAt 7 "\\é.[€]" 0).Closes st ∧ (scannerAt 7 "\\é.[€]" 0).Aligned st ∧
      parseAt 7 0 "\\é.[€]" = (Query.parseAt 7 0 "\\é.[€]").mapError .refused := by
  have hreached : (scannerAt 7 "\\é.[€]" 0).Reached
      { place := 3, token := { bytes := [0xC3, 0xA9], escaped := true } } :=
    .step (b := 0xA9) (.step (b := 0x5C) .start rfl rfl) rfl rfl
  refine ⟨_, hreached, rfl, rfl, fun b hb => ?_, aligned_of_reached hreached⟩
  cases hb
  exact Or.inl rfl

end Scan

end TreeQuery
