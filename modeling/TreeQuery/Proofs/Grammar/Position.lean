import TreeQuery.Proofs.Grammar.Display
import TreeQuery.Proofs.Grammar.Offset

/-! # Where refusals point

A refusal that names a position names the character that begins there, and one that says what it conflicts with names
a character before it (`Query.parseAt_located`). What stands in the way of a command may be written in an earlier
token, so the reader is followed together with the text that it has behind it (`Progress.Reads`). -/

namespace TreeQuery

variable {σ : Type} {reader : BracketReader σ} {seen written : Commands} {after : Option Separator}
  {front text rest : List Char} {offset position : Nat} {c d : Char} {earlier : List Char} {e : ParseError}
  {pr : Progress} {t : Token}

/-! ### Pointing into a text -/

/-- The character `c` stands in a text that begins at `offset`, and before it the characters `earlier`. -/
def Stands (text : List Char) (offset : Nat) (c : Char) (position : Nat) (earlier : List Char) : Prop :=
  ∃ before behind, text = before ++ c :: behind ∧ position = offset + byteLength before ∧ ∀ d ∈ earlier, d ∈ before

/-- What a refusal names stands in the text. -/
def ParseError.PointsInto (text : List Char) (offset : Nat) : ParseError → Prop
  | unexpectedToken c position | duplicated c position => Stands text offset c position []
  | conflicting c other position => Stands text offset c position [other]
  | empty | unexpectedSegments _ | tooDeep _ | indexOverflow _ | notWritable _ => True

theorem stands_behind (h : ∀ d ∈ earlier, d ∈ front) :
    Stands (front ++ c :: rest) offset c (offset + byteLength front) earlier := ⟨front, rest, rfl, rfl, h⟩

theorem stands_head : Stands (c :: rest) offset c offset [] := ⟨[], rest, rfl, rfl, nofun⟩

theorem Stands.within (h : Stands text (offset + byteLength front) c position earlier) (behind : List Char) :
    Stands (front ++ text ++ behind) offset c position earlier := by
  obtain ⟨before, rest, rfl, rfl, hearlier⟩ := h
  refine ⟨front ++ before, rest ++ behind, by simp, ?_, fun d hd => List.mem_append_right front (hearlier d hd)⟩
  rw [byteLength_append, Nat.add_assoc]

theorem ParseError.PointsInto.within (h : e.PointsInto text (offset + byteLength front)) (behind : List Char) :
    e.PointsInto (front ++ text ++ behind) offset := by
  cases e with
  | unexpectedToken | duplicated | conflicting => exact Stands.within h behind
  | empty | unexpectedSegments | tooDeep | indexOverflow | notWritable => trivial

theorem ParseError.PointsInto.behind (h : e.PointsInto text position) (front : List Char)
    (hp : position = offset + byteLength front) : e.PointsInto (front ++ text) offset := by
  subst hp
  have hwithin := h.within []
  rwa [List.append_nil] at hwithin

theorem ParseError.PointsInto.append (h : e.PointsInto text offset) (behind : List Char) :
    e.PointsInto (text ++ behind) offset := by
  rw [← List.nil_append text]
  exact within h behind

/-! ### One token -/

/-- The commands of a set are written in a text. -/
def Commands.WrittenIn (s : Commands) (text : List Char) : Prop := ∀ c, s.has c = true → c.symbol ∈ text

theorem Commands.writtenIn_empty (text : List Char) : Commands.WrittenIn {} text := by
  intro c hc
  cases c <;> cases hc

theorem Commands.WrittenIn.append (h : seen.WrittenIn front) (rest : List Char) : seen.WrittenIn (front ++ rest) :=
  fun c hc => List.mem_append_left rest (h c hc)

theorem Commands.WrittenIn.union (hs : seen.WrittenIn front) (hw : written.WrittenIn front) :
    (seen.union written).WrittenIn front := by
  intro c hc
  rw [Commands.has_union, Bool.or_eq_true] at hc
  rcases hc with hc | hc
  · exact hs c hc
  · exact hw c hc

theorem Commands.WrittenIn.insert (h : written.WrittenIn front) (c : Command) :
    (written.insert c).WrittenIn (front ++ [c.symbol]) := by
  intro d hd
  rw [Commands.has_insert, Bool.or_eq_true, decide_eq_true_iff] at hd
  rcases hd with rfl | hd
  · exact List.mem_append_right front List.mem_cons_self
  · exact List.mem_append_left _ (h d hd)

theorem Commands.has_of_first? {s : Commands} {c : Command} (h : s.first? = some c) : s.has c = true :=
  List.find?_some h

theorem Command.has_of_has_conflicts {c d : Command} (h : (c.conflicts seen written).has d = true) :
    (seen.union written).has d = true := by
  cases c <;> cases d <;> simp_all [Command.conflicts, Commands.has, Commands.union, Commands.inter]

theorem Command.byteLength_symbol (c : Command) : byteLength [c.symbol] = 1 := by
  cases c <;> rfl

section
variable (hseen : seen.WrittenIn front) (hwritten : written.WrittenIn front)
include hseen hwritten

theorem Command.refusal?_points {c : Command} (hafter : ∀ s ∈ after, s.symbol ∈ front)
    (h : c.refusal? seen written after (offset + byteLength front) = some e) (rest : List Char) :
    e.PointsInto (front ++ c.symbol :: rest) offset := by
  unfold Command.refusal? at h
  split at h
  · cases h
    exact stands_behind nofun
  · split at h
    · rename_i separator hsep
      cases h
      have hmem : separator ∈ after := by
        split at hsep
        · exact hsep
        · cases hsep
      exact stands_behind fun d hd => List.mem_singleton.mp hd ▸ hafter separator hmem
    · obtain ⟨other, hother, rfl⟩ := Option.map_eq_some_iff.mp h
      have hhas := Command.has_of_has_conflicts (Commands.has_of_first? hother)
      exact stands_behind fun d hd => List.mem_singleton.mp hd ▸ hseen.union hwritten other hhas

theorem readCommands_points (hafter : ∀ s ∈ after, s.symbol ∈ front)
    (h : readCommands seen after written (offset + byteLength front) text = .error e) :
    e.PointsInto (front ++ text) offset := by
  induction text generalizing front written with
  | nil => cases h
  | cons c rest ih =>
    rw [readCommands] at h
    split at h
    · cases h
    · rename_i command hcommand
      obtain rfl := Commands.symbol_of_ofSymbol? hcommand
      split at h
      · rename_i hrefusal
        cases h
        exact Command.refusal?_points hseen hwritten hafter hrefusal rest
      · have hposition : offset + byteLength front + 1 = offset + byteLength (front ++ [command.symbol]) := by
          rw [byteLength_append, command.byteLength_symbol, Nat.add_assoc]
        rw [hposition] at h
        have hrest := ih (hseen.append _) (hwritten.insert command) (fun s hs => List.mem_append_left _ (hafter s hs)) h
        rwa [List.append_assoc, List.singleton_append] at hrest

omit hseen in
theorem readCommands_ok_reads {s : Commands}
    (h : readCommands seen after written (offset + byteLength front) text = .ok (s, position, rest)) :
    ∃ run, text = run ++ rest ∧ position = offset + byteLength (front ++ run) ∧ s.WrittenIn (front ++ run) := by
  induction text generalizing front written with
  | nil =>
    cases h
    exact ⟨[], rfl, by rw [List.append_nil], by rwa [List.append_nil]⟩
  | cons c text ih =>
    rw [readCommands] at h
    split at h
    · cases h
      exact ⟨[], rfl, by rw [List.append_nil], by rwa [List.append_nil]⟩
    · rename_i command hcommand
      obtain rfl := Commands.symbol_of_ofSymbol? hcommand
      split at h
      · cases h
      · have hposition : offset + byteLength front + 1 = offset + byteLength (front ++ [command.symbol]) := by
          rw [byteLength_append, command.byteLength_symbol, Nat.add_assoc]
        rw [hposition] at h
        obtain ⟨run, rfl, hbehind, hs⟩ := ih (hwritten.insert command) h
        rw [List.append_assoc, List.singleton_append] at hbehind hs
        exact ⟨command.symbol :: run, rfl, hbehind, hs⟩

end

theorem readName_points (h : readName position text = .error e) : e.PointsInto text position := by
  fun_induction readName position text with
  | case1 => cases h
  | case2 position c rest ih =>
    rcases Outcome.bind_error_iff.mp h with h | ⟨_, -, h⟩
    · exact (ih h).behind ['\\', c] (Nat.add_assoc position 1 c.utf8Size)
    · cases h
  | case3 position c rest _ _ =>
    cases h
    exact stands_head
  | case4 position c rest _ _ ih =>
    rcases Outcome.bind_error_iff.mp h with h | ⟨_, -, h⟩
    · exact (ih h).behind [c] rfl
    · cases h

theorem expectEnd_points (h : expectEnd position text = .error e) : e.PointsInto text position := by
  cases text with
  | nil => cases h
  | cons c rest =>
    cases h
    exact stands_head

/-- What the reader of brackets refuses in the text of a bracket is pointed at there. -/
def BracketReader.Points (reader : BracketReader σ) : Prop :=
  ∀ read ∈ reader, ∀ position raw e, read position raw = .error e → e.PointsInto raw position

theorem readBracket_points (hr : reader.Points) (hwritten : written.WrittenIn front)
    (h : readBracket reader written (offset + byteLength front) text = .error e) :
    e.PointsInto (front ++ '[' :: text) offset := by
  unfold readBracket at h
  split at h
  · rename_i ha
    cases h
    exact stands_behind fun d hd => List.mem_singleton.mp hd ▸ hwritten .append ha
  · cases reader with
    | none =>
      cases h
      trivial
    | some read =>
      cases hsplit : splitBracket text with
      | none =>
        rw [hsplit] at h
        cases h
        exact stands_behind nofun
      | some parts =>
        obtain ⟨raw, behind⟩ := parts
        obtain rfl := eq_append_of_splitBracket hsplit
        simp only [hsplit] at h
        rcases Outcome.bind_error_iff.mp h with h | ⟨_, -, h⟩
        · have hraw : e.PointsInto (['['] ++ raw ++ ']' :: behind) (offset + byteLength front) :=
            (hr read rfl _ raw e h).within (']' :: behind)
          exact hraw.behind front rfl
        · rcases Outcome.bind_error_iff.mp h with h | ⟨_, -, h⟩
          · have hlength : byteLength ('[' :: raw ++ [']']) = 1 + byteLength raw + 1 := by
              rw [byteLength_append]
              rfl
            have hbehind : e.PointsInto ('[' :: raw ++ [']'] ++ behind) (offset + byteLength front) :=
              (expectEnd_points h).behind _ (by omega)
            rw [List.append_assoc, List.singleton_append] at hbehind
            exact hbehind.behind front rfl
          · cases h

theorem readBody_points (hr : reader.Points) (hwritten : written.WrittenIn front)
    (h : readBody reader written (offset + byteLength front) text = .error e) :
    e.PointsInto (front ++ text) offset := by
  cases text with
  | nil => cases h
  | cons c rest =>
    rw [readBody] at h
    split at h
    · rename_i hc
      subst hc
      cases hfirst : written.first? with
      | some other =>
        rw [hfirst] at h
        cases h
        exact stands_behind fun d hd => List.mem_singleton.mp hd ▸ hwritten other (Commands.has_of_first? hfirst)
      | none =>
        simp only [hfirst] at h
        rcases Outcome.bind_error_iff.mp h with h | ⟨_, -, h⟩
        · exact ((expectEnd_points h).behind ['#'] rfl).behind front rfl
        · cases h
    · split at h
      · rename_i hc
        subst hc
        exact readBracket_points hr hwritten h
      · rcases Outcome.bind_error_iff.mp h with h | ⟨_, -, h⟩
        · exact (readName_points h).behind front rfl
        · cases h

/-- A name is reported at the character that it begins with. -/
theorem readBody_name {name : List Char} {first : Char} {i : Nat} {escaped : Bool}
    (h : readBody reader written position text = .ok (.name name first i escaped)) :
    i = position ∧ ∃ rest, text = first :: rest := by
  cases text with
  | nil => cases h
  | cons c rest =>
    rw [readBody] at h
    split at h
    · cases hfirst : written.first? with
      | some other =>
        rw [hfirst] at h
        cases h
      | none =>
        simp only [hfirst] at h
        obtain ⟨_, -, h⟩ := Outcome.bind_ok_iff.mp h
        cases h
    · split at h
      · unfold readBracket at h
        split at h
        · cases h
        · split at h
          · cases h
          · split at h
            · cases h
            · obtain ⟨_, -, h⟩ := Outcome.bind_ok_iff.mp h
              obtain ⟨_, -, h⟩ := Outcome.bind_ok_iff.mp h
              cases h
      · obtain ⟨_, -, h⟩ := Outcome.bind_ok_iff.mp h
        cases h
        exact ⟨rfl, rest, rfl⟩

/-- What a draft means is refused at the body that is missing or at the name that is too much. -/
theorem Draft.body_points {draft : Draft σ} {blankAt : Char × Nat} (hblank : Stands text offset blankAt.1 blankAt.2 [])
    (hname : ∀ name first i escaped, draft = .name name first i escaped → Stands text offset first i [])
    (h : draft.body written blankAt = .error e) : e.PointsInto text offset := by
  cases draft with
  | here | bracket => cases h
  | blank =>
    rw [Draft.body] at h
    split at h
    · cases h
    · cases h
      exact hblank
  | name name first i escaped =>
    rw [Draft.body] at h
    split at h
    · cases h
      exact hname name first i escaped rfl
    · split at h
      · split at h
        · cases h
        · cases h
          trivial
      · cases h

/-! ### All tokens -/

/-- The text of a token and the separator behind it. -/
def Token.source (t : Token) : List Char := t.text ++ t.closedBy.elim [] fun s => [s.symbol]

/-- What the progress knows when `front` has been read of a text that begins at `offset`. -/
structure Progress.Reads (pr : Progress) (offset : Nat) (front : List Char) : Prop where
  position : pr.position = offset + byteLength front
  seen : pr.seen.WrittenIn front
  after : ∀ s ∈ pr.after, ∃ before, front = before ++ [s.symbol]

theorem Progress.reads_start (offset : Nat) : Progress.Reads { position := offset } offset [] where
  position := rfl
  seen c hc := by cases c <;> cases hc
  after := nofun

theorem Progress.Reads.next {separator : Separator} (hp : pr.Reads offset front)
    (hw : written.WrittenIn (front ++ text)) :
    (pr.next written ⟨text, some separator⟩).Reads offset (front ++ Token.source ⟨text, some separator⟩) where
  position := by
    have hsymbol : byteLength [separator.symbol] = 1 := by cases separator <;> rfl
    simp only [Progress.next, Token.source, Option.elim_some, byteLength_append, hp.position, hsymbol]
    omega
  seen := by
    have hunion := ((hp.seen.append text).union hw).append [separator.symbol]
    rwa [List.append_assoc] at hunion
  after s hs := by
    obtain rfl : separator = s := Option.some.inj hs
    exact ⟨front ++ text, (List.append_assoc front text _).symm⟩

theorem Progress.Reads.blankAt (hp : pr.Reads offset front) (ht : t ≠ ⟨[], none⟩) :
    Stands (front ++ t.source) offset (pr.blankAt t).1 (pr.blankAt t).2 [] := by
  obtain ⟨text, closedBy⟩ := t
  cases closedBy with
  | some separator =>
    have hstands : Stands ((front ++ text) ++ [separator.symbol]) offset separator.symbol
        (offset + byteLength (front ++ text)) [] := stands_behind nofun
    rw [byteLength_append, ← Nat.add_assoc, ← hp.position, List.append_assoc] at hstands
    exact hstands
  | none =>
    cases text with
    | nil => exact absurd rfl ht
    | cons c rest =>
      rw [Progress.blankAt, hp.position]
      exact stands_behind nofun

theorem Progress.Reads.checkMove (hp : pr.Reads offset front) (hw : written.WrittenIn (front ++ t.text))
    (h : pr.checkMove written t = .error e) : e.PointsInto (front ++ t.source) offset := by
  obtain ⟨text, closedBy⟩ := t
  unfold Progress.checkMove at h
  split at h
  · rename_i hm
    obtain rfl : closedBy = some .move := hm
    split at h
    · rename_i hd
      cases h
      have hdelete : '!' ∈ front ++ text := (hp.seen.append text).union hw .delete hd
      have hstands : Stands ((front ++ text) ++ ['>']) offset '>' (offset + byteLength (front ++ text)) ['!'] :=
        stands_behind fun d hd => List.mem_singleton.mp hd ▸ hdelete
      rw [byteLength_append, ← Nat.add_assoc, ← hp.position, List.append_assoc] at hstands
      exact hstands
    · split at h
      · cases h
        trivial
      · cases h
  · cases h

theorem readToken_points (hr : reader.Points) (hp : pr.Reads offset front) (ht : t ≠ ⟨[], none⟩)
    (h : readToken reader pr t = .error e) : e.PointsInto (front ++ t.source) offset := by
  have hsource : front ++ t.source = front ++ t.text ++ t.closedBy.elim [] fun s => [s.symbol] :=
    (List.append_assoc front t.text _).symm
  have hempty : Commands.WrittenIn {} front := Commands.writtenIn_empty front
  have hafter : ∀ s ∈ pr.after, s.symbol ∈ front := by
    intro s hs
    obtain ⟨before, rfl⟩ := hp.after s hs
    exact List.mem_append_right before List.mem_cons_self
  rw [readToken, hp.position] at h
  rcases Outcome.bind_error_iff.mp h with h | ⟨⟨written, position, rest⟩, hcommands, h⟩
  · rw [hsource]
    exact (readCommands_points hp.seen hempty hafter h).append _
  obtain ⟨run, htext, rfl, hw⟩ := readCommands_ok_reads hempty hcommands
  have hfront : front ++ t.text = front ++ run ++ rest := by rw [htext, List.append_assoc]
  rcases Outcome.bind_error_iff.mp h with h | ⟨draft, hdraft, h⟩
  · rw [hsource, hfront]
    exact (readBody_points hr hw h).append _
  rcases Outcome.bind_error_iff.mp h with h | ⟨_, -, h⟩
  · exact hp.checkMove (hfront ▸ hw.append rest) h
  rcases Outcome.bind_error_iff.mp h with h | ⟨_, -, h⟩
  · refine Draft.body_points (hp.blankAt ht) ?_ h
    rintro name first i escaped rfl
    obtain ⟨rfl, behind, rfl⟩ := readBody_name hdraft
    rw [hsource, hfront, List.append_assoc]
    exact stands_behind (List.forall_mem_nil _)
  rcases Outcome.bind_error_iff.mp h with h | ⟨_, -, h⟩
  · unfold Progress.checkLength at h
    split at h
    · cases h
    · cases h
      trivial
  · cases h

/-- The commands of a segment are written in its token. -/
theorem readToken_commands {s : Segment σ} (hp : pr.Reads offset front) (h : readToken reader pr t = .ok s) :
    s.commands.WrittenIn (front ++ t.text) := by
  have hempty : Commands.WrittenIn {} front := Commands.writtenIn_empty front
  obtain ⟨position, rest, draft, hcommands, -⟩ := readToken_ok_iff_parts.mp h
  rw [hp.position] at hcommands
  obtain ⟨run, htext, -, hw⟩ := readCommands_ok_reads hempty hcommands
  rw [htext, ← List.append_assoc]
  exact hw.append rest

theorem Progress.Reads.checkEnd (hp : pr.Reads offset front) (h : pr.checkEnd = .error e) :
    e.PointsInto front offset := by
  unfold Progress.checkEnd at h
  split at h
  · cases h
    trivial
  · cases h
  · rename_i hmove
    cases h
    obtain ⟨before, rfl⟩ := hp.after .move hmove
    have hposition : pr.position - 1 = offset + byteLength before := by
      rw [hp.position, byteLength_append]
      rfl
    rw [hposition]
    exact stands_behind nofun

theorem readTokens_points (hr : reader.Points) {ts : List Token} (hts : Token.Chained ts)
    (hp : pr.Reads offset front) (h : readTokens reader pr ts = .error e) :
    e.PointsInto (front ++ Token.unsplit ts) offset := by
  -- Along the tokens, `front` growing by each of them with its separator.
  induction hts generalizing pr front with
  | last text =>
    have hsource : Token.unsplit [⟨text, none⟩] = Token.source ⟨text, none⟩ := List.append_nil _
    rw [readTokens] at h
    split at h
    · rcases Outcome.bind_error_iff.mp h with h | ⟨_, -, h⟩
      · exact (hp.checkEnd h).append _
      · cases h
    · rename_i hne
      rcases Outcome.bind_error_iff.mp h with h | ⟨s, -, h⟩
      · exact hsource ▸ readToken_points hr hp hne h
      · cases h
  | @cons text separator ts _ ih =>
    have hsource : front ++ Token.unsplit (⟨text, some separator⟩ :: ts) =
        front ++ Token.source ⟨text, some separator⟩ ++ Token.unsplit ts := (List.append_assoc front _ _).symm
    rw [readTokens, if_neg (by simp)] at h
    rw [hsource]
    rcases Outcome.bind_error_iff.mp h with h | ⟨s, hs, h⟩
    · exact (readToken_points hr hp (by simp) h).append _
    · rcases Outcome.bind_error_iff.mp h with h | ⟨_, -, h⟩
      · exact ih (hp.next (readToken_commands hp hs)) h
      · cases h

/-! ### Whole texts -/

theorem readPath_points (hr : reader.Points) (h : readPath reader offset text = .error e) :
    e.PointsInto text offset := by
  have hpoints := readTokens_points hr (Token.chained_split false text) (Progress.reads_start offset) h
  rwa [List.nil_append, Token.unsplit_split] at hpoints

theorem points_none : BracketReader.Points (none : BracketReader σ) := nofun

theorem points_readInner : BracketReader.Points (some readInner) := by
  rintro _ ⟨⟩ position raw e h
  rcases Outcome.bind_error_iff.mp h with h | ⟨path, -, h⟩
  · exact readPath_points points_none h
  · split at h
    · cases h
      trivial
    · cases h

/-- The character `c` begins at a byte of a text that itself begins at `offset`. -/
structure BeginsAt (text : String) (offset : Nat) (c : Char) (position : Nat) : Prop where
  le : offset ≤ position
  lt : position < offset + text.utf8ByteSize
  boundary : String.Pos.Raw.IsValid text ⟨position - offset⟩
  get? : String.Pos.Raw.get? text ⟨position - offset⟩ = some c

theorem utf8ByteSize_ofList (text : List Char) : (String.ofList text).utf8ByteSize = byteLength text := by
  induction text with
  | nil => rfl
  | cons c text ih =>
    rw [← List.singleton_append, String.ofList_append, String.utf8ByteSize_append, ih, byteLength_append]
    exact congrArg (· + byteLength text) String.utf8ByteSize_singleton

theorem utf8GetAux?_append (before behind : List Char) (c : Char) (i : Nat) :
    String.Pos.Raw.utf8GetAux? (before ++ c :: behind) ⟨i⟩ ⟨i + byteLength before⟩ = some c := by
  induction before generalizing i with
  | nil => exact if_pos rfl
  | cons d before ih =>
    have hne : (⟨i⟩ : String.Pos.Raw) ≠ ⟨i + byteLength (d :: before)⟩ := by
      intro heq
      have hidx : i = i + (d.utf8Size + byteLength before) := congrArg String.Pos.Raw.byteIdx heq
      have hpos := d.utf8Size_pos
      omega
    refine (if_neg hne).trans ?_
    rw [byteLength, ← Nat.add_assoc]
    exact ih (i + d.utf8Size)

theorem Stands.beginsAt {text : String} (h : Stands text.toList offset c position earlier) :
    BeginsAt text offset c position ∧ ∀ d ∈ earlier, ∃ place < position, BeginsAt text offset d place := by
  have hbegins : ∀ {c : Char} {before behind : List Char}, text.toList = before ++ c :: behind →
      BeginsAt text offset c (offset + byteLength before) := by
    intro c before behind htext
    have hofList : text = String.ofList before ++ String.ofList (c :: behind) := by
      rw [← String.ofList_append, ← htext, String.ofList_toList]
    have hback : offset + byteLength before - offset = byteLength before := Nat.add_sub_cancel_left _ _
    refine ⟨Nat.le_add_right _ _, ?_, ?_, ?_⟩
    · rw [hofList, String.utf8ByteSize_append, utf8ByteSize_ofList, utf8ByteSize_ofList, byteLength]
      have hpos := c.utf8Size_pos
      omega
    · rw [hback]
      refine String.Pos.Raw.isValid_iff_exists_append.mpr ⟨_, _, hofList, ?_⟩
      exact String.Pos.Raw.ext (utf8ByteSize_ofList before).symm
    · have hget := utf8GetAux?_append before behind c 0
      rw [Nat.zero_add, ← htext] at hget
      rw [hback]
      exact hget
  obtain ⟨before, behind, htext, rfl, hearlier⟩ := h
  refine ⟨hbegins htext, fun d hd => ?_⟩
  obtain ⟨front, rest, rfl⟩ := List.append_of_mem (hearlier d hd)
  have hplace : offset + byteLength front < offset + byteLength (front ++ d :: rest) := by
    rw [byteLength_append, byteLength]
    have hpos := d.utf8Size_pos
    omega
  have htext' : text.toList = front ++ d :: (rest ++ c :: behind) := by
    rw [htext, List.append_assoc, List.cons_append]
  exact ⟨_, hplace, hbegins htext'⟩

/-- What a refusal names is found in the text: the character at the position, and before it the one that it conflicts
    with. -/
def ParseError.Located (text : String) (offset : Nat) : ParseError → Prop
  | unexpectedToken c position | duplicated c position => BeginsAt text offset c position
  | conflicting c other position =>
    BeginsAt text offset c position ∧ ∃ place < position, BeginsAt text offset other place
  | empty | unexpectedSegments _ | tooDeep _ | indexOverflow _ | notWritable _ => True

theorem ParseError.PointsInto.located {text : String} (h : e.PointsInto text.toList offset) :
    e.Located text offset := by
  cases e with
  | unexpectedToken | duplicated => exact (Stands.beginsAt h).1
  | conflicting c other position =>
    obtain ⟨hbegins, hearlier⟩ := Stands.beginsAt h
    exact ⟨hbegins, hearlier other List.mem_cons_self⟩
  | empty | unexpectedSegments | tooDeep | indexOverflow | notWritable => trivial

namespace Query

theorem located_of_parseAt {text : String} {depth : Nat} (h : parseAt offset depth text = .error e) :
    e.Located text offset := by
  unfold parseAt at h
  split at h
  · rcases ofReading_error h with h | ⟨-, rfl⟩
    · exact (readPath_points points_readInner h).located
    · trivial
  · rcases ofReading_error h with h | ⟨-, rfl⟩
    · have hread : readPath (σ := Empty) none offset text.toList = .error e := by
        cases hread : readPath (σ := Empty) none offset text.toList with
        | error e' =>
          rw [hread] at h
          exact congrArg Except.error (Except.error.inj h)
        | ok path =>
          rw [hread] at h
          cases h
      exact (readPath_points points_none hread).located
    · trivial

/-- Where a text that begins at `offset` is refused with a position, the character named begins there, also in a
    bracket, and what it conflicts with stands before it. Another offset moves these positions and changes nothing
    else, and so does the dialect in front. -/
theorem parseAt_located (text : String) (offset depth : Nat) :
    (∀ e, parseAt offset depth text = .error e → e.Located text offset) ∧
      (∀ n, parseAt (offset + n) depth text = (parseAt offset depth text).mapError (.shift n)) ∧
      parse ("~giraffe1v1." ++ text) = (parseAt 0 0 text).mapError (.shift 12) := by
  have hdialect : "~giraffe1v1." = String.ofList dialectPrefix := String.ofList_toList.symm
  refine ⟨fun e => located_of_parseAt, fun n => parseAt_add offset n depth text, ?_⟩
  rw [hdialect]
  exact parse_dialect text

/-- In a bracket behind a letter of two bytes `$` is refused because of the `?` before it. -/
theorem parseAt_located_bracket :
    parseAt 7 0 "é.[?$b]" = .error (.conflicting '$' '?' 12) ∧ BeginsAt "é.[?$b]" 7 '$' 12 ∧
      ∃ place < 12, BeginsAt "é.[?$b]" 7 '?' place := by
  have hread : parseAt 7 0 "é.[?$b]" = .error (.conflicting '$' '?' 12) := rfl
  exact ⟨hread, (parseAt_located "é.[?$b]" 7 0).1 _ hread⟩

end Query

end TreeQuery
