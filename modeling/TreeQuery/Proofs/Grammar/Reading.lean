import TreeQuery.Proofs.Grammar.Tokens
import TreeQuery.Query.Basic

/-! # Reading is spelling

A text is read as a path exactly if it spells that path and the path is well-formed. While the tokens of a
text are read, the progress knows of the path so far what `Progress.Behind` says; one token is then read as
a segment exactly if it spells one that may stand there (`readToken_ok_iff`), and the rest of the tokens as
a path exactly if they spell one that continues it. -/

namespace TreeQuery

variable {σ : Type} {Inner : List Char → σ → Prop} {reader : BracketReader σ} {before p : Path σ}
  {s : Segment σ} {pr : Progress} {t : Token} {text : List Char}

/-! ### Progress -/

/-- The commands written in a path. -/
def Path.written (p : Path σ) : Commands := p.foldl (fun c s => c.union s.commands) {}

theorem Path.written_append_singleton : Path.written (p ++ [s]) = (Path.written p).union s.commands := by
  simp [Path.written]

/-- What some command of a set decides, some segment of a path decides for all that is written in it. -/
theorem Path.apply_written {f : Commands → Bool} (hempty : f {} = false)
    (hunion : ∀ c d, f (c.union d) = (f c || f d)) (p : Path σ) : f (Path.written p) = p.any fun s => f s.commands := by
  suffices h : ∀ start : Commands, f (p.foldl (fun c s => c.union s.commands) start) =
      (f start || p.any fun s => f s.commands) by
    rw [Path.written, h, hempty, Bool.false_or]
  induction p with
  | nil => exact fun start => (Bool.or_false _).symm
  | cons s rest ih =>
    intro start
    rw [List.foldl_cons, ih, hunion, List.any_cons, Bool.or_assoc]

/-- What the progress knows when the segments `before` have been read. -/
structure Progress.Behind (pr : Progress) (before : Path σ) : Prop where
  seen : pr.seen = Path.written before
  count : pr.count = before.length
  moved : pr.moved = Path.moves before
  after : pr.after = none ↔ before = []
  length_lt : before.length < maxLength

theorem Progress.behind_start (position : Nat) : Progress.Behind { position } ([] : Path σ) :=
  ⟨rfl, rfl, rfl, by simp, by simp [maxLength]⟩

theorem mayFollow_written {c : Commands} :
    Commands.MayFollow (Path.written before) c ↔ ∀ b ∈ before, Commands.MayFollow b.commands c := by
  suffices h : ∀ start : Commands, Commands.MayFollow (before.foldl (fun c s => c.union s.commands) start) c ↔
      Commands.MayFollow start c ∧ ∀ b ∈ before, Commands.MayFollow b.commands c by
    rw [Path.written, h]
    exact and_iff_right (Commands.mayFollow_empty c)
  induction before with
  | nil => simp
  | cons b rest ih =>
    intro start
    rw [List.foldl_cons, ih, Commands.mayFollow_union, List.forall_mem_cons, and_assoc]

theorem delete_written : (Path.written before).delete = false ↔ ∀ b ∈ before, b.commands.delete = false := by
  suffices h : ∀ start : Commands, (before.foldl (fun c s => c.union s.commands) start).delete = false ↔
      start.delete = false ∧ ∀ b ∈ before, b.commands.delete = false by
    rw [Path.written, h]
    exact and_iff_right rfl
  induction before with
  | nil => simp
  | cons b rest ih =>
    intro start
    rw [List.foldl_cons, ih, List.forall_mem_cons, ← and_assoc]
    simp [Commands.union]

/-! ### One token -/

theorem checkMove_ok_iff {written : Commands} :
    pr.checkMove written t = .ok () ↔
      (t.closedBy = some .move → pr.seen.delete = false ∧ written.delete = false ∧ pr.moved = false) := by
  unfold Progress.checkMove
  by_cases hm : t.closedBy = some .move
  · rw [if_pos hm]
    cases hd : pr.seen.delete <;> cases hw : written.delete <;> cases hv : pr.moved <;>
      simp [hm, hd, hw, Commands.union]
  · simp [hm]

theorem checkLength_ok_iff : pr.checkLength = .ok () ↔ pr.count + 1 < maxLength := by
  unfold Progress.checkLength
  split <;> simp_all

theorem readToken_ok_iff_parts :
    readToken reader pr t = .ok s ↔
      ∃ position rest draft, readCommands pr.seen pr.after {} pr.position t.text = .ok (s.commands, position, rest) ∧
        readBody reader s.commands position rest = .ok draft ∧ pr.checkMove s.commands t = .ok () ∧
        draft.body s.commands (pr.blankAt t) = .ok s.body ∧ pr.checkLength = .ok () ∧
        s.marker = (t.closedBy == some .move) := by
  unfold readToken
  constructor
  · intro h
    obtain ⟨⟨written, position, rest⟩, hc, h⟩ := Outcome.bind_ok_iff.mp h
    obtain ⟨draft, hd, h⟩ := Outcome.bind_ok_iff.mp h
    obtain ⟨_, hm, h⟩ := Outcome.bind_ok_iff.mp h
    obtain ⟨body, hb, h⟩ := Outcome.bind_ok_iff.mp h
    obtain ⟨_, hl, h⟩ := Outcome.bind_ok_iff.mp h
    obtain rfl := Outcome.pure_ok_iff.mp h
    exact ⟨position, rest, draft, hc, hd, hm, hb, hl, rfl⟩
  · rintro ⟨position, rest, draft, hc, hd, hm, hb, hl, hs⟩
    simp [hc, hd, hm, hb, hl, ← hs, bind, Except.bind, pure, Except.pure]

/-- Under what the progress knows, its checks say that a segment may follow the ones before it. -/
theorem Progress.Behind.checks_iff (hb : pr.Behind before) (hm : s.marker = (t.closedBy == some .move)) :
    (Commands.Admissible pr.seen pr.after s.commands ∧ pr.checkMove s.commands t = .ok ()) ↔
      s.commands.Compatible ∧ (s.marker = true → s.commands.delete = false) ∧
        ∀ b ∈ before, Segment.MayFollow b s := by
  have hmark : s.marker = true ↔ t.closedBy = some .move := by rw [hm, beq_iff_eq]
  rw [checkMove_ok_iff, ← hmark, hb.seen, delete_written, hb.moved]
  constructor
  · rintro ⟨⟨hc, hf, hd⟩, hmove⟩
    rw [hb.after] at hd
    refine ⟨hc, fun h => (hmove h).2.1, fun b hbm => ⟨mayFollow_written.mp hf b hbm, ?_, fun h => ⟨?_, ?_⟩⟩⟩
    · refine Bool.eq_false_iff.mpr fun h => ?_
      rw [hd h] at hbm
      cases hbm
    · exact (hmove h).1 b hbm
    · exact Path.any_eq_false_iff.mp (hmove h).2.2 b hbm
  · rintro ⟨hc, hd, hf⟩
    refine ⟨⟨hc, mayFollow_written.mpr fun b hbm => (hf b hbm).commands, fun h => hb.after.mpr ?_⟩,
      fun h => ⟨?_, hd h, ?_⟩⟩
    · refine List.eq_nil_iff_forall_not_mem.mpr fun b hbm => ?_
      rw [(hf b hbm).delete] at h
      cases h
    · exact fun b hbm => ((hf b hbm).marker h).1
    · exact Path.any_eq_false_iff.mpr fun b hbm => ((hf b hbm).marker h).2

/-- A token that spells a segment which may stand there is read as it, unless the path is too long then. -/
theorem readToken_of_spelledBy (hr : Understands reader Inner) (hb : pr.Behind before) (hspell : s.SpelledBy t.text)
    (hm : s.marker = (t.closedBy == some .move)) (hl : s.Lawful Inner) (hfollow : ∀ b ∈ before, Segment.MayFollow b s) :
    readToken reader pr t = pr.checkLength.map fun _ => s := by
  obtain ⟨front, rest, hfront, hback, htext⟩ := hspell
  obtain ⟨hadm, hmove⟩ := (hb.checks_iff hm).mpr ⟨hl.compatible, hl.marker, hfollow⟩
  obtain ⟨draft, hdraft, hbody⟩ :=
    draftOf_of_spelledBy hback hl.body hl.fits (pr.position + front.length) (pr.blankAt t)
  have hcommands : readCommands pr.seen pr.after {} pr.position t.text =
      .ok (s.commands, pr.position + front.length, rest) :=
    Commands.readCommands_ok_iff.mpr ⟨front, hfront, htext, hback.noCommand hl.body, hadm, rfl⟩
  simp only [readToken, hcommands, readBody_of_draftOf hr hdraft, hmove, hbody, ← hm, bind, Except.bind]
  cases pr.checkLength <;> rfl

/-- A token is read as a segment exactly if it spells it and the segment may stand there. -/
theorem readToken_ok_iff (hr : Understands reader Inner) (hb : pr.Behind before) :
    readToken reader pr t = .ok s ↔
      s.SpelledBy t.text ∧ s.marker = (t.closedBy == some .move) ∧ s.Lawful Inner ∧
        (∀ b ∈ before, Segment.MayFollow b s) ∧ before.length + 1 < maxLength := by
  have hlength : pr.checkLength = .ok () ↔ before.length + 1 < maxLength := by rw [checkLength_ok_iff, hb.count]
  constructor
  · intro h
    obtain ⟨position, rest, draft, hc, hd, hmove, hbody, hlen, hm⟩ := readToken_ok_iff_parts.mp h
    obtain ⟨front, hfront, htext, -, hadm, -⟩ := Commands.readCommands_ok_iff.mp hc
    obtain ⟨hback, hw, hfits⟩ := spelledBy_of_draftOf (draftOf_of_readBody hr hd) hbody
    obtain ⟨hcomp, hdel, hfollow⟩ := (hb.checks_iff hm).mp ⟨hadm, hmove⟩
    exact ⟨⟨front, rest, hfront, hback, htext⟩, hm, ⟨hw, hfits, hcomp, hdel⟩, hfollow, hlength.mp hlen⟩
  · rintro ⟨hspell, hm, hl, hfollow, hlen⟩
    rw [readToken_of_spelledBy hr hb hspell hm hl hfollow, hlength.mpr hlen]
    rfl

theorem Progress.Behind.next (hb : pr.Behind before) (hm : s.marker = (t.closedBy == some .move))
    (hsep : t.closedBy ≠ none) (hl : before.length + 1 < maxLength) :
    (pr.next s.commands t).Behind (before ++ [s]) where
  seen := by rw [Path.written_append_singleton, ← hb.seen]; rfl
  count := by simp [Progress.next, hb.count]
  moved := by simp [Progress.next, hb.moved, Path.moves, hm]
  after := by simpa [Progress.next] using hsep
  length_lt := by simpa using hl

theorem Progress.Behind.checkLength_ok (hb : pr.Behind before) (hlen : before.length + 1 < maxLength) :
    pr.checkLength = .ok () := checkLength_ok_iff.mpr (hb.count.symm ▸ hlen)

theorem Progress.Behind.checkLength_error (hb : pr.Behind before) (hlen : maxLength ≤ before.length + 1) :
    pr.checkLength = .error (.tooDeep maxLength) := if_neg (Nat.not_lt.mpr (hb.count.symm ▸ hlen))

theorem Segment.SpelledBy.ne_nil (h : s.SpelledBy text) (hw : s.body.WellFormed Inner)
    (ha : s.body = .append → s.commands.append = true) : text ≠ [] := by
  rintro rfl
  obtain ⟨front, back, ⟨order, -, hmem, -, rfl⟩, hb, htext⟩ := h
  obtain ⟨hfront, rfl⟩ := List.append_eq_nil_iff.mp htext.symm
  obtain rfl := List.map_eq_nil_iff.mp hfront
  have hbody : s.body = .append := by
    cases hbody : s.body with
    | field name =>
      rw [hbody] at hb
      cases hb.2
    | index digits =>
      rw [hbody] at hb hw
      exact absurd hb.symm hw.1
    | here =>
      rw [hbody] at hb
      cases hb
    | append => rfl
    | bracket raw inner =>
      rw [hbody] at hb
      cases hb
  exact absurd ((hmem .append).mpr (ha hbody)) (by simp)

/-! ### All tokens -/

/-- A path that is read is spelled by its tokens and continues what is before it. Where there is no
    segment, the text ends behind a `.`. -/
theorem spelledBy_of_readTokens (hr : Understands reader Inner) {ts : List Token} (hts : Token.Chained ts)
    (hb : pr.Behind before) (h : readTokens reader pr ts = .ok p) :
    Path.Continues Inner before p ∧
      (p = [] ∧ ts = [⟨[], none⟩] ∧ pr.after = some .step ∨ Path.SpelledBy p (Token.unsplit ts)) := by
  -- Along the tokens; `hb` is what one token hands to the next, `before` growing by its segment.
  induction hts generalizing pr before p with
  | last text =>
    rw [readTokens] at h
    split at h
    · rename_i hend
      obtain ⟨_, hend', h⟩ := Outcome.bind_ok_iff.mp h
      obtain rfl := Outcome.pure_ok_iff.mp h
      refine ⟨continues_nil hb.length_lt, Or.inl ⟨rfl, by rw [hend], ?_⟩⟩
      unfold Progress.checkEnd at hend'
      split at hend' <;> simp_all
    · obtain ⟨s, hs, h⟩ := Outcome.bind_ok_iff.mp h
      obtain ⟨rest, hrest, h⟩ := Outcome.bind_ok_iff.mp h
      obtain rfl := Outcome.pure_ok_iff.mp h
      obtain rfl : rest = [] := by simpa [readTokens, eq_comm] using hrest
      obtain ⟨hspell, hm, hl, hfollow, hlen⟩ := (readToken_ok_iff hr hb).mp hs
      refine ⟨continues_cons.mpr ⟨hl, hfollow, continues_nil (by simpa using hlen)⟩, Or.inr ?_⟩
      simpa [Token.unsplit] using Path.SpelledBy.last hspell (by simpa using hm)
  | @cons text separator ts hts ih =>
    rw [readTokens, if_neg (by simp)] at h
    obtain ⟨s, hs, h⟩ := Outcome.bind_ok_iff.mp h
    obtain ⟨rest, hrest, h⟩ := Outcome.bind_ok_iff.mp h
    obtain rfl := Outcome.pure_ok_iff.mp h
    obtain ⟨hspell, hm, hl, hfollow, hlen⟩ := (readToken_ok_iff hr hb).mp hs
    obtain ⟨hcont, hend⟩ := ih (hb.next hm (by simp) hlen) hrest
    refine ⟨continues_cons.mpr ⟨hl, hfollow, hcont⟩, Or.inr ?_⟩
    rcases hend with ⟨rfl, rfl, hstep⟩ | hrest
    · obtain rfl : separator = .step := by simpa [Progress.next] using hstep
      simpa [Token.unsplit, Separator.symbol] using Path.SpelledBy.dotted hspell hm
    · have hsep : s.separator = separator.symbol := by
        cases separator <;> simp [Segment.separator, Separator.symbol, hm]
      simpa [Token.unsplit, hsep] using Path.SpelledBy.cons hspell hrest

/-- The separator behind a segment. -/
def Segment.closing (s : Segment σ) : Separator := if s.marker then .move else .step

theorem Segment.closing_symbol : s.closing.symbol = s.separator := by
  unfold Segment.closing Segment.separator
  split <;> rfl

theorem Segment.closing_eq_move : s.marker = (some s.closing == some .move) := by
  unfold Segment.closing
  cases s.marker <;> rfl

section
variable (hr : Understands reader Inner) (hb : pr.Behind before) (hspell : s.SpelledBy text) (hl : s.Lawful Inner)
  (hfollow : ∀ b ∈ before, Segment.MayFollow b s)
include hr hb hspell hl hfollow

/-- A segment in front of others that may stand there is read, unless the path is too long then. -/
theorem readTokens_front (rest : List Char) :
    readTokens reader pr (Token.split false (text ++ s.separator :: rest)) = (do
      pr.checkLength
      (readTokens reader (pr.next s.commands ⟨text, some s.closing⟩) (Token.split false rest)).map (s :: ·)) := by
  rw [← Segment.closing_symbol, Token.split_solid (hspell.solid hl.body hr.enclosed), readTokens, if_neg (by simp),
    readToken_of_spelledBy hr hb hspell Segment.closing_eq_move hl hfollow]
  cases pr.checkLength <;> rfl

theorem readTokens_single (hm : s.marker = false) :
    readTokens reader pr (Token.split false text) = pr.checkLength.map fun _ => [s] := by
  have hne : text ≠ [] := hspell.ne_nil hl.body hl.fits.append.mpr
  rw [Token.split_solid_end (hspell.solid hl.body hr.enclosed), readTokens, if_neg (by simp [hne]),
    readToken_of_spelledBy hr hb hspell hm hl hfollow]
  cases pr.checkLength <;> rfl

theorem readTokens_cons (hlen : before.length + 1 < maxLength) (rest : List Char) :
    readTokens reader pr (Token.split false (text ++ s.separator :: rest)) =
      (readTokens reader (pr.next s.commands ⟨text, some s.closing⟩) (Token.split false rest)).map (s :: ·) := by
  rw [readTokens_front hr hb hspell hl hfollow, hb.checkLength_ok hlen, Outcome.ok_bind]

end

theorem readTokens_of_spelledBy (hr : Understands reader Inner) (hb : pr.Behind before)
    (h : Path.SpelledBy p text) (hc : Path.Continues Inner before p) :
    readTokens reader pr (Token.split false text) = .ok p := by
  -- Along the spelling, with the same progress as the reader has when it comes there.
  induction h generalizing pr before with
  | @last s text hspell hm =>
    obtain ⟨hl, hfollow, hrest⟩ := continues_cons.mp hc
    rw [readTokens_single hr hb hspell hl hfollow hm, hb.checkLength_ok hrest.front_lt]
    rfl
  | @dotted s text hspell hm =>
    obtain ⟨hl, hfollow, hrest⟩ := continues_cons.mp hc
    have hsep : s.separator = '.' := by simp [Segment.separator, hm]
    rw [← hsep, readTokens_cons hr hb hspell hl hfollow hrest.front_lt]
    simp [Token.split, readTokens, Progress.checkEnd, Progress.next, Segment.closing, hm, Except.map, bind,
      Except.bind, pure, Except.pure]
  | @cons s text p rest hspell _ ih =>
    obtain ⟨hl, hfollow, hrest⟩ := continues_cons.mp hc
    have hnext := hb.next (t := ⟨text, some s.closing⟩) Segment.closing_eq_move (by simp) hrest.front_lt
    rw [readTokens_cons hr hb hspell hl hfollow hrest.front_lt, ih hnext hrest]
    rfl

/-! ### Paths that are too long -/

theorem readTokens_tooLong_here (hr : Understands reader Inner) (hb : pr.Behind before) (hspell : s.SpelledBy text)
    (hl : s.Lawful Inner) (hfollow : ∀ b ∈ before, Segment.MayFollow b s) (hlen : maxLength ≤ before.length + 1)
    (rest : List Char) :
    readTokens reader pr (Token.split false (text ++ s.separator :: rest)) = .error (.tooDeep maxLength) := by
  rw [readTokens_front hr hb hspell hl hfollow, hb.checkLength_error hlen]
  rfl

/-- A path that obeys all rules but the one on its length is refused for its length. -/
theorem readTokens_tooLong (hr : Understands reader Inner) (hb : pr.Behind before) (h : Path.SpelledBy p text)
    (hl : ∀ s ∈ p, s.Lawful Inner) (hfollow : ∀ b ∈ before, ∀ s ∈ p, Segment.MayFollow b s)
    (hp : p.Pairwise Segment.MayFollow) (hlen : maxLength ≤ before.length + p.length) :
    readTokens reader pr (Token.split false text) = .error (.tooDeep maxLength) := by
  -- Along the spelling, up to the segment that is one too many.
  induction h generalizing pr before with
  | @last s text hspell hm =>
    rw [List.forall_mem_singleton] at hl
    simp only [List.forall_mem_singleton] at hfollow
    rw [readTokens_single hr hb hspell hl hfollow hm, hb.checkLength_error hlen]
    rfl
  | @dotted s text hspell hm =>
    rw [List.forall_mem_singleton] at hl
    simp only [List.forall_mem_singleton] at hfollow
    have hsep : s.separator = '.' := by simp [Segment.separator, hm]
    exact hsep ▸ readTokens_tooLong_here hr hb hspell hl hfollow hlen []
  | @cons s text p rest hspell _ ih =>
    rw [List.forall_mem_cons] at hl
    obtain ⟨hs, hp⟩ := List.pairwise_cons.mp hp
    have hfollows : ∀ b ∈ before, Segment.MayFollow b s := fun b hb => hfollow b hb s List.mem_cons_self
    by_cases hlength : before.length + 1 < maxLength
    · have hnext : ∀ b ∈ before ++ [s], ∀ t ∈ p, Segment.MayFollow b t := by
        intro b hb t ht
        rcases List.mem_append.mp hb with hb | hb
        · exact hfollow b hb t (List.mem_cons_of_mem s ht)
        · exact List.mem_singleton.mp hb ▸ hs t ht
      have hrest : maxLength ≤ (before ++ [s]).length + p.length := by
        rw [List.length_append, List.length_singleton, Nat.add_assoc, Nat.add_comm 1]
        exact hlen
      rw [readTokens_cons hr hb hspell hl.1 hfollows hlength]
      rw [ih (hb.next Segment.closing_eq_move (by simp) hlength) hl.2 hnext hp hrest]
      rfl
    · exact readTokens_tooLong_here hr hb hspell hl.1 hfollows (Nat.not_lt.mp hlength) rest

/-! ### Whole texts -/

theorem Path.SpelledBy.ne_nil (h : Path.SpelledBy p text) : p ≠ [] := by
  cases h <;> simp

theorem Path.SpelledBy.last_unmarked (h : Path.SpelledBy p text) : ∀ s ∈ p.getLast?, s.marker = false := by
  induction h with
  | last _ hm => simpa using hm
  | dotted _ hm => simpa using hm
  | cons _ hrest ih =>
    obtain ⟨t, ts, rfl⟩ := List.exists_cons_of_ne_nil hrest.ne_nil
    simpa [List.getLast?_cons_cons] using ih

theorem readPath_ok_iff (hr : Understands reader Inner) {position : Nat} :
    readPath reader position text = .ok p ↔ Path.WellFormed Inner p ∧ Path.SpelledBy p text := by
  unfold readPath
  constructor
  · intro h
    obtain ⟨hc, ⟨-, -, hstep⟩ | hspell⟩ :=
      spelledBy_of_readTokens hr (Token.chained_split false text) (Progress.behind_start position) h
    · cases hstep
    · rw [Token.unsplit_split] at hspell
      exact ⟨hc.wellFormed hspell.ne_nil hspell.last_unmarked, hspell⟩
  · rintro ⟨hw, hspell⟩
    exact readTokens_of_spelledBy hr (Progress.behind_start position) hspell hw.continues

theorem understands_none : Understands (none : BracketReader σ) NoBracket :=
  ⟨fun _ _ _ => by simp [NoBracket], fun _ _ h => h.elim⟩

theorem readInner_ok_iff {position : Nat} {raw : List Char} {inner : PlainPath} :
    readInner position raw = .ok inner ↔ Bracketed raw inner := by
  unfold readInner
  constructor
  · intro h
    obtain ⟨path, hp, h⟩ := Outcome.bind_ok_iff.mp h
    obtain ⟨hw, hspell⟩ := (readPath_ok_iff understands_none).mp hp
    split at h
    · cases h
    · rename_i hplain
      obtain rfl := Outcome.pure_ok_iff.mp h
      simp only [Bool.or_eq_true, not_or, Bool.not_eq_true] at hplain
      exact ⟨hw, hspell, hplain.1, hplain.2⟩
  · rintro ⟨hw, hspell, hwr, hmv⟩
    rw [(readPath_ok_iff understands_none).mpr ⟨hw, hspell⟩]
    simp [hwr, hmv, bind, Except.bind, pure, Except.pure]

theorem understands_readInner : Understands (some readInner) Bracketed :=
  ⟨fun _ _ _ => by simp [readInner_ok_iff], fun _ _ h => h.2.1.enclosed fun _ => h.1.lawful⟩

theorem readOuter_ok_iff {position : Nat} {p : Path PlainPath} :
    readOuter position text = .ok p ↔ Path.WellFormed Bracketed p ∧ Path.SpelledBy p text :=
  readPath_ok_iff understands_readInner

/-- A character that can stand at the front of no token is refused there. -/
theorem readTokens_refuse {c : Char} (hc : c = '@' ∨ c = '~') (rest : List Char) :
    readTokens reader pr (Token.split false (c :: rest)) = .error (.unexpectedToken c pr.position) := by
  have hsolid : Token.Solid [c] := by
    rcases hc with rfl | rfl <;>
      exact Token.solid_of_not_special (by decide) (by decide) (by decide) (by decide)
  have htokens : Token.split false (c :: rest) = Token.prepend [c] (Token.split false rest) := hsolid rest
  obtain ⟨t, ts, hts⟩ := List.exists_cons_of_ne_nil (Token.split_ne_nil false rest)
  have htoken : readToken reader pr ⟨c :: t.text, t.closedBy⟩ = .error (.unexpectedToken c pr.position) := by
    rcases hc with rfl | rfl <;> rfl
  rw [htokens, hts]
  simp [Token.prepend, readTokens, htoken, bind, Except.bind]

theorem not_spelledBy_tilde {p : Path PlainPath} (hw : Path.WellFormed Bracketed p) {rest : List Char} :
    ¬Path.SpelledBy p ('~' :: rest) := fun h => by
  have hread : readOuter 0 ('~' :: rest) = .ok p := readOuter_ok_iff.mpr ⟨hw, h⟩
  rw [readOuter, readPath, readTokens_refuse (Or.inr rfl)] at hread
  cases hread

theorem readSpec_ok_iff {p : Path PlainPath} :
    readSpec text = .ok p ↔ Path.WellFormed Bracketed p ∧ Path.SpelledByQuery p text := by
  unfold readSpec
  by_cases hpre : dialectPrefix.isPrefixOf text = true
  · obtain ⟨rest, rfl⟩ := List.isPrefixOf_iff_prefix.mp hpre
    rw [if_pos hpre, List.drop_left, readOuter_ok_iff]
    refine and_congr_right fun hw => ⟨fun h => Or.inr ⟨rest, rfl, h⟩, ?_⟩
    rintro (h | ⟨rest', hrest, h⟩)
    · exact (not_spelledBy_tilde hw h).elim
    · exact List.append_cancel_left hrest ▸ h
  · rw [if_neg hpre, readOuter_ok_iff]
    refine and_congr_right fun _ => ⟨Or.inl, ?_⟩
    rintro (h | ⟨rest, rfl, -⟩)
    · exact h
    · exact absurd (List.isPrefixOf_iff_prefix.mpr (List.prefix_append _ _)) hpre

/-- A text that is not refused for a `~` at its front does not begin with the dialect. -/
theorem readSpec_eq_readOuter (h : readOuter 0 text ≠ .error (.unexpectedToken '~' 0)) :
    readSpec text = readOuter 0 text := by
  refine if_neg fun hpre => ?_
  obtain ⟨rest, rfl⟩ := List.isPrefixOf_iff_prefix.mp hpre
  exact h (readTokens_refuse (Or.inr rfl) ("giraffe1v1.".toList ++ rest))

/-! ### Queries -/

namespace Query

theorem ofReading_ok_iff {reading : Except ParseError (Path PlainPath)} {q : Query} :
    ofReading reading = .ok q ↔ reading = .ok q.path ∧ q.seq = 0 := by
  unfold ofReading
  constructor
  · intro h
    obtain ⟨path, hp, h⟩ := Outcome.bind_ok_iff.mp h
    unfold ofPath? at h
    by_cases hlen : 0 < path.length
    · rw [dif_pos hlen] at h
      obtain rfl := Outcome.pure_ok_iff.mp h
      exact ⟨hp, rfl⟩
    · rw [dif_neg hlen] at h
      cases h
  · obtain ⟨path, seq, hlt⟩ := q
    rintro ⟨rfl, rfl⟩
    simp [ofPath?, hlt, bind, Except.bind, pure, Except.pure]

theorem ofReading_error {reading : Except ParseError (Path PlainPath)} {e : ParseError}
    (h : ofReading reading = .error e) : reading = .error e ∨ reading = .ok [] ∧ e = .empty := by
  rcases Outcome.bind_error_iff.mp h with h | ⟨path, hpath, h⟩
  · exact Or.inl h
  · unfold ofPath? at h
    split at h
    · cases h
    · rename_i hnone
      have hnil : path = [] := by simpa using hnone
      exact Or.inr ⟨hnil ▸ hpath, (Except.error.inj h).symm⟩

theorem parse_ok_iff {text : String} {q : Query} :
    parse text = .ok q ↔ readSpec text.toList = .ok q.path ∧ q.seq = 0 := ofReading_ok_iff

/-- A text that spells a path is refused if the path is too long and obeys all other rules. -/
theorem parse_tooLong {p : Path PlainPath} (h : Path.SpelledBy p text) (hl : ∀ s ∈ p, s.Lawful Bracketed)
    (hp : p.Pairwise Segment.MayFollow) (hlen : maxLength ≤ p.length) :
    parse (String.ofList text) = .error (.tooDeep maxLength) := by
  have hread : readOuter 0 text = .error (.tooDeep maxLength) :=
    readTokens_tooLong understands_readInner (Progress.behind_start 0) h hl nofun hp ((Nat.zero_add _).symm ▸ hlen)
  rw [parse, String.toList_ofList, readSpec_eq_readOuter (by rw [hread]; nofun), hread]
  rfl

/-- The texts that are read inside a bracket, wherever that stands. -/
theorem parseAt_inner_ok_iff {offset : Nat} {raw : String} {q : Query} :
    parseAt offset 1 raw = .ok q ↔
      q.seq = 0 ∧ ∃ p : PlainPath, q.path = Path.ofPlain p ∧ Path.WellFormed NoBracket p ∧
        Path.SpelledBy p raw.toList := by
  have hdepth : parseAt offset 1 raw = ofReading ((readPath none offset raw.toList).map Path.ofPlain) := rfl
  rw [hdepth, ofReading_ok_iff, Outcome.map_ok_iff, and_comm]
  refine and_congr_right fun _ => exists_congr fun p => ?_
  rw [readPath_ok_iff understands_none, and_comm, eq_comm]

/-- The texts that are read and what they are read as: at the outside, with a dialect or without one, the
    spellings of well-formed paths, whose brackets hold the spellings of plain ones; and inside a bracket,
    wherever that stands, the spellings of well-formed paths without brackets. -/
theorem parse_ok_iff_spelledBy :
    (∀ (text : String) (q : Query), parse text = .ok q ↔
      q.seq = 0 ∧ Path.WellFormed Bracketed q.path ∧ Path.SpelledByQuery q.path text.toList) ∧
    ∀ (offset : Nat) (raw : String) (q : Query), parseAt offset 1 raw = .ok q ↔
      q.seq = 0 ∧ ∃ p : PlainPath, q.path = Path.ofPlain p ∧ Path.WellFormed NoBracket p ∧
        Path.SpelledBy p raw.toList := by
  refine ⟨fun text q => ?_, fun offset raw q => parseAt_inner_ok_iff⟩
  rw [parse_ok_iff, readSpec_ok_iff, and_comm]

end Query

end TreeQuery
