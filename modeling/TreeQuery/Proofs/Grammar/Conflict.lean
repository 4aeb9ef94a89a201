import TreeQuery.Proofs.Grammar.Unambiguous

/-! # What only a conflict can refuse

A text may spell a path of which every body can be written, with `+` where there is none and nowhere else, and whose
commands do not get along. Such a text is read as that path, or it is refused over two characters that exclude each
other, and for no other reason (`Query.parse_spec_orConflict`). -/

namespace TreeQuery

/-- A reading that gives `a`, or is refused over two characters that exclude each other. -/
def OrConflict {α : Type} (a : α) (x : Except ParseError α) : Prop :=
  x = .ok a ∨ ∃ c other position, x = .error (.conflicting c other position)

section
variable {α β : Type} {a : α} {b : β} {x : Except ParseError α}

theorem OrConflict.bind {f : α → Except ParseError β} (hx : OrConflict a x) (hf : OrConflict b (f a)) :
    OrConflict b (x >>= f) := by
  rcases hx with rfl | ⟨c, other, position, rfl⟩
  · exact hf
  · exact Or.inr ⟨c, other, position, rfl⟩

theorem OrConflict.eq_of_ok (hx : OrConflict a x) {a' : α} (h : x = .ok a') : a' = a := by
  rcases hx with hx | ⟨c, other, position, hx⟩
  · exact Except.ok.inj (h.symm.trans hx)
  · cases h.symm.trans hx

theorem OrConflict.conflicting_of_error (hx : OrConflict a x) {e : ParseError} (h : x = .error e) :
    ∃ c other position, e = .conflicting c other position := by
  rcases hx with hx | ⟨c, other, position, hx⟩
  · cases h.symm.trans hx
  · exact ⟨c, other, position, Except.error.inj (h.symm.trans hx)⟩

end

variable {σ : Type} {Inner : List Char → σ → Prop} {reader : BracketReader σ} {p : Path σ} {s : Segment σ}
  {pr : Progress} {t : Token} {text : List Char}

/-! ### Commands -/

/-- A command that is not written yet is refused over a conflict only. -/
theorem Command.refusal?_conflicting {c : Command} {seen written : Commands} {after : Option Separator} {position : Nat}
    {e : ParseError} (hnew : written.has c = false) (h : c.refusal? seen written after position = some e) :
    ∃ a b n, e = .conflicting a b n := by
  rw [Command.refusal?, if_neg (by simp [hnew])] at h
  split at h
  · exact ⟨_, _, _, (Option.some.inj h).symm⟩
  · obtain ⟨other, -, h⟩ := Option.map_eq_some_iff.mp h
    exact ⟨_, _, _, h.symm⟩

theorem readCommands_orConflict (seen : Commands) (after : Option Separator) {written : Commands} {order : List Command}
    {back : List Char} (ho : written.Addable order) (hback : Commands.NoCommand back) (position : Nat) :
    OrConflict (written.insertAll order, position + order.length, back)
      (readCommands seen after written position (order.map Command.symbol ++ back)) := by
  induction order generalizing written position with
  | nil =>
    cases back with
    | nil => exact Or.inl rfl
    | cons c back => exact Or.inl (by simp [readCommands, Commands.noCommand_cons.mp hback, Commands.insertAll])
  | cons c order ih =>
    obtain ⟨hnew, -, ho⟩ := Commands.addable_cons.mp ho
    have hins : written.insertAll (c :: order) = (written.insert c).insertAll order := rfl
    simp only [List.map_cons, List.cons_append, readCommands, Command.ofSymbol?_symbol]
    cases hrefusal : c.refusal? seen written after position with
    | some e =>
      obtain ⟨a, b, n, rfl⟩ := Command.refusal?_conflicting hnew hrefusal
      exact Or.inr ⟨a, b, n, rfl⟩
    | none =>
      have hrest := ih ho (position + 1)
      rwa [Nat.add_assoc, Nat.add_comm 1, ← List.length_cons (a := c), ← hins] at hrest

/-! ### Segments -/

/-- A body is read for what it is whatever is written in front of it, but for the commands in front of a `#`. -/
theorem readBody_orConflict (hr : Understands reader Inner) (hspell : s.body.SpelledBy text)
    (hw : s.body.WellFormed Inner) (happend : s.commands.append = true ↔ s.body = .append) (position : Nat)
    (blankAt : Char × Nat) : ∃ draft, OrConflict draft (readBody reader s.commands position text) ∧
      draft.body s.commands blankAt = .ok s.body := by
  by_cases hblocked : s.body = .here ∧ s.commands ≠ {}
  · obtain ⟨hhere, hcommands⟩ := hblocked
    obtain ⟨other, hother⟩ := Option.ne_none_iff_exists'.mp (mt Commands.first?_eq_none_iff.mp hcommands)
    rw [hhere] at hspell ⊢
    obtain rfl : text = ['#'] := hspell
    refine ⟨.here, Or.inr ⟨'#', other.symbol, position, ?_⟩, rfl⟩
    simp [readBody, hother]
  · have hfits : s.body.Fits s.commands :=
      ⟨fun hhere => Decidable.not_not.mp fun hcommands => hblocked ⟨hhere, hcommands⟩, happend⟩
    obtain ⟨draft, hdraft, hbody⟩ := draftOf_of_spelledBy hspell hw hfits position blankAt
    exact ⟨draft, Or.inl (readBody_of_draftOf hr hdraft), hbody⟩

theorem checkMove_orConflict {written : Commands} (h : t.closedBy = some .move → pr.moved = false) :
    OrConflict () (pr.checkMove written t) := by
  unfold Progress.checkMove
  split
  · rename_i hmove
    split
    · exact Or.inr ⟨_, _, _, rfl⟩
    · rw [h hmove]
      exact Or.inl rfl
  · exact Or.inl rfl

/-- A segment that can be written: `+` stands where there is no body, and nowhere else. -/
structure Segment.Formed (Inner : List Char → σ → Prop) (s : Segment σ) : Prop where
  body : s.body.WellFormed Inner
  append : s.commands.append = true ↔ s.body = .append

theorem Segment.Formed.spellable (h : s.Formed Inner) : s.Spellable Inner := ⟨h.body, h.append.mpr⟩

theorem Segment.Formed.canonical (h : s.Formed Inner) : s.canonical.Formed Inner :=
  ⟨Body.canonical_wellFormed h.body, h.append.trans Body.canonical_eq_append_iff.symm⟩

theorem readToken_orConflict (hr : Understands reader Inner) (hs : s.Formed Inner) (hspell : s.SpelledBy t.text)
    (hmarker : s.marker = (t.closedBy == some .move)) (hmoved : s.marker = true → pr.moved = false)
    (hlength : pr.count + 1 < maxLength) : OrConflict s (readToken reader pr t) := by
  obtain ⟨_, back, hfront, hback, htext⟩ := hspell
  obtain ⟨order, hadd, hcommands, rfl⟩ := hfront.exists_addable
  have hread := readCommands_orConflict pr.seen pr.after hadd (hback.noCommand hs.body) pr.position
  rw [hcommands, ← htext] at hread
  obtain ⟨draft, hdraft, hbody⟩ :=
    readBody_orConflict hr hback hs.body hs.append (pr.position + order.length) (pr.blankAt t)
  have hmove : OrConflict () (pr.checkMove s.commands t) :=
    checkMove_orConflict fun hclosed => hmoved (hmarker.trans (beq_iff_eq.mpr hclosed))
  refine hread.bind (hdraft.bind (hmove.bind ?_))
  simp only [hbody, checkLength_ok_iff.mpr hlength, ← hmarker]
  exact Or.inl rfl

/-! ### Paths -/

/-- There is room for a path: with it there is neither a second `>` nor a segment too many. -/
structure Progress.RoomFor (pr : Progress) (p : Path σ) : Prop where
  markers : pr.moved.toNat + p.countP (·.marker) ≤ 1
  length_lt : pr.count + p.length < maxLength

theorem Progress.RoomFor.moved (h : pr.RoomFor (s :: p)) (hmarker : s.marker = true) : pr.moved = false := by
  have hmarkers := h.markers
  rw [List.countP_cons_of_pos hmarker] at hmarkers
  exact Bool.toNat_eq_zero.mp (by omega)

theorem Progress.RoomFor.first_lt (h : pr.RoomFor (s :: p)) : pr.count + 1 < maxLength := by
  have hlength := h.length_lt
  rw [List.length_cons] at hlength
  omega

theorem Progress.RoomFor.next (h : pr.RoomFor (s :: p)) (hmarker : s.marker = (t.closedBy == some .move)) :
    (pr.next s.commands t).RoomFor p := by
  obtain ⟨hmarkers, hlength⟩ := h
  constructor
  · rw [List.countP_cons] at hmarkers
    simp only [Progress.next, ← hmarker]
    cases hs : s.marker with
    | false => simpa [hs] using hmarkers
    | true =>
      simp only [hs, Bool.or_true, Bool.toNat_true, if_true] at hmarkers ⊢
      omega
  · simp only [Progress.next, List.length_cons] at hlength ⊢
    omega

theorem readTokens_orConflict (hr : Understands reader Inner) {ts : List Token} (h : Path.Tokens p ts)
    (hp : ∀ s ∈ p, s.Formed Inner) (hroom : pr.RoomFor p) : OrConflict p (readTokens reader pr ts) := by
  -- Along the tokens; one that is read leaves room for the rest.
  induction h generalizing pr with
  | @last s text hspell hm =>
    have hs := hp s List.mem_cons_self
    rw [readTokens, if_neg (by simp [hspell.ne_nil hs.body hs.append.mpr])]
    exact (readToken_orConflict (t := ⟨text, none⟩) hr hs hspell hm hroom.moved hroom.first_lt).bind (Or.inl rfl)
  | @dotted s text hspell hm =>
    have hs := hp s List.mem_cons_self
    rw [readTokens, if_neg (by simp)]
    exact (readToken_orConflict (t := ⟨text, some .step⟩) hr hs hspell hm hroom.moved hroom.first_lt).bind (Or.inl rfl)
  | @cons s text separator p ts hspell hm _ ih =>
    obtain ⟨hs, hp⟩ := List.forall_mem_cons.mp hp
    have hrest := ih hp (hroom.next (t := ⟨text, some separator⟩) hm)
    rw [readTokens, if_neg (by simp)]
    exact (readToken_orConflict hr hs hspell hm hroom.moved hroom.first_lt).bind (hrest.bind (Or.inl rfl))

/-- If its segments can be written, the canonical text of a path is read as that path up to the spelling of indices, or
    it is refused over a conflict. -/
theorem Query.parse_spec_orConflict {q : Query} (hp : ∀ s ∈ q.path, s.Formed Bracketed)
    (hmarkers : q.path.countP (·.marker) ≤ 1) (hlast : ∀ s ∈ q.path.getLast?, s.marker = false)
    (hlength : q.path.length < maxLength) : OrConflict q.canonical (parse q.spec) := by
  have hcanonical : ∀ s ∈ Path.canonical q.path, s.Formed Bracketed :=
    List.forall_mem_map.mpr fun s hs => (hp s hs).canonical
  have hspellable := fun s hs => (hcanonical s hs).spellable
  have hrender := Path.spelledBy_render q.path_ne_nil hlast fun s hs => (hp s hs).body
  have htokens := hrender.tokens understands_readInner.enclosed hspellable
  have hcount : (Path.canonical q.path).countP (·.marker) = q.path.countP (·.marker) := List.countP_map
  have hread : OrConflict (Path.canonical q.path) (readOuter 0 (Path.render q.path)) :=
    readTokens_orConflict understands_readInner htokens hcanonical
      ⟨by simpa [hcount] using hmarkers, by simpa using hlength⟩
  have hdialect : readOuter 0 (Path.render q.path) ≠ .error (.unexpectedToken '~' 0) := fun h => by
    obtain ⟨c, other, position, he⟩ := hread.conflicting_of_error h
    cases he
  rw [parse, spec, Path.spec, String.toList_ofList, readSpec_eq_readOuter hdialect]
  have hroot : ofReading (.ok (Path.canonical q.path)) = .ok q.canonical := ofReading_ok_iff.mpr ⟨rfl, rfl⟩
  exact hread.bind (Or.inl hroot)

end TreeQuery
