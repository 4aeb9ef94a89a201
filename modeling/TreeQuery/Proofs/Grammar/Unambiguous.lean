import TreeQuery.Proofs.Grammar.Display

/-! # One path for a text

A text spells one path at most (`Path.SpelledBy.unique`). This needs less than the rules of a path: only that
each body can be written, and `+` where there is none (`Segment.Spellable`), not that the commands get along. So
where the canonical text of any such path is read, what is read is that path (`Query.path_of_parse_spec`). -/

namespace TreeQuery

variable {σ : Type} {Inner : List Char → σ → Prop} {reader : BracketReader σ} {text back back' : List Char}
  {s t : Segment σ} {p p' : Path σ}

/-! ### Commands -/

theorem Command.symbol_injective {c d : Command} (h : c.symbol = d.symbol) : c = d := by
  have hsome := congrArg Command.ofSymbol? h
  rw [ofSymbol?_symbol, ofSymbol?_symbol] at hsome
  exact Option.some.inj hsome

/-- Where no command follows, it is seen where a run of commands ends. -/
theorem Commands.run_unique {order order' : List Command} (hb : NoCommand back) (hb' : NoCommand back')
    (h : order.map Command.symbol ++ back = order'.map Command.symbol ++ back') : order = order' ∧ back = back' := by
  have hend : ∀ {c : Command} {order : List Command} {back back' : List Char}, NoCommand back →
      back ≠ (c :: order).map Command.symbol ++ back' := by
    rintro c order back back' hb rfl
    have hnone := noCommand_cons.mp hb
    rw [Command.ofSymbol?_symbol] at hnone
    cases hnone
  induction order generalizing order' with
  | nil =>
    cases order' with
    | nil => exact ⟨rfl, h⟩
    | cons c order' => exact absurd h (hend hb)
  | cons c order ih =>
    cases order' with
    | nil => exact absurd h.symm (hend hb')
    | cons d order' =>
      obtain ⟨hsymbol, hrest⟩ := List.cons.inj h
      obtain ⟨rfl, hback⟩ := ih hrest
      exact ⟨by rw [Command.symbol_injective hsymbol], hback⟩

/-! ### Bodies -/

theorem Body.SpelledBy.eq_append {b : Body σ} (h : b.SpelledBy []) (hw : b.WellFormed Inner) : b = .append := by
  cases b with
  | field name => cases h.2
  | index digits => exact absurd h.symm hw.1
  | here | bracket => cases h
  | append => rfl

theorem Body.SpelledBy.unique {b b' : Body σ} (hr : Understands reader Inner) (h : b.SpelledBy text)
    (h' : b'.SpelledBy text) (hw : b.WellFormed Inner) (hw' : b'.WellFormed Inner) : b = b' := by
  by_cases htext : text = []
  · subst htext
    rw [h.eq_append hw, h'.eq_append hw']
  · -- Both texts are then read without commands, and reading gives one result.
    have hfits : ∀ {b : Body σ}, b.SpelledBy text → b.Fits {} := by
      rintro b hb
      refine ⟨fun _ => rfl, ⟨nofun, ?_⟩⟩
      rintro rfl
      exact absurd hb htext
    obtain ⟨draft, hdraft, hbody⟩ := draftOf_of_spelledBy h hw (hfits h) 0 (' ', 0)
    obtain ⟨draft', hdraft', hbody'⟩ := draftOf_of_spelledBy h' hw' (hfits h') 0 (' ', 0)
    have hread := readBody_of_draftOf hr hdraft
    rw [readBody_of_draftOf hr hdraft'] at hread
    obtain rfl := Except.ok.inj hread
    exact Except.ok.inj (hbody.symm.trans hbody')

/-! ### Segments -/

/-- A segment that can be written, whether its commands get along or not. -/
structure Segment.Spellable (Inner : List Char → σ → Prop) (s : Segment σ) : Prop where
  body : s.body.WellFormed Inner
  append : s.body = .append → s.commands.append = true

theorem Segment.Lawful.spellable (h : s.Lawful Inner) : s.Spellable Inner := ⟨h.body, h.fits.append.mpr⟩

theorem Segment.Spellable.canonical (h : s.Spellable Inner) : s.canonical.Spellable Inner :=
  ⟨Body.canonical_wellFormed h.body, fun ha => h.append (Body.canonical_eq_append_iff.mp ha)⟩

theorem Segment.SpelledBy.unique (hr : Understands reader Inner) (h : s.SpelledBy text) (h' : t.SpelledBy text)
    (hs : s.Spellable Inner) (ht : t.Spellable Inner) : s.commands = t.commands ∧ s.body = t.body := by
  obtain ⟨_, back, ⟨order, -, hmem, -, rfl⟩, hback, rfl⟩ := h
  obtain ⟨_, back', ⟨order', -, hmem', -, rfl⟩, hback', htext⟩ := h'
  obtain ⟨rfl, rfl⟩ := Commands.run_unique (hback.noCommand hs.body) (hback'.noCommand ht.body) htext
  refine ⟨Commands.ext_has fun c => ?_, hback.unique hr hback' hs.body ht.body⟩
  rw [Bool.eq_iff_iff, ← hmem, ← hmem']

/-- No segment begins with a character that is neither a command nor part of a body. -/
theorem Segment.SpelledBy.not_tilde {rest : List Char} (hw : s.body.WellFormed Inner) :
    ¬s.SpelledBy ('~' :: rest) := by
  rintro ⟨_, back, ⟨order, -, -, -, rfl⟩, hback, htext⟩
  cases order with
  | cons c order =>
    obtain ⟨hc, -⟩ := List.cons.inj htext
    cases c <;> cases hc
  | nil =>
    obtain rfl : '~' :: rest = back := htext
    -- A name, which digits are one of, begins with a backslash or with what is not reserved.
    have hname : ∀ name, ¬NameText ('~' :: rest) name := by
      rintro name (_ | ⟨hc, _⟩)
      cases hc
    cases hbody : s.body with
    | field name =>
      rw [hbody] at hback
      exact hname _ hback.1
    | index digits =>
      rw [hbody] at hback hw
      obtain rfl : '~' :: rest = digits := hback
      exact hname _ (nameText_digits hw.2.1)
    | here | append | bracket =>
      rw [hbody] at hback
      cases hback

/-! ### Paths -/

theorem Path.SpelledBy.exists_segment (h : Path.SpelledBy p text) :
    ∃ s ∈ p, ∃ front rest, s.SpelledBy front ∧ text = front ++ rest := by
  cases h with
  | last hs _ => exact ⟨_, by simp, _, [], hs, by simp⟩
  | dotted hs _ => exact ⟨_, by simp, _, _, hs, rfl⟩
  | cons hs _ => exact ⟨_, by simp, _, _, hs, rfl⟩

/-- The tokens of a spelled path: one of each segment, and an empty one behind a `.` that ends the text. -/
inductive Path.Tokens : Path σ → List Token → Prop where
  | last {s : Segment σ} {text : List Char} : s.SpelledBy text → s.marker = false → Tokens [s] [⟨text, none⟩]
  | dotted {s : Segment σ} {text : List Char} :
    s.SpelledBy text → s.marker = false → Tokens [s] [⟨text, some .step⟩, ⟨[], none⟩]
  | cons {s : Segment σ} {text : List Char} {c : Separator} {p : Path σ} {ts : List Token} :
    s.SpelledBy text → s.marker = (some c == some .move) → Tokens p ts → Tokens (s :: p) (⟨text, some c⟩ :: ts)

theorem Path.SpelledBy.tokens (hi : ∀ raw inner, Inner raw inner → Enclosed raw) (h : Path.SpelledBy p text)
    (hp : ∀ s ∈ p, s.Spellable Inner) : Path.Tokens p (Token.split false text) := by
  induction h with
  | last hs hm =>
    rw [Token.split_solid_end (hs.solid (hp _ (by simp)).body hi)]
    exact .last hs hm
  | @dotted s text hs hm =>
    have hsplit : Token.split false (text ++ ['.']) = [⟨text, some .step⟩, ⟨[], none⟩] :=
      Token.split_solid (hs.solid (hp _ (by simp)).body hi) .step []
    rw [hsplit]
    exact .dotted hs hm
  | cons hs _ ih =>
    rw [← Segment.closing_symbol, Token.split_solid (hs.solid (hp _ (by simp)).body hi)]
    exact .cons hs Segment.closing_eq_move (ih fun t ht => hp t (by simp [ht]))

theorem Path.Tokens.unique (hr : Understands reader Inner) {ts : List Token} (h : Path.Tokens p ts)
    (h' : Path.Tokens p' ts) (hp : ∀ s ∈ p, s.Spellable Inner) (hp' : ∀ s ∈ p', s.Spellable Inner) : p = p' := by
  have hsegment : ∀ {s t : Segment σ} {text : List Char}, s.SpelledBy text → t.SpelledBy text → s.Spellable Inner →
      t.Spellable Inner → s.marker = t.marker → s = t := by
    intro s t text hs ht hws hwt hm
    obtain ⟨hcommands, hbody⟩ := hs.unique hr ht hws hwt
    cases s
    cases t
    simp_all
  -- What is behind a `.` is either nothing or the rest of the path, which has a first segment.
  have hblank : ∀ {p : Path σ}, (∀ s ∈ p, s.Spellable Inner) → ¬Path.Tokens p [⟨[], none⟩] := by
    rintro p hp (⟨hs, -⟩)
    have hw := hp _ List.mem_cons_self
    exact hs.ne_nil hw.body hw.append rfl
  induction h generalizing p' with
  | last hs hm =>
    cases h' with
    | last hs' hm' => rw [hsegment hs hs' (hp _ (by simp)) (hp' _ (by simp)) (hm.trans hm'.symm)]
  | dotted hs hm =>
    cases h' with
    | dotted hs' hm' => rw [hsegment hs hs' (hp _ (by simp)) (hp' _ (by simp)) (hm.trans hm'.symm)]
    | cons _ _ hrest => exact absurd hrest (hblank fun t ht => hp' t (by simp [ht]))
  | cons hs hm hrest ih =>
    cases h' with
    | dotted _ _ => exact absurd hrest (hblank fun t ht => hp t (by simp [ht]))
    | cons hs' hm' hrest' =>
      rw [hsegment hs hs' (hp _ (by simp)) (hp' _ (by simp)) (hm.trans hm'.symm),
        ih hrest' (fun t ht => hp t (by simp [ht])) fun t ht => hp' t (by simp [ht])]

theorem Path.SpelledBy.unique (hr : Understands reader Inner) (h : Path.SpelledBy p text)
    (h' : Path.SpelledBy p' text) (hp : ∀ s ∈ p, s.Spellable Inner) (hp' : ∀ s ∈ p', s.Spellable Inner) : p = p' :=
  (h.tokens hr.enclosed hp).unique hr (h'.tokens hr.enclosed hp') hp hp'

/-! ### Reading a rendered path -/

theorem not_spelledBy_dialect {p : Path PlainPath} {rest : List Char} (hp : ∀ s ∈ p, s.Spellable Bracketed) :
    ¬Path.SpelledBy p (dialectPrefix ++ rest) := by
  intro h
  obtain ⟨s, hs, front, back, hfront, htext⟩ := h.exists_segment
  have hw := hp s hs
  cases front with
  | nil => exact hfront.ne_nil hw.body hw.append rfl
  | cons c front =>
    obtain ⟨rfl, -⟩ := List.cons.inj htext
    exact Segment.SpelledBy.not_tilde hw.body hfront

/-- Where the text of a path that can be written is read, it is read as that path up to the spelling of indices. -/
theorem Query.path_of_parse_spec {p : Path PlainPath} {q : Query} (hne : p ≠ [])
    (hlast : ∀ s ∈ p.getLast?, s.marker = false) (hp : ∀ s ∈ p, s.Spellable Bracketed)
    (h : parse (Path.spec p) = .ok q) : q.path = Path.canonical p ∧ q.seq = 0 := by
  obtain ⟨hread, hseq⟩ := parse_ok_iff.mp h
  have htext : (Path.spec p).toList = Path.render p := String.toList_ofList
  rw [htext, readSpec_ok_iff] at hread
  obtain ⟨hw, hspell⟩ := hread
  have hcanonical : ∀ s ∈ Path.canonical p, s.Spellable Bracketed := by
    intro s hs
    obtain ⟨t, ht, rfl⟩ := List.mem_map.mp hs
    exact (hp t ht).canonical
  have hrender := Path.spelledBy_render hne hlast fun s hs => (hp s hs).body
  refine ⟨?_, hseq⟩
  rcases hspell with hspell | ⟨rest, hrest, -⟩
  · exact hspell.unique understands_readInner hrender (fun s hs => (hw.lawful hs).spellable) hcanonical
  · rw [hrest] at hrender
    exact absurd hrender (not_spelledBy_dialect hcanonical)

end TreeQuery
