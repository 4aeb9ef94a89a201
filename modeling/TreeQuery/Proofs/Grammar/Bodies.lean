import TreeQuery.Proofs.Grammar.Commands
import TreeQuery.Proofs.Outcome

/-! # Reading bodies

What stands behind the commands of a token is read as a body exactly if it spells that body. A name and an
index are told apart by the spelling: `NameText` may be the identity on digits, but then the text spells an
index. A bracket is read with the reader of its inside, of which `Understands` says what it reads. -/

namespace TreeQuery

variable {σ : Type}

/-! ### Names -/

theorem not_reserved_of_isDigit {c : Char} (h : c.isDigit = true) : isReserved c = false := by
  cases hr : isReserved c with
  | false => rfl
  | true =>
    simp only [isReserved, decide_eq_true_eq, List.mem_cons, List.not_mem_nil, or_false] at hr
    rcases hr with rfl | rfl | rfl | rfl | rfl | rfl | rfl | rfl | rfl | rfl | rfl | rfl | rfl <;> simp at h

theorem ofSymbol?_of_not_reserved {c : Char} (h : isReserved c = false) : Command.ofSymbol? c = none := by
  cases hc : Command.ofSymbol? c with
  | none => rfl
  | some command =>
    rw [← Commands.symbol_of_ofSymbol? hc] at h
    cases command <;> simp [Command.symbol, isReserved] at h

theorem nameText_self {text : List Char} (h : ∀ c ∈ text, isReserved c = false) : NameText text text := by
  induction text with
  | nil => exact .nil
  | cons c rest ih => exact .plain (h c (by simp)) (ih fun d hd => h d (by simp [hd]))

theorem nameText_digits {digits : List Char} (h : Digits.isDigits digits = true) : NameText digits digits :=
  nameText_self fun c hc => not_reserved_of_isDigit (List.all_eq_true.mp h c hc)

theorem NameText.length_le {text name : List Char} (h : NameText text name) : name.length ≤ text.length := by
  induction h with
  | nil => exact Nat.le_refl _
  | plain _ _ ih => simpa using ih
  | escaped _ ih => simp only [List.length_cons]; omega

theorem NameText.noCommand {text name : List Char} (h : NameText text name) : Commands.NoCommand text := by
  cases h with
  | nil => exact Commands.noCommand_nil
  | plain hc _ => exact Commands.noCommand_cons.mpr (ofSymbol?_of_not_reserved hc)
  | escaped _ => exact Commands.noCommand_cons.mpr rfl

theorem NameText.head_ne {text name : List Char} (h : NameText text name) {c : Char} {rest : List Char}
    (ht : text = c :: rest) : c ≠ '#' ∧ c ≠ '[' := by
  subst ht
  cases h with
  | plain hc _ => exact ⟨by rintro rfl; simp [isReserved] at hc, by rintro rfl; simp [isReserved] at hc⟩
  | escaped _ => exact ⟨by decide, by decide⟩

theorem readName_of_nameText {text name : List Char} (h : NameText text name) (position : Nat) :
    readName position text = .ok (name, decide (text ≠ name)) := by
  induction h generalizing position with
  | nil => rfl
  | @plain c text name hc _ ih =>
    have hne : c ≠ '\\' := by rintro rfl; simp [isReserved] at hc
    simp [readName, hne, hc, ih, bind, Except.bind, pure, Except.pure]
  | @escaped c text name h ih =>
    have hne : '\\' :: c :: text ≠ c :: name := fun he => by
      have := congrArg List.length he
      have := h.length_le
      simp only [List.length_cons] at *
      omega
    simp [readName, hne, ih, bind, Except.bind, pure, Except.pure]

theorem nameText_of_readName {position : Nat} {text name : List Char} {escaped : Bool}
    (h : readName position text = .ok (name, escaped)) : NameText text name := by
  fun_induction readName position text generalizing name escaped with
  | case1 =>
    simp only [Except.ok.injEq, Prod.mk.injEq] at h
    exact h.1 ▸ .nil
  | case2 position c rest ih =>
    obtain ⟨⟨rest', e⟩, hrest, h⟩ := Outcome.bind_ok_iff.mp h
    obtain ⟨rfl, -⟩ := Prod.mk.injEq .. ▸ Outcome.pure_ok_iff.mp h
    exact .escaped (ih hrest)
  | case3 => simp at h
  | case4 position c rest _ hc ih =>
    obtain ⟨⟨rest', e⟩, hrest, h⟩ := Outcome.bind_ok_iff.mp h
    obtain ⟨rfl, -⟩ := Prod.mk.injEq .. ▸ Outcome.pure_ok_iff.mp h
    exact .plain (by simpa using hc) (ih hrest)

theorem readName_ok_iff {position : Nat} {text name : List Char} {escaped : Bool} :
    readName position text = .ok (name, escaped) ↔ NameText text name ∧ escaped = decide (text ≠ name) := by
  constructor
  · intro h
    have hn := nameText_of_readName h
    rw [readName_of_nameText hn] at h
    simp only [Except.ok.injEq, Prod.mk.injEq, true_and] at h
    exact ⟨hn, h.symm⟩
  · rintro ⟨hn, rfl⟩
    exact readName_of_nameText hn position

/-! ### Brackets -/

/-- A text that can stand in a bracket: every `]` in it is behind a backslash, and no backslash is its
    last character. -/
inductive Enclosed : List Char → Prop where
  | nil : Enclosed []
  | plain {c : Char} {text : List Char} (h : c ≠ '\\') (h' : c ≠ ']') : Enclosed text → Enclosed (c :: text)
  | escaped {c : Char} {text : List Char} : Enclosed text → Enclosed ('\\' :: c :: text)

theorem Enclosed.append {a b : List Char} (ha : Enclosed a) (hb : Enclosed b) : Enclosed (a ++ b) := by
  induction ha with
  | nil => exact hb
  | plain h h' _ ih => exact .plain h h' ih
  | escaped _ ih => exact .escaped ih

theorem splitBracket_of_enclosed {raw : List Char} (h : Enclosed raw) (after : List Char) :
    splitBracket (raw ++ ']' :: after) = some (raw, after) := by
  induction h with
  | nil => simp [splitBracket]
  | plain h h' _ ih => simp [splitBracket, h, h', ih]
  | escaped _ ih => simp [splitBracket, ih]

theorem eq_append_of_splitBracket {text raw after : List Char} (h : splitBracket text = some (raw, after)) :
    text = raw ++ ']' :: after := by
  fun_induction splitBracket text generalizing raw after with
  | case1 => simp at h
  | case2 c rest ih =>
    obtain ⟨⟨raw', after'⟩, hrest, h⟩ := Option.map_eq_some_iff.mp h
    simp only [Prod.mk.injEq] at h
    obtain ⟨rfl, rfl⟩ := h
    simp [ih hrest]
  | case3 rest =>
    simp only [Option.some.injEq, Prod.mk.injEq] at h
    obtain ⟨rfl, rfl⟩ := h
    rfl
  | case4 c rest _ hc ih =>
    obtain ⟨⟨raw', after'⟩, hrest, h⟩ := Option.map_eq_some_iff.mp h
    simp only [Prod.mk.injEq] at h
    obtain ⟨rfl, rfl⟩ := h
    simp [ih hrest]

/-- A reader of brackets reads a text as something exactly if `Inner` relates the two, wherever the text
    stands. -/
structure Understands (reader : BracketReader σ) (Inner : List Char → σ → Prop) : Prop where
  reads : ∀ position raw inner, (∃ read, reader = some read ∧ read position raw = .ok inner) ↔ Inner raw inner
  enclosed : ∀ raw inner, Inner raw inner → Enclosed raw

variable {reader : BracketReader σ} {Inner : List Char → σ → Prop} {written : Commands} {position : Nat}
  {text : List Char}

theorem expectEnd_ok_iff : expectEnd position text = .ok () ↔ text = [] := by
  cases text <;> simp [expectEnd]

theorem readBracket_ok_iff (hr : Understands reader Inner) {draft : Draft σ} :
    readBracket reader written position text = .ok draft ↔
      written.append = false ∧ ∃ raw inner, text = raw ++ [']'] ∧ Inner raw inner ∧ draft = .bracket raw inner := by
  unfold readBracket
  by_cases ha : written.append = true
  · simp [ha]
  rw [if_neg ha]
  constructor
  · intro h
    cases reader with
    | none => simp at h
    | some read =>
      cases hs : splitBracket text with
      | none => simp [hs] at h
      | some p =>
        obtain ⟨raw, after⟩ := p
        simp only [hs] at h
        obtain ⟨inner, hread, h⟩ := Outcome.bind_ok_iff.mp h
        obtain ⟨_, hend, h⟩ := Outcome.bind_ok_iff.mp h
        have htext := eq_append_of_splitBracket hs
        rw [expectEnd_ok_iff.mp hend] at htext
        exact ⟨by simpa using ha, raw, inner, htext, (hr.reads _ _ _).mp ⟨read, rfl, hread⟩,
          (Outcome.pure_ok_iff.mp h).symm⟩
  · rintro ⟨-, raw, inner, rfl, hinner, rfl⟩
    obtain ⟨read, rfl, hread⟩ := (hr.reads (position + 1) raw inner).mpr hinner
    simp [splitBracket_of_enclosed (hr.enclosed raw inner hinner), hread, expectEnd, bind, Except.bind, pure,
      Except.pure]

/-! ### Bodies -/

/-- What a text behind the commands `written` is before its meaning is settled. -/
inductive DraftOf (Inner : List Char → σ → Prop) (written : Commands) (position : Nat) :
    List Char → Draft σ → Prop where
  | blank : DraftOf Inner written position [] .blank
  | here (h : written = {}) : DraftOf Inner written position ['#'] .here
  | bracket {raw : List Char} {inner : σ} (h : written.append = false) (hi : Inner raw inner) :
    DraftOf Inner written position ('[' :: raw ++ [']']) (.bracket raw inner)
  | name {c : Char} {rest name : List Char} (h : NameText (c :: rest) name) :
    DraftOf Inner written position (c :: rest) (.name name c position (decide (c :: rest ≠ name)))

theorem draftOf_of_readBody (hr : Understands reader Inner) {draft : Draft σ}
    (h : readBody reader written position text = .ok draft) : DraftOf Inner written position text draft := by
  fun_cases readBody reader written position text with
  | case1 =>
    simp only [readBody, Except.ok.injEq] at h
    exact h ▸ .blank
  | case2 rest other hother => simp [readBody, hother] at h
  | case3 rest hnone =>
    simp only [readBody, if_true, hnone] at h
    obtain ⟨_, hend, h⟩ := Outcome.bind_ok_iff.mp h
    obtain rfl := expectEnd_ok_iff.mp hend
    exact Outcome.pure_ok_iff.mp h ▸ .here (Commands.first?_eq_none_iff.mp hnone)
  | case4 rest _ =>
    have hread : readBody reader written position ('[' :: rest) = readBracket reader written position rest := rfl
    rw [hread] at h
    obtain ⟨ha, raw, inner, rfl, hinner, rfl⟩ := (readBracket_ok_iff hr).mp h
    exact .bracket ha hinner
  | case5 c rest hc hc' =>
    simp only [readBody, if_neg hc, if_neg hc'] at h
    obtain ⟨⟨name, escaped⟩, hname, h⟩ := Outcome.bind_ok_iff.mp h
    obtain ⟨hn, rfl⟩ := readName_ok_iff.mp hname
    exact Outcome.pure_ok_iff.mp h ▸ .name hn

theorem readBody_of_draftOf (hr : Understands reader Inner) {draft : Draft σ}
    (h : DraftOf Inner written position text draft) : readBody reader written position text = .ok draft := by
  cases h with
  | blank => rfl
  | here h =>
    subst h
    rfl
  | bracket ha hi => exact (readBracket_ok_iff hr).mpr ⟨ha, _, _, rfl, hi, rfl⟩
  | @name c rest name h =>
    obtain ⟨hc, hc'⟩ := h.head_ne rfl
    simp [readBody, hc, hc', readName_of_nameText h, bind, Except.bind, pure, Except.pure]

/-- The commands of a segment fit its body: none with `#`, and `+` exactly where there is no body. -/
structure Body.Fits (b : Body σ) (written : Commands) : Prop where
  here : b = .here → written = {}
  append : written.append = true ↔ b = .append

variable {b : Body σ} {blankAt : Char × Nat}

theorem Body.SpelledBy.noCommand (h : b.SpelledBy text) (hw : b.WellFormed Inner) : Commands.NoCommand text := by
  cases b with
  | field name => exact h.1.noCommand
  | index digits => exact h ▸ (nameText_digits hw.2.1).noCommand
  | here => exact h ▸ Commands.noCommand_cons.mpr rfl
  | append => exact h ▸ Commands.noCommand_nil
  | bracket raw inner => exact h ▸ Commands.noCommand_cons.mpr rfl

theorem isDigits_eq_false_of_ne {text name : List Char} (h : NameText text name) (hne : text ≠ name) :
    Digits.isDigits text = false := by
  cases hd : Digits.isDigits text with
  | false => rfl
  | true =>
    have h' := readName_of_nameText (nameText_digits hd) 0
    rw [readName_of_nameText h] at h'
    simp only [Except.ok.injEq, Prod.mk.injEq] at h'
    exact absurd h'.1.symm hne

/-- Whether a name is an index is seen from its spelling. -/
theorem Draft.body_name {c : Char} {name : List Char} (h : NameText text name) (ha : written.append = false) :
    (Draft.name name c position (decide (text ≠ name)) : Draft σ).body written blankAt =
      if Digits.isDigits text = true then
        if Digits.value text < 2 ^ 32 then .ok (.index text) else .error (.indexOverflow (String.ofList text))
      else .ok (.field (String.ofList name)) := by
  by_cases he : text = name
  · subst he
    simp [Draft.body, ha]
  · simp [Draft.body, ha, he, isDigits_eq_false_of_ne h he]

/-- A draft whose meaning is `b` comes from a text that spells `b`. -/
theorem spelledBy_of_draftOf {draft : Draft σ} (h : DraftOf Inner written position text draft)
    (hb : draft.body written blankAt = .ok b) : b.SpelledBy text ∧ b.WellFormed Inner ∧ b.Fits written := by
  cases h with
  | blank =>
    by_cases ha : written.append = true
    · simp only [Draft.body, ha, if_true, Except.ok.injEq] at hb
      subst hb
      exact ⟨rfl, trivial, by simp, by simp [ha]⟩
    · simp [Draft.body, ha] at hb
  | here hw =>
    simp only [Draft.body, Except.ok.injEq] at hb
    subst hb
    exact ⟨rfl, trivial, by simp [hw], by simp [hw]⟩
  | bracket ha hi =>
    simp only [Draft.body, Except.ok.injEq] at hb
    subst hb
    exact ⟨rfl, hi, by simp, by simp [ha]⟩
  | @name c rest name hname =>
    cases ha : written.append with
    | true => simp [Draft.body, ha] at hb
    | false =>
      rw [Draft.body_name hname ha] at hb
      split at hb
      · rename_i hd
        split at hb
        · rename_i hlt
          cases hb
          exact ⟨rfl, ⟨by simp, hd, hlt⟩, by simp, by simp [ha]⟩
        · cases hb
      · rename_i hd
        cases hb
        refine ⟨⟨by simpa using hname, by simpa using hd⟩, fun he => ?_, by simp, by simp [ha]⟩
        have hnil : name = [] := by simpa using he
        cases hname <;> cases hnil

/-- A text that spells a body is drafted as something whose meaning is that body. -/
theorem draftOf_of_spelledBy (h : b.SpelledBy text) (hw : b.WellFormed Inner) (hf : b.Fits written)
    (position : Nat) (blankAt : Char × Nat) :
    ∃ draft, DraftOf Inner written position text draft ∧ draft.body written blankAt = .ok b := by
  have ha : b ≠ .append → written.append = false := fun hb => by simpa using mt hf.append.mp hb
  cases b with
  | field name =>
    obtain ⟨hname, hd⟩ := h
    cases text with
    | nil => cases hd
    | cons c rest =>
      refine ⟨_, .name hname, ?_⟩
      rw [Draft.body_name hname (ha (by simp)), if_neg (by simp [hd]), String.ofList_toList]
  | index digits =>
    obtain ⟨hne, hd, hlt⟩ := hw
    subst h
    cases text with
    | nil => exact absurd rfl hne
    | cons c rest =>
      refine ⟨_, .name (nameText_digits hd), ?_⟩
      rw [Draft.body_name (nameText_digits hd) (ha (by simp)), if_pos hd, if_pos hlt]
  | here =>
    cases h
    exact ⟨_, .here (hf.here rfl), rfl⟩
  | append =>
    cases h
    exact ⟨_, .blank, by simp [Draft.body, hf.append.mpr rfl]⟩
  | bracket raw inner =>
    cases h
    exact ⟨_, .bracket (ha (by simp)) hw, rfl⟩

end TreeQuery
