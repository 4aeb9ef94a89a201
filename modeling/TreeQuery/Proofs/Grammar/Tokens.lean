import TreeQuery.Proofs.Grammar.Rules

/-! # Splitting spelled texts

The text of a lawful segment holds no separator that splits it (`Segment.SpelledBy.solid`), and the text of
a bracket no `]` that ends it (`Path.SpelledBy.enclosed`). So a spelled path is split at the separators
between its segments and nowhere else. -/

namespace TreeQuery

variable {σ : Type} {Inner : List Char → σ → Prop} {text rest : List Char} {s : Segment σ} {p : Path σ}

/-! ### Tokens -/

namespace Token

theorem prepend_append (a b : List Char) (ts : List Token) : prepend (a ++ b) ts = prepend a (prepend b ts) := by
  cases ts <;> simp [prepend]

theorem prepend_cons (c : Char) (text : List Char) (ts : List Token) :
    prepend (c :: text) ts = prepend [c] (prepend text ts) := prepend_append [c] text ts

/-- The tokens of a text: each but the last is closed by a separator. -/
inductive Chained : List Token → Prop where
  | last (text : List Char) : Chained [⟨text, none⟩]
  | cons (text : List Char) (separator : Separator) {ts : List Token} :
    Chained ts → Chained (⟨text, some separator⟩ :: ts)

theorem Chained.prepend {ts : List Token} (h : Chained ts) (front : List Char) : Chained (prepend front ts) := by
  cases h with
  | last text => exact .last (front ++ text)
  | cons text separator h => exact .cons (front ++ text) separator h

theorem chained_split (inBracket : Bool) (text : List Char) : Chained (split inBracket text) := by
  fun_induction split inBracket text with
  | case1 => exact .last []
  | case2 _ _ _ ih => exact ih.prepend _
  | case3 _ _ _ ih => exact ih.prepend _
  | case4 _ _ _ _ ih => exact .cons [] .step ih
  | case5 _ _ _ _ _ ih => exact .cons [] .move ih
  | case6 _ _ _ _ _ _ _ ih => exact ih.prepend _

theorem split_ne_nil (inBracket : Bool) (text : List Char) : split inBracket text ≠ [] := fun h => by
  have := chained_split inBracket text
  rw [h] at this
  cases this

/-- Outside brackets, a text within which nothing is split. -/
def Solid (text : List Char) : Prop := ∀ rest, split false (text ++ rest) = prepend text (split false rest)

theorem solid_nil : Solid [] := fun rest => by
  obtain ⟨t, ts, hts⟩ := List.exists_cons_of_ne_nil (split_ne_nil false rest)
  rw [List.nil_append, hts]
  rfl

theorem Solid.append {a b : List Char} (ha : Solid a) (hb : Solid b) : Solid (a ++ b) := fun rest => by
  rw [List.append_assoc, ha, hb, prepend_append]

theorem solid_of_not_special {c : Char} (h : c ≠ '\\') (h₁ : c ≠ '.') (h₂ : c ≠ '>') (h₃ : c ≠ '[') : Solid [c] :=
  fun rest => by
    have h₃ : (c == '[') = false := beq_false_of_ne h₃
    simp [split, h, h₁, h₂, h₃]

theorem solid_of_not_reserved {c : Char} (h : isReserved c = false) : Solid [c] := by
  refine solid_of_not_special ?_ ?_ ?_ ?_ <;> rintro rfl <;> simp [isReserved] at h

theorem solid_symbol (c : Command) : Solid [c.symbol] := by
  cases c <;> exact solid_of_not_special (by decide) (by decide) (by decide) (by decide)

theorem split_true_of_enclosed {raw : List Char} (h : Enclosed raw) (rest : List Char) :
    split true (raw ++ ']' :: rest) = prepend (raw ++ [']']) (split false rest) := by
  induction h with
  | nil => simp [split]
  | @plain c text hc hc' _ ih =>
    have hc' : (c != ']') = true := by simpa using hc'
    rw [List.cons_append, List.cons_append, prepend_cons, ← ih]
    simp [split, hc, hc']
  | @escaped c text _ ih =>
    have hfront : prepend (['\\', c] ++ (text ++ [']'])) (split false rest) =
        prepend ['\\', c] (prepend (text ++ [']']) (split false rest)) := prepend_append _ _ _
    rw [← ih] at hfront
    exact hfront ▸ by simp [split]

theorem split_bracket (text : List Char) : split false ('[' :: text) = prepend ['['] (split true text) := by
  simp [split]

theorem solid_bracket {raw : List Char} (h : Enclosed raw) : Solid ('[' :: (raw ++ [']'])) := fun rest => by
  rw [List.cons_append, List.append_assoc, List.singleton_append, split_bracket, split_true_of_enclosed h]
  exact (prepend_cons '[' (raw ++ [']']) _).symm

theorem split_solid (h : Solid text) (separator : Separator) (rest : List Char) :
    split false (text ++ separator.symbol :: rest) = ⟨text, some separator⟩ :: split false rest := by
  rw [h]
  cases separator <;> simp [split, prepend, Separator.symbol]

theorem split_solid_end (h : Solid text) : split false text = [⟨text, none⟩] := by
  have := h []
  simpa [split, prepend] using this

end Token

/-! ### Spelled texts -/

theorem NameText.solid {name : List Char} (h : NameText text name) : Token.Solid text := by
  induction h with
  | nil => exact Token.solid_nil
  | plain hc _ ih => exact Token.Solid.append (Token.solid_of_not_reserved hc) ih
  | @escaped c text _ _ ih =>
    have hpair : Token.Solid ['\\', c] := fun rest => by simp [Token.split]
    exact hpair.append ih

theorem NameText.enclosed {name : List Char} (h : NameText text name) : Enclosed text := by
  induction h with
  | nil => exact .nil
  | plain hc _ ih =>
    refine .plain ?_ ?_ ih <;> rintro rfl <;> simp [isReserved] at hc
  | escaped _ ih => exact .escaped ih

theorem Commands.SpelledBy.solid {c : Commands} (h : c.SpelledBy text) : Token.Solid text := by
  obtain ⟨order, -, -, -, rfl⟩ := h
  induction order with
  | nil => exact Token.solid_nil
  | cons d order ih => exact (Token.solid_symbol d).append ih

theorem Commands.SpelledBy.enclosed {c : Commands} (h : c.SpelledBy text) : Enclosed text := by
  obtain ⟨order, -, -, -, rfl⟩ := h
  induction order with
  | nil => exact .nil
  | cons d order ih => exact .plain (by cases d <;> decide) (by cases d <;> decide) ih

theorem Body.SpelledBy.solid {b : Body σ} (h : b.SpelledBy text) (hw : b.WellFormed Inner)
    (hi : ∀ raw inner, Inner raw inner → Enclosed raw) : Token.Solid text := by
  cases b with
  | field name => exact h.1.solid
  | index digits => exact h ▸ (nameText_digits hw.2.1).solid
  | here => exact h ▸ Token.solid_of_not_special (by decide) (by decide) (by decide) (by decide)
  | append => exact h ▸ Token.solid_nil
  | bracket raw inner => exact h ▸ Token.solid_bracket (hi raw inner hw)

theorem Segment.SpelledBy.solid (h : s.SpelledBy text) (hw : s.body.WellFormed Inner)
    (hi : ∀ raw inner, Inner raw inner → Enclosed raw) : Token.Solid text := by
  obtain ⟨front, back, hf, hb, rfl⟩ := h
  exact hf.solid.append (hb.solid hw hi)

theorem Segment.SpelledBy.enclosed {s : Segment σ} (h : s.SpelledBy text) (hl : s.Lawful NoBracket) :
    Enclosed text := by
  obtain ⟨front, back, hf, hb, rfl⟩ := h
  refine hf.enclosed.append ?_
  have hw := hl.body
  cases hbody : s.body with
  | field name => exact (hbody ▸ hb).1.enclosed
  | index digits => exact (hbody ▸ hb) ▸ (nameText_digits (hbody ▸ hw).2.1).enclosed
  | here => exact (hbody ▸ hb) ▸ .plain (by decide) (by decide) .nil
  | append => exact (hbody ▸ hb) ▸ .nil
  | bracket raw inner => exact (hbody ▸ hw : Body.WellFormed NoBracket (.bracket raw inner)).elim

theorem separator_enclosed : Enclosed [s.separator] := by
  unfold Segment.separator
  split <;> exact .plain (by decide) (by decide) .nil

/-- A path without brackets can be written in a bracket. -/
theorem Path.SpelledBy.enclosed (h : Path.SpelledBy p text) (hl : ∀ s ∈ p, s.Lawful NoBracket) : Enclosed text := by
  induction h with
  | last hs _ => exact hs.enclosed (hl _ (by simp))
  | dotted hs _ => exact (hs.enclosed (hl _ (by simp))).append (.plain (by decide) (by decide) .nil)
  | cons hs _ ih =>
    have hrest := ih fun t ht => hl t (by simp [ht])
    exact (hs.enclosed (hl _ (by simp))).append (separator_enclosed.append hrest)

end TreeQuery
