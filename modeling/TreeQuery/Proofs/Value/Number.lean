import TreeQuery.Proofs.Value.Text

/-! # Numbers keep all their digits

The text of a decimal in JSON is the text of the decimal itself, with a fraction of one zero where it would read as an
integer and with a lower-case exponent mark (`Decimal.numeral_text`). It is read back as a decimal with the same digits
and scale, unless there was nothing behind the point: then there is one zero. An integer is read back as it was
(`Value.ofText_number`). -/

namespace TreeQuery

variable {n : Numeral} {ds xs ys : List Char}

/-! ### Marks -/

namespace Numeral

/-- Whether a character tells the text of a decimal from that of an integer. -/
def isMark (c : Char) : Bool := c = '.' ∨ c = 'e' ∨ c = 'E'

/-- The text of a number with a lower-case exponent mark. -/
def lowerMark (text : List Char) : List Char := text.map fun c => if c = 'E' then 'e' else c

theorem lowerMark_append : lowerMark (xs ++ ys) = lowerMark xs ++ lowerMark ys := List.map_append

/-- Digits are no marks. -/
theorem ne_mark_of_isDigit {c : Char} (h : c.isDigit = true) : c ≠ '.' ∧ c ≠ 'e' ∧ c ≠ 'E' := by
  refine ⟨?_, ?_, ?_⟩ <;> rintro rfl <;> cases h

theorem lowerMark_digits (h : Digits.isDigits ds = true) : lowerMark ds = ds := by
  refine (List.map_congr_left fun c hc => ?_).trans (List.map_id ds)
  exact if_neg (ne_mark_of_isDigit (List.all_eq_true.mp h c hc)).2.2

theorem any_isMark_digits (h : Digits.isDigits ds = true) : ds.any isMark = false := by
  refine List.any_eq_false.mpr fun c hc => ?_
  simp [isMark, ne_mark_of_isDigit (List.all_eq_true.mp h c hc)]

/-! ### Texts with an upper-case mark -/

/-- The text of a numeral as decimals are written: a negative exponent is marked with `E`. -/
def markedText (n : Numeral) : List Char :=
  ({ n with exponent := none } : Numeral).text ++
    match n.exponent with
    | some (true, digits) => 'E' :: '-' :: digits
    | some (false, digits) => 'e' :: '+' :: digits
    | none => []

/-- Only the exponent mark tells the two texts of a numeral apart. -/
theorem lowerMark_markedText (h : n.WellFormed) : lowerMark n.markedText = n.text := by
  obtain ⟨negative, whole, fraction, exponent⟩ := n
  have hwhole : lowerMark whole = whole := lowerMark_digits h.isRun.2
  have hsign : lowerMark (if negative then ['-'] else []) = if negative then ['-'] else [] := by cases negative <;> rfl
  have hfraction : lowerMark (fraction.elim [] ('.' :: ·)) = fraction.elim [] ('.' :: ·) := by
    cases fraction with
    | none => rfl
    | some digits => exact congrArg ('.' :: ·) (lowerMark_digits (h.fraction digits rfl).2)
  have hfront : lowerMark (text ⟨negative, whole, fraction, none⟩) = text ⟨negative, whole, fraction, none⟩ := by
    simp only [text, lowerMark_append, hsign, hwhole, hfraction, Option.elim_none]
    rfl
  rw [markedText, lowerMark_append, hfront, text, text, Option.elim_none, List.append_nil]
  congr 1
  rcases exponent with _ | ⟨_ | _, digits⟩
  · rfl
  · exact congrArg ('e' :: '+' :: ·) (lowerMark_digits (h.exponent _ rfl).2)
  · exact congrArg ('e' :: '-' :: ·) (lowerMark_digits (h.exponent _ rfl).2)

/-- The texts without marks are those of integers. -/
theorem any_isMark_markedText (h : n.WellFormed) : n.markedText.any isMark = !n.isInteger := by
  obtain ⟨negative, whole, fraction, exponent⟩ := n
  have hwhole : whole.any isMark = false := any_isMark_digits h.isRun.2
  have hsign : (if negative then ['-'] else []).any isMark = false := by cases negative <;> rfl
  simp only [markedText, text, List.any_append, hsign, hwhole, Bool.false_or, isInteger, Option.elim_none, List.any_nil,
    Bool.or_false]
  rcases fraction with _ | digits <;> rcases exponent with _ | ⟨_ | _, digits⟩ <;> rfl

end Numeral

/-! ### Texts of decimals -/

namespace Decimal

/-- The text of a decimal, with a fraction of one zero behind it if it has no mark. -/
def pointedText (d : Decimal) : List Char := if d.text.any Numeral.isMark then d.text else d.text ++ ['.', '0']

theorem layout_wellFormed (d : Decimal) : d.layout.WellFormed := by
  have h := d.numeral_wellFormed
  unfold numeral at h
  dsimp only at h
  split at h
  · rename_i hinteger
    have hfraction : d.layout.fraction = none := Option.isNone_iff_eq_none.mp (Bool.and_eq_true_iff.mp hinteger).1
    exact ⟨h.whole, fun digits hdigits => (nomatch hfraction ▸ hdigits), h.exponent⟩
  · exact h

theorem text_eq_markedText (d : Decimal) : d.text = d.layout.markedText := rfl

/-- The text of a decimal in JSON differs from its own in a fraction of one zero and in the exponent mark at most. -/
theorem numeral_text (d : Decimal) : d.numeral.text = Numeral.lowerMark d.pointedText := by
  have hwf := d.layout_wellFormed
  have hlower := Numeral.lowerMark_markedText hwf
  rw [pointedText, text_eq_markedText, Numeral.any_isMark_markedText hwf, numeral]
  cases hinteger : d.layout.isInteger with
  | true =>
    have hparts := Bool.and_eq_true_iff.mp hinteger
    have hfraction : d.layout.fraction = none := Option.isNone_iff_eq_none.mp hparts.1
    have hexponent : d.layout.exponent = none := Option.isNone_iff_eq_none.mp hparts.2
    rw [if_pos rfl, if_neg (by simp), Numeral.lowerMark_append, hlower]
    simp only [Numeral.text, hfraction, hexponent, Option.elim_none, Option.elim_some, List.append_nil]
    rfl
  | false => rw [if_neg Bool.false_ne_true, if_pos (by simp), hlower]

end Decimal

/-! ### Reading back -/

namespace Value

/-- Whether a text is that of one number in JSON, kept as it is spelled, and what value it is read as. -/
def ReadAs (text : List Char) (v : Value) : Prop :=
  ∃ n, Numeral.read text = some (n, []) ∧ n.text = text ∧ ofNumeral n = .ok v

theorem readAs_text {n : Numeral} {v : Value} (hn : n.WellFormed) (h : ofNumeral n = .ok v) : ReadAs n.text v := by
  have hread : Numeral.read (n.text ++ []) = some (n, []) := Numeral.read_append hn nofun
  rw [List.append_nil] at hread
  exact ⟨n, hread, rfl, h⟩

theorem ofText_written {v : Value} (hv : v.Ordered) (hs : v.Scaled) (hdepth : v.depth < Json.maxNesting) :
    ofText v.text = .ok v.written := by
  have hreadable := readable_toJson hv (Nat.le_pred_of_lt hdepth)
  rw [ofText, text, serialize_compact, Json.ofText?, String.toList_ofList, Json.ofChars?_compact hreadable]
  exact ofJson_toJson hs

theorem text_decimal (d : Decimal) : (decimal d).text = String.ofList (Numeral.lowerMark d.pointedText) := by
  rw [← d.numeral_text]
  rfl

/-- The text of an integer is the usual one. -/
theorem ofInt_text (i : Int) : (Numeral.ofInt i).text = (toString i).toList := by
  have hrepr : toString i = i.repr := rfl
  rw [hrepr, Int.repr_eq_if]
  by_cases h : 0 ≤ i
  · have hdigits : i.natAbs = i.toNat := by omega
    rw [if_pos h, Nat.toList_repr]
    simp [Numeral.ofInt, Numeral.text, h, hdigits, Digits.ofNat]
  · have hdigits : i.natAbs = (-i).toNat := by omega
    rw [if_neg h, String.toList_append, Nat.toList_repr]
    simp [Numeral.ofInt, Numeral.text, Int.not_le.mp h, hdigits, Digits.ofNat]

theorem text_int (i : Int) : (int i).text = toString i := by
  have htext : (int i).text = String.ofList (Numeral.ofInt i).text := rfl
  rw [htext, ofInt_text, String.ofList_toList]

theorem readAs_decimal {d : Decimal} (hd : d.InRange) :
    ReadAs (Numeral.lowerMark d.pointedText) (decimal d.written) := by
  have hread : ofNumeral d.numeral = .ok (decimal d.written) := by
    rw [ofNumeral, d.laid_numeral.isInteger, d.ofNumeral_numeral hd]
    rfl
  rw [← d.numeral_text]
  exact readAs_text d.numeral_wellFormed hread

theorem readAs_int (i : Int) : ReadAs (toString i).toList (int i) := by
  have hread : ofNumeral (Numeral.ofInt i) = .ok (int i) :=
    (if_pos rfl).trans (congrArg (fun i => Except.ok (int i)) (wholeValue_ofInt i))
  rw [← ofInt_text]
  exact readAs_text (Numeral.ofInt_wellFormed i) hread

/-- The text of a decimal whose scale has 64 bits is read back as a decimal. It has the same digits and scale where the
    scale is positive or below -15. Otherwise the decimal is written with one zero behind the point, which counts as a
    digit, and zero is written `0.0`. What is read denotes the same number and is written in the same way again. An
    integer is read back as it was. -/
theorem ofText_number {d : Decimal} (hd : d.InRange) (i : Int) :
    (decimal d).text = String.ofList (Numeral.lowerMark d.pointedText) ∧
      (∃ w, ReadAs (Numeral.lowerMark d.pointedText) (decimal w) ∧ ofText (decimal d).text = .ok (decimal w) ∧
        (d.digits ≠ 0 → 0 < d.scale ∨ d.scale < -15 → w = d) ∧
        (d.digits ≠ 0 → -15 ≤ d.scale → d.scale ≤ 0 → w = ⟨d.digits * 10 ^ (1 - d.scale).toNat, 1⟩) ∧
        (d.digits = 0 → w = ⟨0, 1⟩) ∧ w.value = d.value ∧
        Numeral.lowerMark w.pointedText = Numeral.lowerMark d.pointedText) ∧
      (int i).text = toString i ∧ ReadAs (toString i).toList (int i) ∧ ofText (int i).text = .ok (int i) := by
  have hdecimal : ofText (decimal d).text = .ok (decimal d.written) :=
    ofText_written trivial (.decimal hd) (Nat.succ_pos 127)
  have hint : ofText (int i).text = .ok (int i) := ofText_written trivial (.int i) (Nat.succ_pos 127)
  have hagain : Numeral.lowerMark d.written.pointedText = Numeral.lowerMark d.pointedText := by
    rw [← d.written.numeral_text, ← d.numeral_text, d.numeral_written]
  refine ⟨text_decimal d, ⟨d.written, readAs_decimal hd, hdecimal, ?_, ?_, ?_, d.value_written, hagain⟩, text_int i,
    readAs_int i, hint⟩
  · intro h hs
    exact Decimal.written_of_scale h hs.symm
  · intro h hlow hhigh
    exact Decimal.written_of_whole h hlow hhigh
  · intro h
    exact Decimal.written_of_zero h

/-- The smallest scale is kept, and so is the value at the last one that is written with zeros only. -/
theorem ofText_number_extreme :
    ofText "-12e+9223372036854775808" = .ok (decimal ⟨-12, -2 ^ 63⟩) ∧
      ofText "-7000000000000000.0" = .ok (decimal ⟨-70000000000000000, 1⟩) ∧ ofText "-30" = .ok (int (-30)) := by
  obtain ⟨-, ⟨w, -, hsmallest, hsame, -⟩, -⟩ := ofText_number (d := ⟨-12, -2 ^ 63⟩) ⟨by decide, by decide⟩ 0
  obtain ⟨-, ⟨u, -, hlast, -, hzeros, -⟩, -, -, hint⟩ := ofText_number (d := ⟨-7, -15⟩) ⟨by decide, by decide⟩ (-30)
  rw [hsame (by decide) (by decide)] at hsmallest
  rw [hzeros (by decide) (by decide) (by decide)] at hlast
  exact ⟨hsmallest, hlast, hint⟩

end Value

end TreeQuery
