import TreeQuery.Proofs.Number.Decimal
import TreeQuery.Proofs.Number.Numeral

/-! # Decimals are read back

A decimal is laid out in one of six ways (`Decimal.Laid`). Each of them is a well-formed numeral that spells the same
number, so a decimal that is written and read again denotes what it did (`value_written`), and is written in the same
way again (`numeral_written`). Its digits and scale change only where it is written without an exponent and has no
digits behind the point: then there is one zero behind the point. -/

namespace TreeQuery

variable {d : Decimal} {n : Numeral} {m k : Nat} {s : Int}

namespace Decimal

/-! ### The layouts -/

/-- The ways in which a decimal is laid out as a numeral. -/
inductive Laid (d : Decimal) : Numeral → Prop where
  | zero (h : d.digits = 0) : Laid d ⟨false, ['0'], some ['0'], none⟩
  | small (h : d.digits ≠ 0) (hs : 5 < d.scale - d.size) :
    Laid d ⟨d.digits < 0, d.digitText.take 1, if d.size = 1 then none else some (d.digitText.drop 1),
      some (true, Digits.ofNat (d.scale + 1 - d.size).toNat)⟩
  | large (h : d.digits ≠ 0) (hs : 15 < -d.scale) :
    Laid d ⟨d.digits < 0, d.digitText, none, some (false, Digits.ofNat (-d.scale).toNat)⟩
  | whole (h : d.digits ≠ 0) (hs : -15 ≤ d.scale) (hs' : d.scale ≤ 0) :
    Laid d ⟨d.digits < 0, d.digitText ++ List.replicate (-d.scale).toNat '0', some ['0'], none⟩
  | padded (h : d.digits ≠ 0) (hs : d.size ≤ d.scale) (hs' : d.scale - d.size ≤ 5) :
    Laid d ⟨d.digits < 0, ['0'], some (List.replicate (d.scale - d.size).toNat '0' ++ d.digitText), none⟩
  | point (h : d.digits ≠ 0) (hs : 0 < d.scale) (hs' : d.scale < d.size) :
    Laid d ⟨d.digits < 0, d.digitText.take (d.size - d.scale.toNat), some (d.digitText.drop (d.size - d.scale.toNat)), none⟩

theorem size_pos (d : Decimal) : 0 < d.size := List.length_pos_iff.mpr (Digits.ofNat_ne_nil _)

theorem numeral_of_zero (h : d.digits = 0) : d.numeral = ⟨false, ['0'], some ['0'], none⟩ := by
  have htext : d.digitText = ['0'] := by
    rw [digitText, h]
    exact Digits.ofNat_zero
  simp [numeral, layout, h, htext, Numeral.isInteger]

section
variable (h : d.digits ≠ 0)
include h

theorem numeral_of_small (hs : 5 < d.scale - d.size) :
    d.numeral = ⟨d.digits < 0, d.digitText.take 1, if d.size = 1 then none else some (d.digitText.drop 1),
      some (true, Digits.ofNat (d.scale + 1 - d.size).toNat)⟩ := by
  have hlayout : d.layout = ⟨d.digits < 0, d.digitText.take 1, if d.size = 1 then none else some (d.digitText.drop 1),
      some (true, Digits.ofNat (d.scale + 1 - d.size).toNat)⟩ := by
    rw [size] at hs
    simp only [layout, if_neg h, if_pos hs, size]
    rfl
  rw [numeral, hlayout]
  exact if_neg (by simp [Numeral.isInteger])

theorem numeral_of_large (hs : 15 < -d.scale) :
    d.numeral = ⟨d.digits < 0, d.digitText, none, some (false, Digits.ofNat (-d.scale).toNat)⟩ := by
  have hlayout : d.layout = ⟨d.digits < 0, d.digitText, none, some (false, Digits.ofNat (-d.scale).toNat)⟩ := by
    simp only [layout, if_neg h]
    rw [if_neg (by omega), if_pos hs]
  rw [numeral, hlayout]
  rfl

theorem numeral_of_whole (hs : -15 ≤ d.scale) (hs' : d.scale ≤ 0) :
    d.numeral = ⟨d.digits < 0, d.digitText ++ List.replicate (-d.scale).toNat '0', some ['0'], none⟩ := by
  have hlayout : d.layout = ⟨d.digits < 0, d.digitText ++ List.replicate (-d.scale).toNat '0', none, none⟩ := by
    simp only [layout, if_neg h]
    rw [if_neg (by omega), if_neg (by omega), if_pos hs']
  rw [numeral, hlayout]
  rfl

/-- Digits behind a point may be filled up with zeros in front, so that there is one before the point. -/
theorem layout_of_scale_pos (zeros point : Nat) (hs : 0 < d.scale) (hs' : d.scale - d.size ≤ 5)
    (hzeros : (d.scale + 1 - d.size).toNat = zeros) (hpoint : zeros + d.size - d.scale.toNat = point) :
    d.layout = ⟨d.digits < 0, (List.replicate zeros '0' ++ d.digitText).take point,
      some ((List.replicate zeros '0' ++ d.digitText).drop point), none⟩ := by
  have hlength : d.digitText.length = d.size := rfl
  simp only [layout, if_neg h, List.length_append, List.length_replicate, hlength]
  rw [if_neg (by omega), if_neg (by omega), if_neg (by omega), hzeros, hpoint]

theorem numeral_of_padded (hs : d.size ≤ d.scale) (hs' : d.scale - d.size ≤ 5) :
    d.numeral = ⟨d.digits < 0, ['0'], some (List.replicate (d.scale - d.size).toNat '0' ++ d.digitText), none⟩ := by
  have hsize := d.size_pos
  have hlayout := layout_of_scale_pos h ((d.scale - d.size).toNat + 1) 1 (by omega) hs' (by omega) (by omega)
  rw [numeral, hlayout]
  rfl

theorem numeral_of_point (hs : 0 < d.scale) (hs' : d.scale < d.size) :
    d.numeral = ⟨d.digits < 0, d.digitText.take (d.size - d.scale.toNat),
      some (d.digitText.drop (d.size - d.scale.toNat)), none⟩ := by
  have hlayout := layout_of_scale_pos h 0 (0 + d.size - d.scale.toNat) hs (by omega) (by omega) rfl
  rw [numeral, hlayout, Nat.zero_add]
  rfl

end

theorem laid_numeral (d : Decimal) : Laid d d.numeral := by
  by_cases h : d.digits = 0
  · exact numeral_of_zero h ▸ .zero h
  by_cases hsmall : 5 < d.scale - d.size
  · exact numeral_of_small h hsmall ▸ .small h hsmall
  by_cases hlarge : 15 < -d.scale
  · exact numeral_of_large h hlarge ▸ .large h hlarge
  by_cases hwhole : d.scale ≤ 0
  · exact numeral_of_whole h (by omega) hwhole ▸ .whole h (by omega) hwhole
  by_cases hpadded : d.size ≤ d.scale
  · exact numeral_of_padded h hpadded (by omega) ▸ .padded h hpadded (by omega)
  · exact numeral_of_point h (by omega) (by omega) ▸ .point h (by omega) (by omega)

/-! ### Well-formedness -/

theorem isRun_digitText (d : Decimal) : Numeral.IsRun d.digitText := Numeral.isRun_ofNat _

theorem head?_digitText (h : d.digits ≠ 0) : d.digitText.head? ≠ some '0' := Digits.head?_ofNat _ (Int.natAbs_pos.mpr h)

theorem Laid.wellFormed (h : Laid d n) : n.WellFormed := by
  have hrun := d.isRun_digitText
  have hzero : Numeral.IsRun ['0'] := ⟨List.cons_ne_nil _ _, rfl⟩
  have hlength : d.digitText.length = d.size := rfl
  have hsize := d.size_pos
  obtain ⟨c, cs, hcs⟩ := List.exists_cons_of_ne_nil hrun.1
  -- A part of the digits has digits only.
  have htake : ∀ k, Digits.isDigits (d.digitText.take k) = true ∧ Digits.isDigits (d.digitText.drop k) = true := fun k =>
    Digits.isDigits_append.mp (by rw [List.take_append_drop]; exact hrun.2)
  cases h with
  | zero => exact ⟨Or.inl rfl, fun _ hf => Option.some.inj hf ▸ hzero, nofun⟩
  | small h hs =>
    refine ⟨Or.inr ⟨⟨?_, (htake 1).1⟩, ?_⟩, fun digits hf => ?_, fun e he => Option.some.inj he ▸ Numeral.isRun_ofNat _⟩
    · rw [hcs]
      exact List.cons_ne_nil _ _
    · have hhead := head?_digitText h
      rw [hcs] at hhead ⊢
      exact hhead
    · by_cases hone : d.size = 1
      · simp [hone] at hf
      · obtain rfl : d.digitText.drop 1 = digits := by simpa [hone] using hf
        exact ⟨List.ne_nil_of_length_pos (by rw [List.length_drop]; omega), (htake 1).2⟩
  | large h =>
    exact ⟨Numeral.whole_ofNat _, nofun, fun e he => Option.some.inj he ▸ Numeral.isRun_ofNat _⟩
  | whole h =>
    refine ⟨Or.inr ⟨⟨?_, Digits.isDigits_append.mpr ⟨hrun.2, Digits.isDigits_replicate _⟩⟩, ?_⟩,
      fun _ hf => Option.some.inj hf ▸ hzero, nofun⟩
    · rw [hcs]
      exact List.cons_ne_nil _ _
    · have hhead := head?_digitText h
      rw [hcs] at hhead ⊢
      exact hhead
  | padded h =>
    refine ⟨Or.inl rfl, fun digits hf => ?_, nofun⟩
    obtain rfl := Option.some.inj hf
    exact ⟨by simp [hrun.1], Digits.isDigits_append.mpr ⟨Digits.isDigits_replicate _, hrun.2⟩⟩
  | point h hs hs' =>
    refine ⟨Or.inr ⟨⟨List.ne_nil_of_length_pos ?_, (htake _).1⟩, ?_⟩, fun digits hf => ?_, nofun⟩
    · rw [List.length_take]
      omega
    · obtain ⟨j, hj⟩ : ∃ j, d.size - d.scale.toNat = j + 1 := ⟨d.size - d.scale.toNat - 1, by omega⟩
      have hhead := head?_digitText h
      rw [hcs] at hhead
      rw [hj, hcs]
      exact hhead
    · obtain rfl := Option.some.inj hf
      exact ⟨List.ne_nil_of_length_pos (by rw [List.length_drop]; omega), (htake _).2⟩

theorem numeral_wellFormed (d : Decimal) : d.numeral.WellFormed := d.laid_numeral.wellFormed

/-- No decimal reads as an integer. -/
theorem Laid.isInteger (h : Laid d n) : n.isInteger = false := by
  cases h <;> simp [Numeral.isInteger]

/-! ### What is read back -/

/-- The decimal that the numeral of a decimal spells. -/
def written (d : Decimal) : Decimal :=
  if d.digits = 0 then ⟨0, 1⟩
  else if -15 ≤ d.scale ∧ d.scale ≤ 0 then ⟨d.digits * 10 ^ (1 - d.scale).toNat, 1⟩
  else d

/-- Whether a scale is one of 64 bits. -/
def InRange (d : Decimal) : Prop := -2 ^ 63 ≤ d.scale ∧ d.scale < 2 ^ 63

/-- A decimal with another scale is not read. -/
theorem inRange_of_ofNumeral (h : ofNumeral n = .ok d) : d.InRange := by
  unfold ofNumeral at h
  dsimp only at h
  split at h
  · cases h
  split at h
  · cases h
  split at h
  · cases h
  · rename_i hscale
    cases h
    rw [not_or, Int.not_lt, Int.not_le] at hscale
    exact hscale

/-- What a numeral spells without its sign: the number of its digits, and their scale. -/
structure Spells (n : Numeral) (m : Nat) (s : Int) : Prop where
  digits : Digits.value (n.whole ++ n.fraction.getD []) = m
  scale : ((n.fraction.getD []).length : Int) - n.exponentValue = s
  exponent : -2 ^ 63 ≤ n.exponentValue ∧ n.exponentValue ≤ 2 ^ 63

theorem Spells.ofNumeral (h : Spells n m s) (hs : -2 ^ 63 ≤ s ∧ s < 2 ^ 63) :
    ofNumeral n = .ok ⟨if n.negative then -(m : Int) else m, s⟩ := by
  obtain ⟨hdigits, hscale, hexponent⟩ := h
  simp only [Decimal.ofNumeral, hdigits, hscale]
  rw [if_neg (by omega), if_neg (by omega), if_neg (by omega)]

theorem written_of_zero (h : d.digits = 0) : d.written = ⟨0, 1⟩ := if_pos h

theorem written_of_whole (h : d.digits ≠ 0) (hs : -15 ≤ d.scale) (hs' : d.scale ≤ 0) :
    d.written = ⟨d.digits * 10 ^ (1 - d.scale).toNat, 1⟩ := by
  rw [written, if_neg h, if_pos ⟨hs, hs'⟩]

theorem written_of_scale (h : d.digits ≠ 0) (hs : d.scale < -15 ∨ 0 < d.scale) : d.written = d := by
  rw [written, if_neg h, if_neg (by omega)]

theorem written_inRange (hd : d.InRange) : d.written.InRange := by
  unfold written
  split
  · exact ⟨by norm_num, by norm_num⟩
  · split
    · exact ⟨by norm_num, by norm_num⟩
    · exact hd

theorem digits_written_neg : d.written.digits < 0 ↔ d.digits < 0 := by
  unfold written
  split
  · rename_i h
    rw [h]
  · split
    · have hpow : (0 : Int) < 10 ^ (1 - d.scale).toNat := Int.pow_pos (by decide)
      refine ⟨fun h => ?_, fun h => Int.mul_neg_of_neg_of_pos h hpow⟩
      by_contra hge
      exact absurd h (Int.not_lt.mpr (Int.mul_nonneg (Int.not_lt.mp hge) hpow.le))
    · rfl

theorem Laid.negative (h : Laid d n) : n.negative = decide (d.digits < 0) := by
  cases h with
  | zero h => simp [h]
  | small | large | whole | padded | point => rfl

/-- However a decimal is laid out, the numeral spells what is said to be written. -/
theorem Laid.spells (h : Laid d n) (hd : d.InRange) : Spells n d.written.digits.natAbs d.written.scale := by
  obtain ⟨hlow, hhigh⟩ := hd
  have hvalue : Digits.value d.digitText = d.digits.natAbs := Digits.value_ofNat _
  have hlength : d.digitText.length = d.size := rfl
  have hsize := d.size_pos
  have hplain : -2 ^ 63 ≤ (0 : Int) ∧ (0 : Int) ≤ 2 ^ 63 := by decide
  cases h with
  | zero h =>
    rw [written_of_zero h]
    exact ⟨rfl, rfl, hplain⟩
  | small h hs =>
    have hfraction : (if d.size = 1 then none else some (d.digitText.drop 1)).getD [] = d.digitText.drop 1 := by
      split
      · rw [List.drop_eq_nil_of_le (by omega)]
        rfl
      · rfl
    rw [written_of_scale h (by omega)]
    refine ⟨?_, ?_, ?_⟩
    · rw [hfraction, List.take_append_drop, hvalue]
    · simp only [hfraction, Numeral.exponentValue, Digits.value_ofNat, List.length_drop, hlength, if_true]
      omega
    · simp only [Numeral.exponentValue, Digits.value_ofNat, if_true]
      omega
  | large h hs =>
    rw [written_of_scale h (by omega)]
    refine ⟨?_, ?_, ?_⟩
    · rw [Option.getD_none, List.append_nil, hvalue]
    · simp only [Numeral.exponentValue, Digits.value_ofNat, Option.getD_none, List.length_nil, Bool.false_eq_true, if_false]
      omega
    · simp only [Numeral.exponentValue, Digits.value_ofNat, Bool.false_eq_true, if_false]
      omega
  | whole h hs hs' =>
    have hpow : (1 - d.scale).toNat = (-d.scale).toNat + 1 := by omega
    have habs : (d.digits * 10 ^ (1 - d.scale).toNat).natAbs = d.digits.natAbs * 10 ^ (1 - d.scale).toNat := by
      rw [Int.natAbs_mul, Int.natAbs_pow]
      rfl
    have hzero : Digits.value ['0'] = 0 := rfl
    rw [written_of_whole h hs hs']
    refine ⟨?_, rfl, hplain⟩
    rw [Option.getD_some, Digits.value_append, Digits.value_append, hvalue, Digits.value_replicate, List.length_replicate,
      hzero, habs, hpow, Nat.pow_succ, ← Nat.mul_assoc]
    rfl
  | padded h hs hs' =>
    have hzero : Digits.value ['0'] = 0 := rfl
    rw [written_of_scale h (by omega)]
    refine ⟨?_, ?_, hplain⟩
    · rw [Option.getD_some, Digits.value_append, Digits.value_append, Digits.value_replicate, hvalue, hzero]
      simp
    · simp only [Numeral.exponentValue, Option.getD_some, List.length_append, List.length_replicate, hlength]
      omega
  | point h hs hs' =>
    rw [written_of_scale h (by omega)]
    refine ⟨?_, ?_, hplain⟩
    · rw [Option.getD_some, List.take_append_drop, hvalue]
    · simp only [Numeral.exponentValue, Option.getD_some, List.length_drop, hlength]
      omega

/-- What is read back from the numeral of a decimal. -/
theorem ofNumeral_numeral (hd : d.InRange) : ofNumeral d.numeral = .ok d.written := by
  have hlaid := d.laid_numeral
  have hsign : (if decide (d.digits < 0) then -(d.written.digits.natAbs : Int) else d.written.digits.natAbs) =
      d.written.digits := by
    have hneg := d.digits_written_neg
    by_cases h : d.digits < 0
    · rw [if_pos (by simpa using h)]
      omega
    · rw [if_neg (by simpa using h)]
      omega
  rw [(hlaid.spells hd).ofNumeral (written_inRange hd), hlaid.negative, hsign]

/-- What is read back denotes the same number. -/
theorem value_written (d : Decimal) : d.written.value = d.value := by
  by_cases h : d.digits = 0
  · rw [written_of_zero h, value_eq_zero_iff.mpr h, value_eq_zero_iff.mpr rfl]
  · by_cases hs : -15 ≤ d.scale ∧ d.scale ≤ 0
    · obtain ⟨hlow, hhigh⟩ := hs
      rw [written_of_whole h hlow hhigh]
      exact ((value_eq_iff_of_scale_le (by dsimp only; omega)).mpr rfl).symm
    · rw [written_of_scale h (by omega)]

/-- What is read back is written in the same way. -/
theorem numeral_written (d : Decimal) : d.written.numeral = d.numeral := by
  by_cases h : d.digits = 0
  · rw [numeral_of_zero h, written_of_zero h]
    exact numeral_of_zero rfl
  by_cases hs : -15 ≤ d.scale ∧ d.scale ≤ 0
  · obtain ⟨hlow, hhigh⟩ := hs
    obtain ⟨k, hk⟩ : ∃ k : Nat, d.scale = -k := ⟨(-d.scale).toNat, by omega⟩
    have hscale : (1 - d.scale).toNat = k + 1 := by omega
    have htext : digitText ⟨d.digits * 10 ^ (k + 1), 1⟩ = (d.digitText ++ List.replicate k '0') ++ ['0'] := by
      have habs : (d.digits * 10 ^ (k + 1)).natAbs = d.digits.natAbs * 10 ^ (k + 1) := by
        rw [Int.natAbs_mul, Int.natAbs_pow]
        rfl
      rw [digitText, habs, Digits.ofNat_mul_pow (Int.natAbs_pos.mpr h), List.replicate_succ', ← List.append_assoc]
      rfl
    have hsize : size ⟨d.digits * 10 ^ (k + 1), 1⟩ = (d.digitText ++ List.replicate k '0').length + 1 := by
      rw [size, htext, List.length_append]
      rfl
    have hfront : 0 < (d.digitText ++ List.replicate k '0').length := by
      rw [List.length_append]
      exact Nat.add_pos_left d.size_pos _
    have hne : d.digits * 10 ^ (k + 1) ≠ 0 := Int.mul_ne_zero h (Int.pow_ne_zero (by decide))
    have hneg : d.written.digits < 0 ↔ d.digits < 0 := digits_written_neg
    rw [written_of_whole h hlow hhigh, hscale] at hneg
    rw [written_of_whole h hlow hhigh, hscale, numeral_of_whole h hlow hhigh,
      numeral_of_point (d := ⟨d.digits * 10 ^ (k + 1), 1⟩) hne Int.one_pos (by dsimp only; omega), hsize, htext]
    have hzeros : (-d.scale).toNat = k := by omega
    rw [List.take_left' (by simp), List.drop_left' (by simp), hzeros, decide_eq_decide.mpr hneg]
  · rw [written_of_scale h (by omega)]

end Decimal

end TreeQuery
