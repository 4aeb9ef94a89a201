import TreeQuery.Text.Digits

/-! # Digits of numbers

How the digits of a number begin and how they go on when it is multiplied by a power of ten, and what digits spell when
more are put behind them. Digits that spell the same number differ in the zeros in front at most
(`eq_zeros_append`). -/

namespace TreeQuery.Digits

variable {ds rest xs ys : List Char} {m : Nat}

/-! ### Runs of digits -/

theorem isDigits_replicate (k : Nat) : isDigits (List.replicate k '0') = true :=
  List.all_eq_true.mpr fun _ hc => List.eq_of_mem_replicate hc ▸ rfl

theorem isDigits_append : isDigits (xs ++ ys) = true ↔ isDigits xs = true ∧ isDigits ys = true := by
  rw [isDigits, List.all_append, Bool.and_eq_true]
  rfl

theorem split_append (h : isDigits ds = true) (hr : ∀ c ∈ rest.head?, c.isDigit = false) :
    split (ds ++ rest) = (ds, rest) := by
  induction ds with
  | nil =>
    cases rest with
    | nil => rfl
    | cons c rest => exact if_neg (by simp [hr c rfl])
  | cons c ds ih =>
    rw [isDigits, List.all_cons, Bool.and_eq_true] at h
    rw [List.cons_append, split, if_pos h.1, ih h.2]

/-! ### What digits spell -/

theorem value_append (xs ys : List Char) : value (xs ++ ys) = value xs * 10 ^ ys.length + value ys := by
  rw [value, Nat.ofDigitChars_append, Nat.ofDigitChars_eq_ofDigitChars_zero, Nat.mul_comm]
  rfl

theorem value_replicate (k : Nat) : value (List.replicate k '0') = 0 := by
  rw [value, Nat.ofDigitChars_replicate_zero, Nat.mul_zero]

/-! ### The digits of a number -/

theorem ofNat_zero : ofNat 0 = ['0'] := Nat.toDigits_zero 10

/-- No number but zero is spelled with a zero in front. -/
theorem head?_ofNat (k : Nat) (hk : 0 < k) : (ofNat k).head? ≠ some '0' := by
  induction k using Nat.strongRecOn with
  | ind k ih =>
    by_cases hlt : k < 10
    · rw [ofNat, Nat.toDigits_of_lt_base hlt, List.head?_cons]
      intro h
      have hzero := Nat.digitChar_eq_zero.mp (Option.some.inj h)
      omega
    · have hfront := ih (k / 10) (by omega) (by omega)
      obtain ⟨c, cs, hc⟩ := List.exists_cons_of_ne_nil (ofNat_ne_nil (k / 10))
      have hdigits : ofNat k = ofNat (k / 10) ++ [Nat.digitChar (k % 10)] :=
        Nat.toDigits_of_base_le (by decide) (by omega)
      rw [hdigits, hc]
      rwa [hc] at hfront

theorem ofNat_mul_ten (hm : 0 < m) : ofNat (m * 10) = ofNat m ++ ['0'] := by
  have happend := Nat.toDigits_append_toDigits (b := 10) (d := 0) (by decide) hm (by decide)
  rw [ofNat, Nat.mul_comm, ofNat, ← ofNat_zero]
  exact happend.symm

theorem ofNat_mul_pow (hm : 0 < m) (k : Nat) : ofNat (m * 10 ^ k) = ofNat m ++ List.replicate k '0' := by
  induction k with
  | zero => simp
  | succ k ih =>
    have hpos : 0 < m * 10 ^ k := Nat.mul_pos hm (Nat.pow_pos (by decide))
    rw [Nat.pow_succ, ← Nat.mul_assoc, ofNat_mul_ten hpos, ih, List.replicate_succ', List.append_assoc]

/-! ### Zeros in front -/

/-- A digit is the one that spells its number. -/
theorem exists_digitChar {c : Char} (h : c.isDigit = true) : ∃ n < 10, c = Nat.digitChar n := by
  obtain ⟨hlow, hhigh⟩ := Char.isDigit_iff_toNat.mp h
  have hlow : 48 ≤ c.toNat := hlow
  have hhigh : c.toNat ≤ 57 := hhigh
  refine ⟨c.toNat - 48, by omega, Char.toNat_inj.mp ?_⟩
  rw [Nat.toNat_digitChar_of_lt_ten (by omega)]
  omega

/-- Digits behind those of a number are the digits of what the two spell together. -/
theorem ofNat_ofDigitChars (h : isDigits ds = true) (hm : 0 < m) :
    ofNat (Nat.ofDigitChars 10 ds m) = ofNat m ++ ds := by
  induction ds generalizing m with
  | nil => simp
  | cons c ds ih =>
    rw [isDigits, List.all_cons, Bool.and_eq_true] at h
    obtain ⟨n, hn, rfl⟩ := exists_digitChar h.1
    have hnext : ofNat (10 * m + n) = ofNat m ++ [n.digitChar] := by
      rw [ofNat, ← Nat.toDigits_append_toDigits (by decide) hm hn, Nat.toDigits_of_lt_base hn]
      rfl
    rw [Nat.ofDigitChars_cons_digitChar_of_lt_ten hn, ih h.2 (by omega), hnext, List.append_assoc]
    rfl

/-- Digits are zeros in front of the digits of the number they spell. -/
theorem eq_zeros_append (h : isDigits ds = true) (hne : ds ≠ []) :
    ∃ k, ds = List.replicate k '0' ++ ofNat (value ds) := by
  induction ds with
  | nil => exact absurd rfl hne
  | cons c ds ih =>
    rw [isDigits, List.all_cons, Bool.and_eq_true] at h
    obtain ⟨n, hn, rfl⟩ := exists_digitChar h.1
    have hvalue : value (n.digitChar :: ds) = Nat.ofDigitChars 10 ds n := by
      rw [value, Nat.ofDigitChars_cons_digitChar_of_lt_ten hn, Nat.mul_zero, Nat.zero_add]
    rw [hvalue]
    rcases Nat.eq_zero_or_pos n with rfl | hpos
    · by_cases hds : ds = []
      · exact ⟨0, by rw [hds]; rfl⟩
      · obtain ⟨k, hk⟩ := ih h.2 hds
        refine ⟨k + 1, ?_⟩
        rw [List.replicate_succ, List.cons_append]
        exact congrArg _ hk
    · refine ⟨0, ?_⟩
      rw [ofNat_ofDigitChars h.2 hpos, ofNat, Nat.toDigits_of_lt_base hn]
      rfl

end TreeQuery.Digits
