import TreeQuery.Number.Numeral
import TreeQuery.Proofs.Text.Digits

/-! # Numerals are read back

A numeral that is spelled by the rules of the format (`Numeral.WellFormed`) is what its text is read as, if the text
behind it does not go on like a number (`Numeral.Stops`). Integers are spelled by these rules. -/

namespace TreeQuery

variable {n : Numeral} {ds rest : List Char} {negative : Bool}

namespace Numeral

/-! ### The rules -/

/-- One digit or more. -/
def IsRun (digits : List Char) : Prop := digits ≠ [] ∧ Digits.isDigits digits = true

/-- The rules of the format. -/
structure WellFormed (n : Numeral) : Prop where
  whole : n.whole = ['0'] ∨ IsRun n.whole ∧ n.whole.head? ≠ some '0'
  fraction : ∀ digits ∈ n.fraction, IsRun digits
  exponent : ∀ e ∈ n.exponent, IsRun e.2

/-- Whether a text does not go on as a number that stands before it would. -/
def Stops (rest : List Char) : Prop := ∀ c ∈ rest.head?, c.isDigit = false ∧ c ≠ '.' ∧ c ≠ 'e' ∧ c ≠ 'E'

theorem WellFormed.isRun (h : n.WellFormed) : IsRun n.whole := by
  rcases h.whole with hzero | ⟨hrun, -⟩
  · rw [hzero]
    exact ⟨List.cons_ne_nil _ _, rfl⟩
  · exact hrun

theorem isRun_ofNat (k : Nat) : IsRun (Digits.ofNat k) := ⟨Digits.ofNat_ne_nil k, Digits.isDigits_ofNat k⟩

/-- The digits of a number are the whole digits of a numeral. -/
theorem whole_ofNat (k : Nat) :
    Digits.ofNat k = ['0'] ∨ IsRun (Digits.ofNat k) ∧ (Digits.ofNat k).head? ≠ some '0' := by
  rcases Nat.eq_zero_or_pos k with rfl | hk
  · exact Or.inl Digits.ofNat_zero
  · exact Or.inr ⟨isRun_ofNat k, Digits.head?_ofNat k hk⟩

theorem ofInt_wellFormed (i : Int) : (ofInt i).WellFormed := ⟨whole_ofNat _, nofun, nofun⟩

/-! ### The parts -/

theorem readDigits_append (h : IsRun ds) (hr : ∀ c ∈ rest.head?, c.isDigit = false) :
    readDigits (ds ++ rest) = some (ds, rest) := by
  obtain ⟨hne, hd⟩ := h
  obtain ⟨c, cs, rfl⟩ := List.exists_cons_of_ne_nil hne
  rw [readDigits, Digits.split_append hd hr]

theorem readWhole_append (h : ds = ['0'] ∨ IsRun ds ∧ ds.head? ≠ some '0') (hr : ∀ c ∈ rest.head?, c.isDigit = false) :
    readWhole (ds ++ rest) = some (ds, rest) := by
  rcases h with rfl | ⟨hrun, hhead⟩
  · rfl
  · obtain ⟨c, cs, rfl⟩ := List.exists_cons_of_ne_nil hrun.1
    have hc : c ≠ '0' := fun hc => hhead (congrArg some hc)
    rw [List.cons_append, readWhole]
    · exact readDigits_append hrun hr
    · simpa using hc

theorem readFraction_append {fraction : Option (List Char)} (h : ∀ digits ∈ fraction, IsRun digits)
    (hr : ∀ c ∈ rest.head?, c.isDigit = false ∧ c ≠ '.') :
    readFraction (fraction.elim [] ('.' :: ·) ++ rest) = some (fraction, rest) := by
  cases fraction with
  | none =>
    cases rest with
    | nil => rfl
    | cons c rest =>
      rw [Option.elim_none, List.nil_append, readFraction]
      simpa using (hr c rfl).2
  | some digits =>
    rw [Option.elim_some, List.cons_append, readFraction, readDigits_append (h digits rfl) fun c hc => (hr c hc).1]
    rfl

theorem readExponent_append {exponent : Option (Bool × List Char)} (h : ∀ e ∈ exponent, IsRun e.2) (hr : Stops rest) :
    readExponent (exponent.elim [] exponentText ++ rest) = some (exponent, rest) := by
  cases exponent with
  | none =>
    cases rest with
    | nil => rfl
    | cons c rest =>
      obtain ⟨-, -, he, hE⟩ := hr c rfl
      rw [Option.elim_none, List.nil_append, readExponent, if_neg (by simp [he, hE])]
  | some e =>
    obtain ⟨negative, digits⟩ := e
    have hsign : readSign ((if negative then '-' else '+') :: (digits ++ rest)) = (negative, digits ++ rest) := by
      cases negative <;> rfl
    rw [Option.elim_some, exponentText, List.cons_append, List.cons_append, readExponent, if_pos (Or.inl rfl), hsign,
      readDigits_append (h _ rfl) fun c hc => (hr c hc).1]
    rfl

/-! ### The whole -/

/-- What is written behind the fraction does not go on with it. -/
theorem head?_exponent (exponent : Option (Bool × List Char)) (hr : Stops rest) (c : Char)
    (hc : c ∈ (exponent.elim [] exponentText ++ rest).head?) : c.isDigit = false ∧ c ≠ '.' := by
  cases exponent with
  | none =>
    obtain ⟨hd, hp, -⟩ := hr c hc
    exact ⟨hd, hp⟩
  | some e =>
    obtain rfl : 'e' = c := Option.some.inj hc
    exact ⟨rfl, by decide⟩

theorem head?_fraction (fraction : Option (List Char)) (hr : ∀ c ∈ rest.head?, c.isDigit = false ∧ c ≠ '.') (c : Char)
    (hc : c ∈ (fraction.elim [] ('.' :: ·) ++ rest).head?) : c.isDigit = false := by
  cases fraction with
  | none => exact (hr c hc).1
  | some digits =>
    obtain rfl : '.' = c := Option.some.inj hc
    rfl

theorem readUnsigned_append (h : n.WellFormed) (hr : Stops rest) :
    readUnsigned n.negative (n.whole ++ (n.fraction.elim [] ('.' :: ·) ++ (n.exponent.elim [] exponentText ++ rest))) =
      some (n, rest) := by
  have hexponent := head?_exponent n.exponent hr
  have hfraction := head?_fraction n.fraction hexponent
  simp only [readUnsigned, readWhole_append h.whole hfraction, readFraction_append h.fraction hexponent,
    readExponent_append h.exponent hr, Option.bind_eq_bind, Option.bind_some]
  rfl

/-- A well-formed numeral is what its text is read as, and what follows is left. -/
theorem read_append (h : n.WellFormed) (hr : Stops rest) : read (n.text ++ rest) = some (n, rest) := by
  have hunsigned := readUnsigned_append h hr
  obtain ⟨c, cs, hwhole⟩ := List.exists_cons_of_ne_nil h.isRun.1
  have hc : c ≠ '-' := by
    rintro rfl
    have hdigit := List.all_eq_true.mp h.isRun.2 '-' (by simp [hwhole])
    cases hdigit
  simp only [text, List.append_assoc]
  cases hn : n.negative with
  | true =>
    rw [hn] at hunsigned
    exact hunsigned
  | false =>
    rw [hn] at hunsigned
    rw [if_neg (by simp), List.nil_append, ← hunsigned, hwhole, List.cons_append, read]
    simpa using hc

end Numeral

end TreeQuery
