/-! # Decimal digits

A natural number is spelled with the digits `0` to `9`, most significant first and without leading
zeros; reading digits accepts leading zeros. Reading what was spelled gives the number back. -/

-- A power is the one of the core library, also where another library has an instance of its own.
attribute [instance (high), default_instance (high + 1)] instPowNat

namespace TreeQuery.Digits

/-- The digits of a number. -/
def ofNat (n : Nat) : List Char := Nat.toDigits 10 n

/-- The number that digits spell; no digits spell zero. -/
def value (digits : List Char) : Nat := Nat.ofDigitChars 10 digits 0

/-- Whether a text consists of digits only. -/
def isDigits (text : List Char) : Bool := text.all Char.isDigit

/-- The leading digits of a text and what follows them. -/
def split : List Char → List Char × List Char
  | [] => ([], [])
  | c :: rest => if c.isDigit then (c :: (split rest).1, (split rest).2) else ([], c :: rest)

@[simp] theorem value_ofNat (n : Nat) : value (ofNat n) = n := by
  simp [value, ofNat]

theorem ofNat_ne_nil (n : Nat) : ofNat n ≠ [] := Nat.toDigits_ne_nil

theorem isDigits_ofNat (n : Nat) : isDigits (ofNat n) = true :=
  List.all_eq_true.mpr fun _ h => Nat.isDigit_of_mem_toDigits (by decide) (by decide) h

end TreeQuery.Digits
