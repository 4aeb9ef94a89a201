import TreeQuery.Number.Decimal

/-! # Binary floating-point numbers

A binary64 word has a sign, eleven bits of exponent and 52 bits of fraction. A finite word denotes
`significand · 2 ^ power`, with the sign. This file decodes words and rounds fractions and decimals to the
nearest word, halves to the even one, in exact arithmetic on natural numbers. -/

namespace TreeQuery

/-- A binary64 word; `bits` has 64 binary digits. -/
structure Binary64 where
  bits : Nat
deriving DecidableEq, Repr

namespace Binary64

/-- Whether the sign bit is set. -/
def negative (x : Binary64) : Bool := 2 ^ 63 ≤ x.bits

/-- The exponent field. -/
def exponentField (x : Binary64) : Nat := x.bits / 2 ^ 52 % 2 ^ 11

/-- The fraction field. -/
def fraction (x : Binary64) : Nat := x.bits % 2 ^ 52

/-- Whether the word is neither infinite nor not-a-number. -/
def isFinite (x : Binary64) : Bool := x.exponentField != 2047

/-- The integer that a finite word scales by a power of two. -/
def significand (x : Binary64) : Nat :=
  if x.exponentField = 0 then x.fraction else 2 ^ 52 + x.fraction

/-- The power of two that scales the significand. -/
def power (x : Binary64) : Int :=
  if x.exponentField = 0 then -1074 else x.exponentField - 1075

/-- The name of a word that is not finite. -/
def specialText (x : Binary64) : String :=
  if x.fraction ≠ 0 then "NaN" else if x.negative then "-inf" else "inf"

/-- The word with a sign and the bits below it. -/
def withSign (negative : Bool) (magnitude : Nat) : Binary64 :=
  ⟨if negative then 2 ^ 63 + magnitude else magnitude⟩

/-- The bits of infinity. -/
def infinity : Nat := 2047 * 2 ^ 52

/-- The exponent of the largest power of two that is at most `num / den`, for positive arguments. -/
def floorLog2 (num den : Nat) : Int :=
  let e : Int := (Nat.log2 num : Int) - Nat.log2 den
  if den * 2 ^ e.toNat ≤ num * 2 ^ (-e).toNat then e else e - 1

/-- The quotient rounded to the nearest integer, a half to the even one. -/
def divRound (num den : Nat) : Nat :=
  let q := num / den
  let r := num % den
  if den < 2 * r ∨ (2 * r = den ∧ q % 2 = 1) then q + 1 else q

/-- The bits of the word nearest to `num / den`, infinity if that is too large. A significand that rounds
    up to the next power of two carries into the exponent field. -/
def nearestBits (num den : Nat) : Nat :=
  if num = 0 then 0
  else
    let power := max (-1074) (floorLog2 num den - 52)
    let significand := divRound (num * 2 ^ (-power).toNat) (den * 2 ^ power.toNat)
    min infinity (significand + (power + 1074).toNat * 2 ^ 52)

/-- The word nearest to an integer. -/
def ofInt (i : Int) : Binary64 := withSign (i < 0) (nearestBits i.natAbs 1)

/-- The word nearest to a decimal. Magnitudes far outside the range of the format are settled by the place
    of their first digit, so that no huge power of ten is formed. -/
def ofDecimal (d : Decimal) : Binary64 :=
  let point := d.size - d.scale
  let magnitude : Nat :=
    if d.digits = 0 ∨ point < -400 then 0
    else if 400 < point then infinity
    else nearestBits (d.digits.natAbs * 10 ^ (-d.scale).toNat) (10 ^ d.scale.toNat)
  withSign (d.digits < 0) magnitude

/-- The word of the number that a binary32 word denotes; the number is kept exactly. -/
def ofBinary32 (bits : Nat) : Binary64 :=
  let exponent : Nat := bits / 2 ^ 23 % 2 ^ 8
  let fraction : Nat := bits % 2 ^ 23
  let magnitude : Nat :=
    if exponent = 255 then infinity + fraction * 2 ^ 29
    else
      let significand := if exponent = 0 then fraction else 2 ^ 23 + fraction
      let power : Int := if exponent = 0 then -149 else exponent - 150
      nearestBits (significand * 2 ^ power.toNat) (2 ^ (-power).toNat)
  withSign (2 ^ 31 ≤ bits) magnitude

end Binary64

end TreeQuery
