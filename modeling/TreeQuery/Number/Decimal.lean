import TreeQuery.Number.Numeral

/-! # Decimal numbers

A decimal number is `digits · 10 ^ (-scale)`, with as many digits as it takes. Two decimals may denote one
number (`1.0` and `1.00`); `same` decides that without raising ten to the scale itself, which may be as
large as 64 bits allow.

A decimal is laid out as follows, where a zero counts as having scale zero. With more than five zeros
between the point and the first digit it is written with one whole digit and a negative exponent; with more
than fifteen zeros behind the last digit, as its digits and a positive exponent; otherwise positionally. -/

namespace TreeQuery

/-- The number `digits · 10 ^ (-scale)`. -/
structure Decimal where
  digits : Int
  scale : Int
deriving DecidableEq, Repr

/-- Why the spelling of a number has no decimal. -/
inductive NumberFault where
  /-- The exponent exceeds 128 bits upwards. -/
  | exponentTooLarge
  /-- The exponent exceeds 128 bits downwards. -/
  | exponentTooSmall
  /-- The scale exceeds 64 bits. -/
  | scaleOverflow
deriving DecidableEq, Repr

namespace Decimal

/-- The digits without the sign. -/
def digitText (d : Decimal) : List Char := Digits.ofNat d.digits.natAbs

/-- How many digits a decimal has. -/
def size (d : Decimal) : Nat := d.digitText.length

/-- Whether two decimals denote the same number. Nonzero decimals that do so have their first digit at the
    same place, so the difference of their scales is at most their number of digits. -/
def same (a b : Decimal) : Bool :=
  if a.digits = 0 ∨ b.digits = 0 then a.digits == b.digits
  else (a.size - a.scale == b.size - b.scale) &&
    a.digits * 10 ^ (b.scale - a.scale).toNat == b.digits * 10 ^ (a.scale - b.scale).toNat

/-- Ones with exactly the same digits denote the same number. -/
theorem same_self (d : Decimal) : d.same d = true := by
  unfold same
  split <;> simp

/-- The digits of a decimal with its point and exponent. -/
def layout (d : Decimal) : Numeral :=
  let negative : Bool := d.digits < 0
  let ds := d.digitText
  let scale := if d.digits = 0 then 0 else d.scale
  if 5 < scale - ds.length then
    ⟨negative, ds.take 1, if ds.length = 1 then none else some (ds.drop 1),
      some (true, Digits.ofNat (scale + 1 - ds.length).toNat)⟩
  else if 15 < -scale then
    ⟨negative, ds, none, some (false, Digits.ofNat (-scale).toNat)⟩
  else if scale ≤ 0 then
    ⟨negative, ds ++ List.replicate (-scale).toNat '0', none, none⟩
  else
    let padded := List.replicate (scale + 1 - ds.length).toNat '0' ++ ds
    let point := padded.length - scale.toNat
    ⟨negative, padded.take point, some (padded.drop point), none⟩

/-- The text of a decimal; a negative exponent is marked with `E`, a positive one with `e`. -/
def text (d : Decimal) : List Char :=
  let n := d.layout
  ({ n with exponent := none } : Numeral).text ++
    match n.exponent with
    | some (true, digits) => 'E' :: '-' :: digits
    | some (false, digits) => 'e' :: '+' :: digits
    | none => []

/-- The numeral of a decimal. One that would read as an integer gets a fraction of one zero. -/
def numeral (d : Decimal) : Numeral :=
  let n := d.layout
  if n.isInteger then { n with fraction := some ['0'] } else n

/-- The decimal that a numeral spells, with one place of scale for each digit of its fraction. -/
def ofNumeral (n : Numeral) : Except NumberFault Decimal :=
  let fraction := n.fraction.getD []
  let magnitude : Int := Digits.value (n.whole ++ fraction)
  let scale := fraction.length - n.exponentValue
  if 2 ^ 127 ≤ n.exponentValue then .error .exponentTooLarge
  else if n.exponentValue < -2 ^ 127 then .error .exponentTooSmall
  else if scale < -2 ^ 63 ∨ 2 ^ 63 ≤ scale then .error .scaleOverflow
  else .ok ⟨if n.negative then -magnitude else magnitude, scale⟩

end Decimal

/-- The wording of a fault in the number spelled `text`. -/
def NumberFault.message (text : String) : NumberFault → String
  | exponentTooLarge => text ++ ": number too large to fit in target type"
  | exponentTooSmall => text ++ ": number too small to fit in target type"
  | scaleOverflow => text ++ ": Exponent overflow when parsing '" ++ text ++ "'"

end TreeQuery
