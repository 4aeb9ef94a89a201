import TreeQuery.Text.Digits

/-! # Numerals

A numeral is a number as JSON text spells it, kept digit by digit: an optional minus sign, whole digits
without leading zeros, and optionally a fraction and an exponent. Two spellings are not told apart: the
case of the exponent mark and a missing plus sign in the exponent. The text of a numeral has `e` and always
a sign in the exponent, and reading it gives the numeral back. -/

namespace TreeQuery

/-- A number as it is spelled. -/
structure Numeral where
  negative : Bool
  whole : List Char
  fraction : Option (List Char)
  /-- The digits of the exponent, behind whether it is negative. -/
  exponent : Option (Bool × List Char)
deriving DecidableEq, Repr

namespace Numeral

/-- Whether the numeral spells an integer: it has neither fraction nor exponent. -/
def isInteger (n : Numeral) : Bool := n.fraction.isNone && n.exponent.isNone

/-- The text of an exponent. -/
def exponentText : Bool × List Char → List Char
  | (negative, digits) => 'e' :: (if negative then '-' else '+') :: digits

/-- The text of a numeral. -/
def text (n : Numeral) : List Char :=
  (if n.negative then ['-'] else []) ++ n.whole ++ (n.fraction.elim [] ('.' :: ·)) ++ n.exponent.elim [] exponentText

/-- The number that the whole digits spell, with the sign. -/
def wholeValue (n : Numeral) : Int :=
  if n.negative then -(Digits.value n.whole : Int) else Digits.value n.whole

/-- The number that the exponent spells, zero if there is none. -/
def exponentValue (n : Numeral) : Int :=
  match n.exponent with
  | none => 0
  | some (negative, digits) => if negative then -(Digits.value digits : Int) else Digits.value digits

/-- A run of one digit or more at the front of a text, and what follows. -/
def readDigits (cs : List Char) : Option (List Char × List Char) :=
  match Digits.split cs with
  | ([], _) => none
  | run => some run

/-- The whole digits at the front of a text: `0` stands alone. -/
def readWhole : List Char → Option (List Char × List Char)
  | '0' :: rest => some (['0'], rest)
  | cs => readDigits cs

/-- The fraction at the front of a text, if there is one; a point without digits is refused. -/
def readFraction : List Char → Option (Option (List Char) × List Char)
  | '.' :: rest => (readDigits rest).map fun (digits, rest) => (some digits, rest)
  | cs => some (none, cs)

/-- The sign of an exponent, positive if none is written. -/
def readSign : List Char → Bool × List Char
  | '-' :: rest => (true, rest)
  | '+' :: rest => (false, rest)
  | cs => (false, cs)

/-- The exponent at the front of a text, if there is one; a mark without digits is refused. -/
def readExponent : List Char → Option (Option (Bool × List Char) × List Char)
  | c :: rest =>
    if c = 'e' ∨ c = 'E' then
      (readDigits (readSign rest).2).map fun (digits, after) => (some ((readSign rest).1, digits), after)
    else some (none, c :: rest)
  | [] => some (none, [])

/-- The numeral at the front of a text, without its sign. -/
def readUnsigned (negative : Bool) (cs : List Char) : Option (Numeral × List Char) := do
  let (whole, cs) ← readWhole cs
  let (fraction, cs) ← readFraction cs
  let (exponent, cs) ← readExponent cs
  return (⟨negative, whole, fraction, exponent⟩, cs)

/-- The numeral at the front of a text and what follows it. -/
def read : List Char → Option (Numeral × List Char)
  | '-' :: rest => readUnsigned true rest
  | cs => readUnsigned false cs

/-- The numeral that spells an integer. -/
def ofInt (i : Int) : Numeral := ⟨i < 0, Digits.ofNat i.natAbs, none, none⟩

end Numeral

end TreeQuery
