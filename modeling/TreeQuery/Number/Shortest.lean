import TreeQuery.Number.Binary64

/-! # Shortest decimals

A finite word stands for every real number that rounds to it. These reals lie between the midpoints to the
neighbouring words; the midpoints belong to them if the significand is even. The shortest decimal of a word
is the one with the fewest digits among those reals, and of two such decimals the nearer one, the larger
one if both are equally near. -/

namespace TreeQuery.Binary64

/-- The reals that round to a word, in quarters of the distance to the next larger word: the word itself is
    at `4 · significand`. -/
structure Interval where
  low : Nat
  high : Nat
  closed : Bool
deriving DecidableEq, Repr

/-- The reals that round to a finite word. Below a power of two the neighbour is half as far away. -/
def interval (x : Binary64) : Interval where
  low := 4 * x.significand - if x.fraction = 0 ∧ 1 < x.exponentField then 1 else 2
  high := 4 * x.significand + 2
  closed := x.significand % 2 = 0

/-- The decimal exponent of a positive finite word: it is below `10 ^ magnitude` and at least a tenth of
    that. No positive word is below `10 ^ (-350)`. -/
def magnitude (x : Binary64) : Int :=
  let scaled := x.significand * 2 ^ x.power.toNat * 10 ^ 350 / 2 ^ (-x.power).toNat
  (Digits.ofNat scaled).length - 350

/-- The integer `c` for which `c · 10 ^ k` rounds to a word, if one of the two neighbours of the word on
    that grid does. Both sides of each comparison are multiplied by the same number, which makes them
    integers: a step of the grid by `step`, a quarter of the word's own step by `quarter`. -/
def onGrid? (x : Binary64) (k : Int) : Option Nat :=
  let q := x.power - 2
  let step := 10 ^ k.toNat * 2 ^ (-q).toNat
  let quarter := 10 ^ (-k).toNat * 2 ^ q.toNat
  let i := x.interval
  let inside (c : Nat) : Bool :=
    if i.closed then i.low * quarter ≤ c * step && c * step ≤ i.high * quarter
    else i.low * quarter < c * step && c * step < i.high * quarter
  let value := 4 * x.significand * quarter
  let below := value / step
  if inside below && (!inside (below + 1) || value - below * step < (below + 1) * step - value) then some below
  else if inside (below + 1) then some (below + 1)
  else none

/-- The decimal `± c · 10 ^ k`, without a fraction that it does not need. -/
def gridDecimal (negative : Bool) (k : Int) (c : Nat) : Decimal :=
  let digits : Int := (c * 10 ^ k.toNat : Nat)
  ⟨if negative then -digits else digits, (-k).toNat⟩

/-- The decimal that equals a finite word. -/
def exact (x : Binary64) : Decimal :=
  let digits : Int := (x.significand * 2 ^ x.power.toNat * 5 ^ (-x.power).toNat : Nat)
  ⟨if x.negative then -digits else digits, (-x.power).toNat⟩

/-- The shortest decimal of a finite word. Seventeen digits always suffice; zero has no digits to look
    for. -/
def shortest (x : Binary64) : Decimal :=
  if x.significand = 0 then ⟨0, 0⟩
  else
    let found := (List.range 18).findSome? fun (count : Nat) =>
      let k := x.magnitude - count
      (x.onGrid? k).map (gridDecimal x.negative k)
    found.getD x.exact

end TreeQuery.Binary64
