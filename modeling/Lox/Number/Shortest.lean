import Lox.Number.Fraction

/-!
# The shortest decimal that reads back

Every positive binary64 magnitude has an interval of fractions that round to
it. `Magnitude.shortest` finds the decimal in that interval on the coarsest
grid of powers of ten that meets it, which is the one with the fewest digits;
where two grid points qualify it takes the nearer, and an exact tie is settled
by a `TieRule`.
-/

namespace Lox.Number

/-- The value `coefficient * 10 ^ exponent`. -/
structure Decimal where
  coefficient : Nat
  exponent : Int
  deriving Repr, DecidableEq

/-- Which of two decimals equally near to a number is written. -/
inductive TieRule where
  | up
  | even
  deriving Repr, DecidableEq

/-- The fractions that round to one magnitude, over a common denominator:
everything from `low` to `high`, the ends included when `closed`. -/
structure Interval where
  low : Nat
  middle : Nat
  high : Nat
  den : Nat
  closed : Bool
  deriving Repr, DecidableEq

namespace Interval

/-- The interval measured in units of `10 ^ place`. -/
def inUnits (i : Interval) (place : Int) : Interval :=
  let up := Nat.pow 10 (-place).toNat
  { i with
    low := i.low * up
    middle := i.middle * up
    high := i.high * up
    den := i.den * Nat.pow 10 place.toNat }

/-- Whether a whole number lies in the interval. -/
def holds (i : Interval) (n : Nat) : Bool :=
  if i.closed then decide (i.low ≤ n * i.den ∧ n * i.den ≤ i.high)
  else decide (i.low < n * i.den ∧ n * i.den < i.high)

/-- The whole number in the interval that is nearest to its middle, if any. -/
def nearest? (i : Interval) (tie : TieRule) : Option Nat :=
  let below := i.middle / i.den
  let above := below + 1
  match i.holds below, i.holds above with
  | false, false => none
  | true, false => some below
  | false, true => some above
  | true, true =>
      let excess := 2 * (i.middle % i.den)
      if excess < i.den then some below
      else if i.den < excess then some above
      else match tie with
        | .up => some above
        | .even => some (if below % 2 = 0 then below else above)

/-- Search the grids from `place` downwards, at most `grids` of them. -/
def search (i : Interval) (tie : TieRule) : (grids : Nat) → (place : Int) → Decimal
  | 0, place => ⟨(i.inUnits place).middle / (i.inUnits place).den, place⟩
  | grids + 1, place =>
      match (i.inUnits place).nearest? tie with
      | some n => ⟨n, place⟩
      | none => search i tie grids (place - 1)

end Interval

namespace Fraction

/-- How often a fraction below one is multiplied by ten until it no longer is,
looking no further than `bound` times. -/
def placesBelowOne (f : Fraction) : (bound : Nat) → Nat
  | 0 => 0
  | bound + 1 =>
      if f.num < f.den then placesBelowOne ⟨f.num * 10, f.den⟩ bound + 1 else 0

/-- The largest `k` with `10 ^ k` not above a positive fraction. -/
def log10 (f : Fraction) : Int :=
  if f.num < f.den then -(f.placesBelowOne (f.den.log2 + 1) : Int)
  else ((Nat.toDigits 10 f.floor).length : Int) - 1

end Fraction

namespace Magnitude

/-- The fractions that round to a positive magnitude. Its neighbours are one
unit of the last place away, except that the one below a power of two is only
half a unit away; the halfway points belong to it when its significand is even. -/
def interval (m : Magnitude) : Interval :=
  let below := if m.significand = Nat.pow 2 52 ∧ leastExponent < m.exponent then 1 else 2
  let quarters (n : Nat) := (Fraction.scale ⟨n, 1⟩ 2 (m.exponent - 2)).num
  { low := quarters (4 * m.significand - below)
    middle := quarters (4 * m.significand)
    high := quarters (4 * m.significand + 2)
    den := (Fraction.scale ⟨0, 1⟩ 2 (m.exponent - 2)).den
    closed := m.significand % 2 = 0 }

/-- The decimal with the fewest digits that rounds to a positive magnitude.
Seventeen digits always suffice, so eighteen grids meet the interval, starting
one place above the leading digit. -/
def shortest (m : Magnitude) (tie : TieRule) : Decimal :=
  m.interval.search tie 18 (m.fraction.log10 + 1)

end Magnitude

end Lox.Number
