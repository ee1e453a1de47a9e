/-!
# Fractions and binary64 magnitudes

A finite binary64 number other than its sign is a whole significand times a
power of two. This module reads that form off the word that encodes a number
and, the other way, finds the word nearest to an arbitrary fraction, exact
halves going to the even word.

## Implementation notes

All arithmetic is on natural numbers. A power with a negative exponent is moved
to the other side of the fraction (`Fraction.scale`), so nothing is ever
rounded on the way.
-/

namespace Lox.Number

/-- A nonnegative fraction, not necessarily in lowest terms. -/
structure Fraction where
  num : Nat
  den : Nat
  deriving Repr, DecidableEq

namespace Fraction

/-- Multiply by `base ^ power`; a negative power scales the denominator. -/
def scale (f : Fraction) (base : Nat) (power : Int) : Fraction :=
  ⟨f.num * base.pow power.toNat, f.den * base.pow (-power).toNat⟩

/-- The largest whole number not above the fraction. -/
def floor (f : Fraction) : Nat :=
  f.num / f.den

/-- The whole number nearest to the fraction, a half going to the even one. -/
def nearestEven (f : Fraction) : Nat :=
  let below := f.num / f.den
  let excess := 2 * (f.num % f.den)
  if excess < f.den then below
  else if f.den < excess then below + 1
  else below + below % 2

/-- The whole number that the fraction is, if it is one. -/
def whole? (f : Fraction) : Option Nat :=
  if f.num % f.den = 0 then some (f.num / f.den) else none

/-- The largest `k` with `2 ^ k` not above a positive fraction. -/
def log2 (f : Fraction) : Int :=
  let guess : Int := (f.num.log2 : Int) - (f.den.log2 : Int)
  let scaled := f.scale 2 (-guess)
  if scaled.num < scaled.den then guess - 1 else guess

end Fraction

/-- The exponent of the least positive binary64 number. -/
def leastExponent : Int := -1074

/-- The word of positive infinity, the first one past the finite magnitudes. -/
def infinityWord : Nat := 0x7FF0000000000000

/-- The value `significand * 2 ^ exponent`. -/
structure Magnitude where
  significand : Nat
  exponent : Int
  deriving Repr, DecidableEq

namespace Magnitude

/-- The magnitude as a fraction. -/
def fraction (m : Magnitude) : Fraction :=
  Fraction.scale ⟨m.significand, 1⟩ 2 m.exponent

/-- The magnitude that a finite word without its sign bit encodes: the top bits
count binades from `leastExponent`, the lowest binade sharing the scale of the
next one and having no leading bit. -/
def ofWord (word : Nat) : Magnitude :=
  let binade : Nat := word / Nat.pow 2 52
  if binade = 0 then ⟨word % Nat.pow 2 52, leastExponent⟩
  else ⟨word % Nat.pow 2 52 + Nat.pow 2 52, leastExponent + (binade : Int) - 1⟩

end Magnitude

/-- What a binary64 number stands for. -/
inductive Reading where
  | nan
  | infinite (negative : Bool)
  | finite (negative : Bool) (magnitude : Magnitude)
  deriving Repr, DecidableEq

/-- Decode a word: its top bit is the sign, the rest a magnitude, infinity, or
no number at all. -/
def Reading.ofBits (bits : UInt64) : Reading :=
  let negative := decide (Nat.pow 2 63 ≤ bits.toNat)
  let word := bits.toNat % Nat.pow 2 63
  if word < infinityWord then .finite negative (Magnitude.ofWord word)
  else if word = infinityWord then .infinite negative
  else .nan

/-- What a floating-point number stands for. -/
def Reading.ofFloat (x : Float) : Reading :=
  .ofBits x.toBits

namespace Fraction

/-- The exponent of the last binary place kept when a positive fraction is
rounded to binary64. -/
def lastPlace (f : Fraction) : Int :=
  max leastExponent (f.log2 - 52)

/-- The word of the binary64 magnitude nearest to a fraction, an exact half
going to the even word and anything past the largest one to infinity.

The significand is added to the binade count, not masked into it: one that
rounds up to `2 ^ 53` carries into the next binade by itself. -/
def nearestWord (f : Fraction) : Nat :=
  if f.num = 0 then 0
  else
    let place := f.lastPlace
    let word := (place - leastExponent).toNat * Nat.pow 2 52 + (f.scale 2 (-place)).nearestEven
    min word infinityWord

/-- The binary64 number nearest to a fraction. -/
def toFloat (f : Fraction) : Float :=
  Float.ofBits (UInt64.ofNat f.nearestWord)

end Fraction

end Lox.Number
