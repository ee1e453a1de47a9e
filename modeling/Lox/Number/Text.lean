import Lox.Number.Shortest

/-!
# Written numbers

Three layouts of a number: as `print` shows it, as token and tree text show a
literal, and as JSON. The last section reads a number literal, which is a run
of digits with an optional fraction, to the nearest binary64 number.

## Implementation notes

The layouts share the shortest decimal and the positional form. They differ in
whether a whole number is written exactly or in its shortest digits, in the
spelling of what is not finite, and in where an exponent begins.
-/

namespace Lox.Number

/-- The decimal digits of a natural number. -/
def digits (n : Nat) : List Char :=
  Nat.toDigits 10 n

/-- Digits with a decimal point `places` from their right end, padded with
zeros so that a digit stands before the point. -/
def pointed (ds : List Char) (places : Nat) : List Char :=
  let padded := List.replicate (places + 1 - ds.length) '0' ++ ds
  let whole := padded.length - places
  padded.take whole ++ '.' :: padded.drop whole

namespace Decimal

/-- The decimal without an exponent, padded with zeros on either side. -/
def positional (d : Decimal) : List Char :=
  let ds := digits d.coefficient
  if 0 ≤ d.exponent then ds ++ List.replicate d.exponent.toNat '0'
  else pointed ds (-d.exponent).toNat

/-- The decimal with one digit before the point and a signed exponent, the
point left out when no digit follows it. -/
def scientific (d : Decimal) : List Char :=
  let ds := digits d.coefficient
  let power := d.exponent + (ds.length : Int) - 1
  let mantissa := if ds.length = 1 then ds else ds.take 1 ++ '.' :: ds.drop 1
  let sign := if power < 0 then '-' else '+'
  mantissa ++ 'e' :: sign :: digits power.natAbs

end Decimal

/-- Put a minus sign before what is negative. -/
def signed (negative : Bool) (text : List Char) : List Char :=
  if negative then '-' :: text else text

namespace Reading

/-- The text that `print` shows: whole numbers exactly, all others in their
shortest digits, never with an exponent. -/
def display : Reading → List Char
  | .nan => "NaN".toList
  | .infinite negative => signed negative "Infinity".toList
  | .finite negative m =>
      signed negative <| match m.fraction.whole? with
        | some n => digits n
        | none => (m.shortest .up).positional

/-- Whole literals below this bound are written with a zero after the point. -/
def literalBound : Nat := Nat.pow 10 15

/-- The text of a literal in tokens and trees: small whole numbers end in
`.0`, all others are in their shortest digits, never with an exponent. -/
def literal : Reading → List Char
  | .nan => "NaN".toList
  | .infinite negative => signed negative "inf".toList
  | .finite negative m =>
      signed negative <| match m.fraction.whole? with
        | some n =>
            if n < literalBound then digits n ++ ".0".toList
            else (m.shortest .up).positional
        | none => (m.shortest .up).positional

/-- The JSON number: shortest digits, with a point always present from
`10 ^ -5` up to `10 ^ 16` and an exponent outside that range. -/
def json : Reading → List Char
  | .nan => "null".toList
  | .infinite _ => "null".toList
  | .finite negative m =>
      signed negative <|
        if m.significand = 0 then "0.0".toList
        else
          let d := m.shortest .even
          let point := d.exponent + (digits d.coefficient).length
          if point ≤ -5 ∨ 16 < point then d.scientific
          else if 0 ≤ d.exponent then d.positional ++ ".0".toList
          else d.positional

end Reading

/-- The text that `print` shows for a number. -/
def display (x : Float) : String :=
  .ofList (Reading.ofFloat x).display

/-- The text of a number literal in tokens and trees. -/
def literal (x : Float) : String :=
  .ofList (Reading.ofFloat x).literal

/-- The JSON text of a number. -/
def json (x : Float) : String :=
  .ofList (Reading.ofFloat x).json

/-! ## Reading -/

/-- The value of a decimal digit. -/
def digitValue (c : Char) : Nat :=
  c.toNat - '0'.toNat

/-- The number that a run of decimal digits stands for. -/
def ofDigits (ds : List Char) : Nat :=
  ds.foldl (fun n c => 10 * n + digitValue c) 0

/-- The binary64 number nearest to a literal with these digits before and after
its point. -/
def ofLiteral (whole fraction : List Char) : Float :=
  Fraction.toFloat ⟨ofDigits (whole ++ fraction), Nat.pow 10 fraction.length⟩

end Lox.Number
