/-
**Decimal digits of an exact number.**

The fewest digits that read back as a double are found by looking at coarser and finer decimal
grids: on each grid only the two neighbours of the value can lie in the interval of numbers that
round to it, and the first grid that has such a neighbour gives the digits.  A fixed number of
digits or of decimal places needs one rounded quotient.

Main definitions:

* `PureGauge.Digits` — the digits of a positive number and the exponent of the first one;
* `PureGauge.Digits.shortest` — the fewest digits that read back as the same double;
* `PureGauge.roundQuotient` — a quotient rounded to the nearest integer, a half to the even one;
* `PureGauge.Digits.rounded` — a fixed number of digits.
-/
import PureGauge.Decimal.Double

namespace PureGauge

/-- A power of a number as a fraction: numerator and denominator. -/
def fractionPower (base : Nat) (e : Int) : Nat × Nat :=
  if 0 ≤ e then (Nat.pow base e.toNat, 1) else (1, Nat.pow base (-e).toNat)

/-- The decimal digits of a natural number as characters, the first one first. -/
def natDigits (n : Nat) : List Char := Nat.toDigits 10 n

/-- The quotient `n / d` rounded to the nearest natural number, a half to the even one. -/
def roundQuotient (n d : Nat) : Nat :=
  let q := n / d
  let r := n % d
  if 2 * r < d ∨ (2 * r = d ∧ q % 2 = 0) then q else q + 1

/-- The exponent of the first digit of the positive fraction `n / d`: the `e` with
`10 ^ e ≤ n / d < 10 ^ (e + 1)`. -/
def leadingExponent (n d : Nat) : Int :=
  let guess : Int := (natDigits n).length - (natDigits d).length
  let (a, b) := fractionPower 10 guess
  if n * b < d * a then guess - 1 else guess

/-- Digits `d₁ d₂ d₃ …`, standing for `d₁.d₂d₃… * 10 ^ exponent`. -/
structure Digits where
  digits : List Char
  exponent : Int
deriving DecidableEq

/-- Which of two texts a number gets that lies exactly between them. -/
inductive Tie where
  /-- The one that ends in an even digit. -/
  | even
  /-- The larger one. -/
  | up
deriving DecidableEq

/-- Whether the lower of the two neighbours is taken. -/
def Tie.takesLower (t : Tie) (lower : Nat) : Bool :=
  match t with
  | even => lower % 2 = 0
  | up => false

namespace Digits

/-- The digits of zero. -/
def zero : Digits := ⟨['0'], 0⟩

/-- The digits without zeros at the end. -/
def trimmed (ds : List Char) : List Char :=
  match (ds.reverse.dropWhile (· = '0')).reverse with
  | [] => ['0']
  | kept => kept

/-- The digits of `d * 10 ^ k` for a positive `d`. -/
def ofScaled (d : Nat) (k : Int) : Digits :=
  let ds := natDigits d
  ⟨trimmed ds, k + (ds.length - 1)⟩

/-- On the grid of the multiples of `10 ^ k`, the neighbour of `significand * 2 ^ power` that is
nearest among those that round to this double. -/
def onGrid (tie : Tie) (significand : Nat) (power k : Int) : Option Nat :=
  let s := significand
  let (below, above) := Double.gap s power
  let (p, q) := fractionPower 10 k
  let (v, w) := fractionPower 2 (power - 2)
  -- the point `d` of the grid, in quarters of a unit of the significand, is `d * unit / per`
  let unit := p * w
  let per := q * v
  let value := 4 * s * per
  let hits := fun d : Nat =>
    let point := d * unit
    let low := (4 * s - below) * per
    let high := (4 * s + above) * per
    if s % 2 = 0 then decide (low ≤ point ∧ point ≤ high) else decide (low < point ∧ point < high)
  let d := value / unit
  let lower := value - d * unit
  let upper := (d + 1) * unit - value
  match hits d, hits (d + 1) with
  | true, true =>
      some (if lower < upper ∨ (lower = upper ∧ tie.takesLower d) then d else d + 1)
  | true, false => some d
  | false, true => some (d + 1)
  | false, false => none

/-- Looks for a grid with a hit, each with one digit more than the one before. -/
def search (tie : Tie) (significand : Nat) (power first : Int) : Nat → Nat → Digits
  | 0, _ => zero
  | fuel + 1, count =>
      let k := first - count
      match onGrid tie significand power k with
      | some d => ofScaled d k
      | none => search tie significand power first fuel (count + 1)

/-- The fewest digits that read back as the positive double `significand * 2 ^ power`; of several
such the nearest. Seventeen digits are always enough. -/
def shortest (tie : Tie) (significand : Nat) (power : Int) : Digits :=
  if significand = 0 then zero
  else
    let (v, w) := fractionPower 2 power
    search tie significand power (leadingExponent (significand * v) w) 18 0

/-- The positive number `significand * 2 ^ power` rounded to `count + 1` digits, all of which are
kept. -/
def rounded (significand : Nat) (power : Int) (count : Nat) : Digits :=
  if significand = 0 then ⟨List.replicate (count + 1) '0', 0⟩
  else
    let (v, w) := fractionPower 2 power
    let e := leadingExponent (significand * v) w
    let (p, q) := fractionPower 10 (count - e)
    let ds := natDigits (roundQuotient (significand * v * p) (w * q))
    -- rounding up may have carried into one digit more
    if ds.length = count + 2 then ⟨ds.take (count + 1), e + 1⟩ else ⟨ds, e⟩

end Digits

end PureGauge
