/-
**Doubles as exact numbers.**

A finite double is an integer times a power of two.  Its decimal texts are worked out from that
integer and that power in exact arithmetic.

Main definitions:

* `PureGauge.Double` — not a number, an infinity, or a sign, a significand and a power of two;
* `PureGauge.Double.ofFloat` — what the 64 bits of a double say;
* `PureGauge.Double.gap` — how the significand is spaced from its neighbours.
-/

namespace PureGauge

/-- What a double stands for.  A finite one is `± significand * 2 ^ power`, and keeps the sign of a
zero. -/
inductive Double where
  | notANumber
  | infinite (negative : Bool)
  | finite (negative : Bool) (significand : Nat) (power : Int)
deriving DecidableEq

namespace Double

/-- The bit in front of the fraction, `2 ^ 52`, which is not stored. -/
def hiddenBit : Nat := 1 <<< 52

/-- The value that a word of 64 bits encodes: a sign, an exponent field of 11 bits and a fraction of
52 bits.  The least field has no hidden bit, the largest one is for infinities and for what is not a
number. -/
def ofBits (word : Nat) : Double :=
  let negative := word.testBit 63
  let field := (word >>> 52) % 2048
  let fraction := word % hiddenBit
  if field = 2047 then if fraction = 0 then infinite negative else notANumber
  else if field = 0 then finite negative fraction (-1074)
  else finite negative (hiddenBit + fraction) ((field : Int) - 1075)

/-- The value of a double. -/
def ofFloat (x : Float) : Double := ofBits x.toBits.toNat

/-- In quarters of a unit of the significand, the distances to the middle between a positive value
and its lower and upper neighbours.  Below a power of two the doubles are twice as dense. -/
def gap (significand : Nat) (power : Int) : Nat × Nat :=
  if significand = hiddenBit ∧ -1074 < power then (1, 2) else (2, 2)

end Double

end PureGauge
