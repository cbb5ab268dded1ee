/-
**Checked arithmetic on 64-bit words.**

Counts and indices of the lattice are words, and the arithmetic on them never wraps: a sum or a
product that does not fit stops the computation.  The operations are stated on natural numbers and
integers, where they are the mathematical ones, with the range as the only condition.

Main definitions:

* `PureGauge.Word.add`, `PureGauge.Word.mul` — sum and product below `2 ^ 64`;
* `PureGauge.Word.shift` — a signed coordinate moved by a signed amount;
* `PureGauge.Word.remainder` — the remainder of a signed word, never negative.

Main results:

* `PureGauge.Word.add_eq_ok_iff`, `PureGauge.Word.mul_eq_ok_iff` — an answer is the exact one, and
  there is one exactly when it fits.
-/
import PureGauge.Fault

namespace PureGauge

namespace Word

/-- The sum of two counts, if it is below `2 ^ 64`. -/
def add (a b : Nat) : Checked Nat :=
  if a + b < UInt64.size then .ok (a + b) else .error .sumTooLarge

/-- The product of two counts, if it is below `2 ^ 64`. -/
def mul (a b : Nat) : Checked Nat :=
  if a * b < UInt64.size then .ok (a * b) else .error .productTooLarge

/-- A signed word moved by a signed amount, if the sum is a signed word again. -/
def shift (c k : Int64) : Checked Int64 :=
  let s := c.toInt + k.toInt
  if Int64.minValue.toInt ≤ s ∧ s ≤ Int64.maxValue.toInt then .ok (Int64.ofInt s)
  else .error .sumTooLarge

/-- The remainder in `[0, |m|)` of a signed word by a signed word.  The least word has no quotient
by minus one, so that pair is refused although its remainder would be zero. -/
def remainder (c m : Int64) : Checked Nat :=
  if m = 0 then .error .zeroDivisor
  else if m = -1 ∧ c = Int64.minValue then .error .remainderTooLarge
  else .ok (c.toInt.emod m.toInt).toNat

theorem add_eq_ok_iff {a b n : Nat} : add a b = .ok n ↔ a + b < UInt64.size ∧ n = a + b := by
  unfold add
  split <;> grind

theorem mul_eq_ok_iff {a b n : Nat} : mul a b = .ok n ↔ a * b < UInt64.size ∧ n = a * b := by
  unfold mul
  split <;> grind

end Word

end PureGauge
