/-
**The functions of real numbers that the sampler uses.**

Everything above this module is written for an arbitrary type of real scalars: with doubles it is
the program that runs, with an exact field it is the mathematics.  The ring operations and
comparisons come from the usual classes; the roots, the elementary functions and the rounding
threshold come from the class given here.

Main definitions:

* `PureGauge.RealFunctions` — roots, elementary functions, the threshold `epsilon`;
* `PureGauge.realSum` — a sum taken in order from the left;
* the instances for `Float`.
-/

namespace PureGauge

/-- Roots, elementary functions and constants of a type of real scalars. -/
class RealFunctions (R : Type) where
  /-- The distance from one to the next larger scalar: smaller numbers count as zero when a vector
  is normalised. -/
  epsilon : R
  /-- Half the circumference of the unit circle. -/
  pi : R
  sqrt : R → R
  cbrt : R → R
  exp : R → R
  log : R → R
  sin : R → R
  cos : R → R
  /-- The angle of the point `(x, y)`, given as `angle y x`. -/
  angle : R → R → R
  /-- The length of the vector with the given components. -/
  hypotenuse : R → R → R
  isFinite : R → Bool

/-- The sum of a list in order from the left.  It begins with minus zero, which is neutral also for
scalars with a signed zero. -/
@[specialize]
def realSum {R : Type} [Add R] [Neg R] [Zero R] (xs : List R) : R :=
  xs.foldl (· + ·) (-0)

/-! ### Doubles -/

instance natCastFloat : NatCast Float := ⟨Float.ofNat⟩

/-- The length of a vector with finite components `a ≥ b ≥ 0` of moderate size: the root of the sum
of squares, corrected by one step that takes the rounding of the squares into account. -/
def correctedHypotenuse (a b : Float) : Float :=
  let h := (a * a + b * b).sqrt
  let excess :=
    if h ≤ 2 * b then
      let d := h - b
      a * (2 * d - a) + (d - 2 * (a - b)) * d
    else
      let d := h - a
      2 * d * (a - 2 * b) + ((4 * d - b) * b + d * d)
  h - excess / (2 * h)

namespace Hypotenuse

/-- Components above this are scaled down before they are squared. -/
def large : Float := (1 : Float).scaleB 511

/-- Components below this are scaled up before they are squared. -/
def tiny : Float := (1 : Float).scaleB (-459)

/-- The power of two that large components are multiplied with, and tiny ones divided by. -/
def scale : Float := (1 : Float).scaleB (-600)

/-- The largest ratio at which a component is negligible beside the other. -/
def negligible : Float := (1 : Float).scaleB (-54)

end Hypotenuse

open Hypotenuse in
/-- The length of a vector of doubles.  Large and tiny components are scaled first, a component that
is negligible beside the other is only added, and an infinite component wins over one that is not a
number. -/
def doubleHypotenuse (x y : Float) : Float :=
  let a := if x.abs < y.abs then y.abs else x.abs
  let b := if x.abs < y.abs then x.abs else y.abs
  if x.isInf || y.isInf then 1 / 0
  else if x.isNaN || y.isNaN then 0 / 0
  else if b / negligible ≤ a then a + b
  else if a > large then correctedHypotenuse (a * scale) (b * scale) / scale
  else if b < tiny then correctedHypotenuse (a / scale) (b / scale) * scale
  else correctedHypotenuse a b

instance : RealFunctions Float where
  epsilon := (1 : Float).scaleB (-52)
  pi := 3.141592653589793
  sqrt := Float.sqrt
  cbrt := Float.cbrt
  exp := Float.exp
  log := Float.log
  sin := Float.sin
  cos := Float.cos
  angle := Float.atan2
  hypotenuse := doubleHypotenuse
  isFinite := Float.isFinite

end PureGauge
