/-
**Complex numbers over a type of real scalars.**

A complex number is a pair, and its operations are written out on the parts, so that they mean the
same for doubles and for the scalars of an exact field.

Main definitions:

* `PureGauge.Cplx` with addition, multiplication and division;
* `PureGauge.Cplx.conj`, `PureGauge.Cplx.normSq`, `PureGauge.Cplx.modulus`,
  `PureGauge.Cplx.argument`;
* `PureGauge.Cplx.phase` — the point of the unit circle in the direction of a number.
-/
import PureGauge.Scalar.Functions

namespace PureGauge

/-- A complex number with real and imaginary part. -/
structure Cplx (R : Type) where
  re : R
  im : R
deriving DecidableEq

namespace Cplx

variable {R : Type}

instance [Zero R] : Zero (Cplx R) := ⟨⟨0, 0⟩⟩

instance [Zero R] [One R] : One (Cplx R) := ⟨⟨1, 0⟩⟩

/-- The imaginary unit times a real number. -/
@[inline] def imaginary [Zero R] [Mul R] [One R] (y : R) : Cplx R := ⟨0 * y, 1 * y⟩

@[always_inline] instance [Add R] : Add (Cplx R) := ⟨fun z w => ⟨z.re + w.re, z.im + w.im⟩⟩

@[always_inline] instance [Sub R] : Sub (Cplx R) := ⟨fun z w => ⟨z.re - w.re, z.im - w.im⟩⟩

@[always_inline] instance [Neg R] : Neg (Cplx R) := ⟨fun z => ⟨-z.re, -z.im⟩⟩

@[always_inline] instance [Add R] [Sub R] [Mul R] : Mul (Cplx R) :=
  ⟨fun z w => ⟨z.re * w.re - z.im * w.im, z.re * w.im + z.im * w.re⟩⟩

/-- The conjugate. -/
@[inline] def conj [Neg R] (z : Cplx R) : Cplx R := ⟨z.re, -z.im⟩

/-- The square of the modulus. -/
@[inline] def normSq [Add R] [Mul R] (z : Cplx R) : R := z.re * z.re + z.im * z.im

/-- Both parts times a real number. -/
@[inline] def scale [Mul R] (z : Cplx R) (r : R) : Cplx R := ⟨z.re * r, z.im * r⟩

/-- Both parts divided by a real number. -/
@[inline] def unscale [Div R] (z : Cplx R) (r : R) : Cplx R := ⟨z.re / r, z.im / r⟩

instance [Add R] [Sub R] [Mul R] [Div R] : Div (Cplx R) where
  div z w :=
    let n := w.normSq
    ⟨(z.re * w.re + z.im * w.im) / n, (z.im * w.re - z.re * w.im) / n⟩

/-- The distance from zero. -/
def modulus [RealFunctions R] (z : Cplx R) : R := RealFunctions.hypotenuse z.re z.im

/-- The angle with the positive real axis. -/
def argument [RealFunctions R] (z : Cplx R) : R := RealFunctions.angle z.im z.re

/-- The number with modulus `r` and angle `t`. -/
def polar [Mul R] [RealFunctions R] (r t : R) : Cplx R :=
  ⟨r * RealFunctions.cos t, r * RealFunctions.sin t⟩

/-- The sum of a list in order from the left, beginning with zero. -/
def sum [Zero R] [Add R] (zs : List (Cplx R)) : Cplx R := zs.foldl (· + ·) 0

/-- The number divided by its modulus, and one if it is zero. -/
def phase [Zero R] [One R] [Div R] [BEq R] [RealFunctions R] (z : Cplx R) : Cplx R :=
  let r := z.modulus
  if r == 0 then 1 else z.unscale r

end Cplx

end PureGauge
