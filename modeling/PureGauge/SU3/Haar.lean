/-
**Uniformly distributed special unitary matrices.**

Two vectors with independent normal components point in uniformly distributed directions.  They are
drawn again while the first is too short or the second too close to its multiples.

Main definitions:

* `PureGauge.Vec3.gaussian` — a vector of normal numbers;
* `PureGauge.Mat3.haar` — a uniformly distributed matrix.
-/
import PureGauge.SU3.Orthonormal
import PureGauge.Random.Normal

namespace PureGauge

section

variable {G R : Type} [WordSource G] [NormalDeviate R] [Zero R] [One R] [Add R] [Sub R] [Mul R]
  [Neg R] [Div R] [LE R] [DecidableLE R] [RealFunctions R]

/-- A complex number with independent normal parts, the real part first. -/
def Cplx.gaussian : Draw G (Cplx R) := do
  let re ← NormalDeviate.draw
  let im ← NormalDeviate.draw
  return ⟨re, im⟩

/-- A vector with independent normal components. -/
def Vec3.gaussian : Draw G (Vec3 R) := do
  let x ← Cplx.gaussian
  let y ← Cplx.gaussian
  let z ← Cplx.gaussian
  return ⟨x, y, z⟩

/-- The part of `w` that is orthogonal to `v`. -/
def Vec3.rejection (v w : Vec3 R) : Vec3 R := w - v.smul ((v.dot w).unscale v.normSq)

/-- A vector that is long enough for a condition on its length. -/
def Vec3.gaussianWith (measured : Vec3 R → Vec3 R) : Draw G (Vec3 R) := Draw.untilSome do
  let v ← Vec3.gaussian
  return if (measured v).norm ≤ RealFunctions.epsilon then none else some v

/-- A uniformly distributed special unitary matrix. -/
def Mat3.haar : Draw G (Mat3 R) := do
  let v ← Vec3.gaussianWith id
  let w ← Vec3.gaussianWith v.rejection
  return Mat3.ofTwoVectors v w

end

end PureGauge
