/-
**Special unitary matrices from two vectors.**

The first vector is normalised, the second is made orthogonal to it and normalised, and the third
column is the conjugate of their vector product, which is the only choice that makes the determinant
one.  A vector too short to be normalised is left as it is.

Main definitions:

* `PureGauge.Vec3.normalised` — a vector divided by its length;
* `PureGauge.Mat3.ofTwoVectors` — the matrix made from two vectors;
* `PureGauge.Mat3.orthonormalised` — the same for the first two columns of a matrix;
* `PureGauge.Mat3.isSpecialUnitary`, `PureGauge.Mat3.defect?` — two checks with a tolerance.
-/
import PureGauge.Scalar.Matrix

namespace PureGauge

section

variable {R : Type} [Zero R] [One R] [Add R] [Sub R] [Mul R] [Neg R] [Div R] [LT R] [DecidableLT R]
  [LE R] [DecidableLE R] [RealFunctions R]

/-- The vector divided by its length, or the vector itself if it is too short for that. -/
def Vec3.normalised (v : Vec3 R) : Vec3 R :=
  let n := v.norm
  if n ≤ RealFunctions.epsilon then v else v.map (·.unscale n)

namespace Mat3

/-- The special unitary matrix whose first two columns span the same plane as two given vectors. -/
def ofTwoVectors (v w : Vec3 R) : Mat3 R :=
  let a := v.normalised
  let b := (w - a.smul (a.dot w)).normalised
  ⟨a, b, a.conj.cross b.conj⟩

/-- A matrix projected onto the special unitary ones. -/
def orthonormalised (m : Mat3 R) : Mat3 R := ofTwoVectors m.col0 m.col1

/-- Whether the square of the distance of the determinant from one, and the norm of `m m† - 1`, are
both below a tolerance. -/
def isSpecialUnitary (m : Mat3 R) (tolerance : R) : Bool :=
  decide ((m.det - 1).normSq < tolerance) && decide ((m * m.adjoint - 1).norm < tolerance)

/-- What keeps a matrix from being special unitary. -/
inductive Defect where
  | determinant
  | unitarity
deriving DecidableEq

/-- The first of the two conditions that a matrix misses: the distance of the determinant from one,
and the norm of `m m† - 1`, have to be below a tolerance. -/
def defect? (m : Mat3 R) (tolerance : R) : Option Defect :=
  if ¬ (m.det - 1).modulus < tolerance then some .determinant
  else if ¬ (m * m.adjoint - 1).norm < tolerance then some .unitarity
  else none

end Mat3

end

end PureGauge
