/-
**Random special unitary matrices close to the identity.**

The identity is perturbed by `i ε A`, where the entries of `A` are drawn from the unit disc and `ε`
is the spread.  The unitary factor of the result, with the phases of the triangular factor moved
into it, is divided by a cube root of its determinant.

Main definitions:

* `PureGauge.Cplx.unitPhase`, `PureGauge.Cplx.principalCubeRoot`;
* `PureGauge.Mat3.ofFactors` — the special unitary matrix made from a unitary factor and the
  diagonal of a triangular one;
* `PureGauge.Mat3.nearUnity` — the random matrix.
-/
import PureGauge.SU3.Reflection
import PureGauge.SU3.Spread
import PureGauge.Random.Source

namespace PureGauge

section

variable {G R : Type} [WordSource G] [Zero R] [One R] [Add R] [Sub R] [Mul R] [Neg R] [Div R]
  [NatCast R] [BEq R] [LT R] [DecidableLT R] [RealFunctions R]

namespace Cplx

/-- The number divided by its modulus, and one if it is too small for that. -/
def unitPhase (z : Cplx R) : Cplx R :=
  let r := z.modulus
  if RealFunctions.epsilon < r then z.unscale r else 1

/-- The cube root whose angle is a third of the angle of the number. -/
def principalCubeRoot (z : Cplx R) : Cplx R :=
  polar (RealFunctions.cbrt z.modulus) (z.argument / ((3 : Nat) : R))

/-- A number in the unit disc: first its modulus, then its angle. -/
def inUnitDisc : Draw G (Cplx R) := do
  let r : R ← Draw.fraction52
  let t : R ← Draw.fraction52
  return polar (r * 1) (t * ((1 + 1) * RealFunctions.pi))

end Cplx

namespace Mat3

/-- The unitary factor `q` turned by the phases of the diagonal `r` and divided by a cube root of
its determinant. -/
def ofFactors (q : Mat3 R) (r : Vec3 R) : Mat3 R :=
  let turned := q * diagonal (r.map Cplx.unitPhase)
  let root := turned.det.principalCubeRoot
  turned.map (· / root)

/-- The special unitary matrix made from a perturbation of size `ε`. -/
def ofPerturbation (a : Mat3 R) (ε : R) : Mat3 R :=
  let (q, r) := unitaryTriangular (1 + a.smul (Cplx.imaginary ε))
  ofFactors q r

/-- A random special unitary matrix close to the identity; without a spread it is the identity and
nothing is drawn. -/
def nearUnity (s : Spread R) : Draw G (Mat3 R) :=
  if s.value == 0 then return 1
  else do
    let column : Draw G (Vec3 R) := do
      let x ← Cplx.inUnitDisc
      let y ← Cplx.inUnitDisc
      let z ← Cplx.inUnitDisc
      return ⟨x, y, z⟩
    let c0 ← column
    let c1 ← column
    let c2 ← column
    return ofPerturbation ⟨c0, c1, c2⟩ s.value

end Mat3

end

end PureGauge
