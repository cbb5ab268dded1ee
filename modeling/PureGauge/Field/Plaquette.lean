/-
**Plaquettes.**

A plaquette is the product of the four matrices met on the way around an elementary square.  Its
value is a third of the real part of its trace, which is one for a field of identities.

Main definitions:

* `PureGauge.LinkField.plaquetteMatrix`, `PureGauge.LinkField.plaquette` — the product and its
  value;
* `PureGauge.LinkField.plaquetteSum` — the sum over the six plaquettes that contain a link.
-/
import PureGauge.Field.Basic

namespace PureGauge

namespace LinkField

variable {R : Type} [Zero R] [One R] [Add R] [Sub R] [Mul R] [Neg R]

/-- The product `U_μ(x) U_ν(x + μ) U_μ(x + ν)† U_ν(x)†` around the square at `x` in two different
directions. -/
@[specialize]
def plaquetteMatrix (f : LinkField R) (l : Lattice) (x : Point) (μ ν : Direction) :
    Checked (Mat3 R) := do
  if μ = ν then .error .flatPlaquette
  else
    let a ← f.link l ⟨x, μ⟩
    let b ← f.link l ⟨← x.shift μ 1, ν⟩
    let c ← f.link l ⟨← x.shift ν 1, μ⟩
    let d ← f.link l ⟨x, ν⟩
    return a * b * c.adjoint * d.adjoint

variable [Div R] [NatCast R]

/-- A third of the real part of the trace of a matrix. -/
@[inline] def meanTrace (m : Mat3 R) : R := m.trace.re / ((3 : Nat) : R)

/-- The value of a plaquette. -/
@[specialize]
def plaquette (f : LinkField R) (l : Lattice) (x : Point) (μ ν : Direction) : Checked R := do
  return meanTrace (← f.plaquetteMatrix l x μ ν)

/-- The sum of the values of the six plaquettes that contain a link: for each orthogonal direction
the one at its point and the one a step behind. -/
@[specialize]
def plaquetteSum (f : LinkField R) (l : Lattice) (k : Link) : Checked R := do
  let values ← (← k.dir.orthogonal).mapM fun ν => do
    let ahead ← f.plaquette l k.pos k.dir ν
    let behind ← f.plaquette l (← k.pos.shift ν (-1)) k.dir ν
    return ahead + behind
  return realSum values

end LinkField

end PureGauge
