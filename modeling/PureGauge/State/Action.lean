/-
**The action and its local changes.**

The Wilson action is `-β` times the sum of the values of all plaquettes.  A single link occurs in
six of them, and as a factor of each, so that the part of the action that depends on it is linear in
its matrix: the products of the other three matrices add up to the staple.  On a lattice with one
point the link closes on itself, the staple contains it, and the local action has to be computed
anew.

Main definitions:

* `PureGauge.LatticeState.localAction`, `PureGauge.LatticeState.localActionReplacing` — the part of
  the action that depends on a link, and its value for another matrix;
* `PureGauge.LatticeState.staple`, `PureGauge.LatticeState.stapleAction` — the staple, and the local
  action computed from it;
* `PureGauge.LatticeState.averagePlaquette` — the mean value of all plaquettes.
-/
import PureGauge.State.Basic

namespace PureGauge

namespace LatticeState

variable {R : Type} [Zero R] [One R] [Add R] [Sub R] [Mul R] [Neg R] [Div R] [NatCast R]

/-- The part of the action that depends on a link. -/
def localAction (s : LatticeState R) (k : Link) : Checked R := do
  return -s.beta * (← s.links.plaquetteSum s.lattice k)

/-- The part of the action that depends on a link, with another matrix in its place. -/
def localActionReplacing (s : LatticeState R) (k : Link) (m : Mat3 R) : Checked R := do
  let links ← s.links.setAt (← s.lattice.linkIndex k) m
  return -s.beta * (← links.plaquetteSum s.lattice k)

/-- The staple of a link: for each orthogonal direction `ν` the product
`U_ν(x + μ) U_μ(x + ν)† U_ν(x)†` over the square ahead and the product
`U_ν(x + μ - ν)† U_μ(x - ν)† U_ν(x - ν)` over the square behind. -/
@[specialize]
def staple (s : LatticeState R) (k : Link) : Checked (Mat3 R) := do
  let link := fun (x : Point) (d : Direction) => s.links.link s.lattice ⟨x, d⟩
  let x := k.pos
  let μ := k.dir
  (← μ.orthogonal).foldlM (fun sum ν => do
    let ahead ← x.shift μ 1
    let a ← link ahead ν
    let b ← link (← x.shift ν 1) μ
    let c ← link x ν
    let sum := sum + a * b.adjoint * c.adjoint
    let behind ← x.shift ν (-1)
    let a ← link (← ahead.shift ν (-1)) ν
    let b ← link behind μ
    let c ← link behind ν
    return sum + a.adjoint * b.adjoint * c) 0

/-- The local action of a link with the matrix `m`, computed from its staple. -/
@[inline] def stapleAction (s : LatticeState R) (m staple : Mat3 R) : R :=
  -s.beta * (m * staple).trace.re / ((3 : Nat) : R)

/-- The mean value of all plaquettes: the sums of the points in order, over six for each point. -/
@[specialize]
def averagePlaquette (s : LatticeState R) : Checked R := do
  let points ← s.lattice.points
  let sums ← points.mapM fun x => do
    return realSum (← Direction.planes.mapM fun (μ, ν) => s.links.plaquette s.lattice x μ ν)
  let count ← Word.mul 6 (← s.lattice.pointCount)
  return realSum sums / (count : R)

end LatticeState

end PureGauge
