/-
**The cyclic lattice.**

A lattice has the same number of points in each of the four directions, and the last point of a line
is followed by the first one.  It stores nothing but that size.  Points and links are numbered: the
point `(x₀, x₁, x₂, x₃)` has the index `((x₀ n + x₁) n + x₂) n + x₃`, the link that leaves it in
direction `μ` has the index `4 i + μ` where `i` is the index of the point.  Coordinates are wrapped
into `[0, n)` before they are used.

All arithmetic on indices is checked, so a lattice may be too large to be numbered; then the
operations stop with a fault.

Main definitions:

* `PureGauge.Lattice` and `PureGauge.Lattice.ofSize?`;
* `PureGauge.Lattice.pointIndex`, `PureGauge.Lattice.linkIndex` — the numbers of points and links;
* `PureGauge.Lattice.pointAt`, `PureGauge.Lattice.linkAt` — the points and links with a number;
* `PureGauge.Lattice.neighbour` — a point moved along a direction and wrapped;
* `PureGauge.Lattice.parity`, `PureGauge.Lattice.linksWithParity`, `PureGauge.Lattice.phases` — the
  checkerboard.
-/
import PureGauge.Lattice.Point

namespace PureGauge

/-- A cyclic lattice with `dim` points in each of the four directions. -/
structure Lattice where
  dim : UInt64
deriving DecidableEq

namespace Lattice

/-- A lattice with at least one point. -/
def ofSize? (dim : UInt64) : Option Lattice := if dim = 0 then none else some ⟨dim⟩

/-- The number of points, `dim ^ 4`. -/
def pointCount (l : Lattice) : Checked Nat := do
  let n := l.dim.toNat
  Word.mul (← Word.mul (← Word.mul n n) n) n

/-- The number of links, four for each point. -/
def linkCount (l : Lattice) : Checked Nat := do
  Word.mul (← l.pointCount) Direction.count

/-! ### Numbers of points and links -/

/-- A coordinate wrapped into `[0, dim)`.  The size counts as a signed word here, and the remainder
by a negative number is the one by its absolute value. -/
def wrap (l : Lattice) (c : Int64) : Checked Nat := Word.remainder c l.dim.toInt64

/-- The point with every coordinate wrapped. -/
def wrapPoint (l : Lattice) (p : Point) : Checked Point := do
  return ⟨← p.coords.mapM fun c => return Int64.ofNat (← l.wrap c)⟩

/-- The number of a point. -/
def pointIndex (l : Lattice) (p : Point) : Checked Nat :=
  p.coords.toList.foldlM (fun i c => do
    let scaled ← Word.mul i l.dim.toNat
    Word.add scaled (← l.wrap c)) 0

/-- The number of a link. -/
def linkIndex (l : Lattice) (k : Link) : Checked Nat := do
  Word.add (← Word.mul (← l.pointIndex k.pos) Direction.count) k.dir.index.toNat

/-- The point whose coordinates are the four digits of a number, the last one first. -/
def pointOfDigits (n i : Nat) : Point :=
  ⟨#v[Int64.ofNat (i / n / n / n % n), Int64.ofNat (i / n / n % n), Int64.ofNat (i / n % n),
    Int64.ofNat (i % n)]⟩

/-- The point with number `i`, if there is one. -/
def pointAt (l : Lattice) (i : Nat) : Checked (Option Point) := do
  if i < (← l.pointCount) then return some (pointOfDigits l.dim.toNat i) else return none

/-- The link with number `i`, if there is one. -/
def linkAt (l : Lattice) (i : Nat) : Checked (Option Link) := do
  match ← l.pointAt (i / Direction.count) with
  | none => return none
  | some p => return (Direction.ofIndex? (UInt64.ofNat (i % Direction.count))).map (Link.mk p)

/-- All points, in the order of their numbers. -/
def points (l : Lattice) : Checked (List Point) := do
  return (List.range (← l.pointCount)).map (pointOfDigits l.dim.toNat)

/-! ### Neighbours -/

/-- The point reached from `p` by `n` steps along a direction, wrapped. -/
def neighbour (l : Lattice) (p : Point) (d : Direction) (n : Int64) : Checked Point := do
  l.wrapPoint (← p.shift d n)

/-! ### Checkerboard -/

/-- The parity of the sum of the wrapped coordinates. -/
def parity (l : Lattice) (p : Point) : Checked Parity := do
  let sum ← p.coords.toList.foldlM (fun s c => do Word.add s (← l.wrap c)) 0
  return Parity.ofSum sum

/-- Whether neighbouring points always have opposite parities, which is so when every line has an
even number of points. -/
def hasCheckerboard (l : Lattice) : Bool := l.dim.toNat % 2 = 0

/-- The links in direction `d` that leave a point of parity `q`, in the order of their numbers. -/
def linksWithParity (l : Lattice) (d : Direction) (q : Parity) : Checked (List Link) := do
  let chosen ← (← l.points).filterM fun p => return decide ((← l.parity p) = q)
  return chosen.map fun p => ⟨p, d⟩

/-- The eight lists of links that a sweep visits one after the other: for each direction the even
points and then the odd ones. -/
def phases (l : Lattice) : Checked (List (List Link)) :=
  (Direction.all.flatMap fun d => Parity.order.map fun q => (d, q)).mapM fun (d, q) =>
    l.linksWithParity d q

/-- A lattice is shown by its size. -/
def text (l : Lattice) : String :=
  "Cyclic lattice with " ++ toString l.dim.toNat ++ "^4 points"

end Lattice

end PureGauge
