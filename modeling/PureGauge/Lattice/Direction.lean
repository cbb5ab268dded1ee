/-
**Directions of space-time.**

A link leaves its point in one of four positive directions.  A direction is named by its index; the
ones made by `Direction.ofIndex?` have an index below four, but a direction that was read from a
text keeps whatever index it had there, so the operations say what happens above three.

Main definitions:

* `PureGauge.Direction` and `PureGauge.Direction.all` — the four directions in order;
* `PureGauge.Direction.orthogonal` — the three directions that span a plane with a given one;
* `PureGauge.Direction.planes` — the six planes, each named by its two directions in order.
-/
import PureGauge.Fault

namespace PureGauge

/-- A direction, named by its index. -/
structure Direction where
  index : UInt64
deriving DecidableEq

namespace Direction

/-- The number of directions, and of links that leave a point. -/
def count : Nat := 4

/-- The direction with an index below four. -/
def ofIndex? (index : UInt64) : Option Direction :=
  if index.toNat < count then some ⟨index⟩ else none

/-- The four directions, ordered by index. -/
def all : List Direction := [⟨0⟩, ⟨1⟩, ⟨2⟩, ⟨3⟩]

/-- The three directions different from `d`, ordered by index.  A direction outside the four differs
from all of them, and there is no place for a fourth. -/
def orthogonal (d : Direction) : Checked (List Direction) :=
  let others := all.filter (· ≠ d)
  if others.length ≤ 3 then .ok others else .error (.outsideBuffer 3 3)

/-- The six planes `(μ, ν)` with `μ < ν`. -/
def planes : List (Direction × Direction) :=
  [(⟨0⟩, ⟨1⟩), (⟨0⟩, ⟨2⟩), (⟨0⟩, ⟨3⟩), (⟨1⟩, ⟨2⟩), (⟨1⟩, ⟨3⟩), (⟨2⟩, ⟨3⟩)]

/-- Directions are ordered by index. -/
def order (d e : Direction) : Ordering := compare d.index e.index

/-- A direction is shown as its index. -/
def text (d : Direction) : String := toString d.index.toNat

end Direction

end PureGauge
