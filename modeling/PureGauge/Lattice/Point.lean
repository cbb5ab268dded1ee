/-
**Points and links.**

A point has four signed coordinates, which need not lie inside any lattice: it is only when a
lattice is indexed that they are wrapped around.  A link is a point together with the direction in
which it leaves that point.

Main definitions:

* `PureGauge.Point`, with `PureGauge.Point.coordinate` and `PureGauge.Point.shift`;
* `PureGauge.Link` — a point and a direction;
* `PureGauge.Parity` — even or odd.
-/
import PureGauge.Word
import PureGauge.Lattice.Direction

namespace PureGauge

/-! ### Points -/

/-- Four signed coordinates. -/
structure Point where
  coords : Vector Int64 4
deriving DecidableEq

namespace Point

/-- The point with four zero coordinates. -/
def origin : Point := ⟨#v[0, 0, 0, 0]⟩

/-- Coordinate number `k`, of which there are four. -/
def coordinate (p : Point) (k : Nat) : Checked Int64 :=
  if h : k < 4 then .ok p.coords[k] else .error .noSuchCoordinate

/-- The point with coordinate number `k` replaced. -/
def setCoordinate (p : Point) (k : Nat) (c : Int64) : Checked Point :=
  if h : k < 4 then .ok ⟨p.coords.set k c⟩ else .error .noSuchCoordinate

/-- The point moved by `n` along a direction, without wrapping. -/
def shift (p : Point) (d : Direction) (n : Int64) : Checked Point := do
  let c ← p.coordinate d.index.toNat
  p.setCoordinate d.index.toNat (← Word.shift c n)

/-- A point is shown as its coordinates between brackets. -/
def text (p : Point) : String :=
  "[" ++ ", ".intercalate (p.coords.toList.map fun c => toString c.toInt) ++ "]"

end Point

/-! ### Links -/

/-- A link: it leaves `pos` in the direction `dir`. -/
structure Link where
  pos : Point
  dir : Direction
deriving DecidableEq

/-- A link is shown with its position and its direction. -/
def Link.text (k : Link) : String :=
  "link at " ++ k.pos.text ++ " in direction " ++ k.dir.text

/-! ### Parities -/

/-- Whether a sum of coordinates is even or odd. -/
inductive Parity where
  | even
  | odd
deriving DecidableEq

namespace Parity

/-- The order in which the parities are visited. -/
def order : List Parity := [even, odd]

/-- The other parity. -/
def opposite : Parity → Parity
  | even => odd
  | odd => even

/-- The parity of a natural number. -/
def ofSum (n : Nat) : Parity := if n % 2 = 0 then even else odd

end Parity

end PureGauge
