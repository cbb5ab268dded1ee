/-
**Walks over the points or the links of a lattice.**

A walk stands between two ends of a range of numbers and can be shortened from either end.  The
items are those that the lattice has at these numbers.  Skipping saturates: a walk that is asked to
skip more than it holds becomes empty and stays so.

Main definitions:

* `PureGauge.Walk` — the numbers `front, …, stop - 1` still to be visited, with what they number;
* `PureGauge.Walk.next`, `PureGauge.Walk.nextBack`, `PureGauge.Walk.nth`, `PureGauge.Walk.nthBack` —
  the steps;
* `PureGauge.Walk.toList` — what is left, in order;
* `PureGauge.Lattice.walkPoints`, `PureGauge.Lattice.walkLinks` — the walks over a whole lattice.
-/
import PureGauge.Lattice.Basic

namespace PureGauge

/-- A walk over the items with the numbers `front, …, stop - 1`. -/
structure Walk (α : Type) where
  item : Nat → Checked (Option α)
  front : Nat
  stop : Nat

namespace Walk

variable {α : Type}

/-- The number of items that are left. -/
def size (w : Walk α) : Nat := w.stop - w.front

/-- The first item that is left, and the walk after it. -/
def next (w : Walk α) : Checked (Option α × Walk α) := do
  if w.front < w.stop then return (← w.item w.front, { w with front := w.front + 1 })
  else return (none, w)

/-- The last item that is left, and the walk before it. -/
def nextBack (w : Walk α) : Checked (Option α × Walk α) := do
  if w.front < w.stop then return (← w.item (w.stop - 1), { w with stop := w.stop - 1 })
  else return (none, w)

/-- Drops up to `k` items in front, then takes one. -/
def nth (w : Walk α) (k : Nat) : Checked (Option α × Walk α) :=
  { w with front := min (w.front + k) w.stop }.next

/-- Drops up to `k` items at the back, one by one, then takes one. -/
def nthBack (w : Walk α) : Nat → Checked (Option α × Walk α)
  | 0 => w.nextBack
  | k + 1 => do
      match ← w.nextBack with
      | (none, v) => return (none, v)
      | (some _, v) => v.nthBack k

/-- The items that are left, in order. -/
def toList (w : Walk α) : Checked (List α) := do
  let found ← (List.range w.size).mapM fun i => w.item (w.front + i)
  return found.filterMap id

/-- Every `stride`-th item that is left, beginning with the first. -/
def everyNth (w : Walk α) (stride : Nat) : Checked (List α) := do
  if stride = 0 then .error .zeroStride
  else
    let rest ← w.toList
    return (List.range ((rest.length + stride - 1) / stride)).filterMap fun i => rest[i * stride]?

end Walk

namespace Lattice

/-- The walk over all points, in the order of their numbers. -/
def walkPoints (l : Lattice) : Checked (Walk Point) := do
  return ⟨l.pointAt, 0, ← l.pointCount⟩

/-- The walk over all links, in the order of their numbers. -/
def walkLinks (l : Lattice) : Checked (Walk Link) := do
  return ⟨l.linkAt, 0, ← l.linkCount⟩

end Lattice

end PureGauge
