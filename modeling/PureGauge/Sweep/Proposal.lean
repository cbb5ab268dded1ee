/-
**Proposals for a single link.**

An update of a link multiplies its matrix with one that is chosen from a pool, and computes by how
much that changes the action.  A change that does not raise the action is accepted at once;
otherwise a number in the unit interval is drawn, and the change is accepted if the number is at
most `exp (-δ)`.

Main definitions:

* `PureGauge.Acceptance` — the rule that decides, and the Metropolis rule as its instance;
* `PureGauge.LinkUpdate` — a proposal and what was decided;
* `PureGauge.LatticeState.actionChange` — the change of the action;
* `PureGauge.propose` — the proposal for a link.
-/
import PureGauge.State.Action
import PureGauge.SU3.Pool

namespace PureGauge

/-- A rule that decides whether a change of the action is accepted. -/
class Acceptance (R : Type) where
  /-- Whether a change is accepted without drawing a number. -/
  free : R → Bool
  /-- Whether a change is accepted with the number that was drawn. -/
  passes : R → R → Bool

/-- The Metropolis rule: a change `δ ≤ 0` is free, and a number `u` lets `δ` pass if
`u ≤ exp (-δ)`. -/
instance metropolis {R : Type} [Zero R] [Neg R] [LE R] [DecidableLE R] [RealFunctions R] :
    Acceptance R where
  free δ := decide (δ ≤ 0)
  passes δ u := decide (u ≤ RealFunctions.exp (-δ))

/-- A proposal for a link: the matrix, the change of the action, the number that was drawn if one
was needed, and whether the proposal is accepted. -/
structure LinkUpdate (R : Type) where
  proposed : Mat3 R
  change : R
  uniform : Option R
  accepted : Bool
deriving DecidableEq

section

variable {G R : Type} [Zero R] [One R] [Add R] [Sub R] [Mul R] [Neg R] [Div R] [NatCast R]

/-- The change of the action when the matrix `old` of a link becomes `new`.  With more than one
point the staple does not contain the link and serves both matrices; with a single point it does,
and the local action is computed anew. -/
@[specialize]
def LatticeState.actionChange (s : LatticeState R) (k : Link) (old new : Mat3 R) : Checked R := do
  if s.lattice.dim = 1 then
    let after ← s.localActionReplacing k new
    let before ← s.localAction k
    return after - before
  else
    let staple ← s.staple k
    return s.stapleAction new staple - s.stapleAction old staple

variable [WordSource G] [Acceptance R]

/-- The decision on a change of the action, and the number that was drawn for it. -/
def decideChange (δ : R) : Draw G (Option R × Bool) :=
  if Acceptance.free δ then return (none, true)
  else do
    let u ← Draw.fraction53
    return (some u, Acceptance.passes δ u)

/-- The proposal for a link, decided upon. -/
@[specialize]
def propose (pool : Pool R) (s : LatticeState R) (k : Link) : Draw G (LinkUpdate R) := do
  let old ← Draw.checked (s.links.link s.lattice k)
  let factor ← pool.choose
  let proposed := old * factor
  let change ← Draw.checked (s.actionChange k old proposed)
  let (uniform, accepted) ← decideChange change
  return ⟨proposed, change, uniform, accepted⟩

end

end PureGauge
