/-
**The parameters of a simulation.**

Main definitions:

* `PureGauge.Start` — the field a simulation starts from;
* `PureGauge.Config` — the parameters, with `PureGauge.Config.make` and `PureGauge.Config.standard`;
* `PureGauge.Config.validate` — the first parameter that rules a simulation out, or the spread.
-/
import PureGauge.Error
import PureGauge.Word
import PureGauge.SU3.Spread
import PureGauge.State.Basic

namespace PureGauge

/-- The field a simulation starts from: identities, uniformly distributed matrices, or matrices
close to the identity. -/
inductive Start where
  | cold
  | hot
  | nearUnity
deriving DecidableEq

/-- The name of a start. -/
def Start.text : Start → String
  | cold => "cold"
  | hot => "hot"
  | nearUnity => "close to unity"

/-- The start that is taken unless another one is given. -/
def Start.standard : Start := .hot

/-- The parameters of a simulation. -/
structure Config (R : Type) where
  /-- The number of points in each direction. -/
  points : UInt64
  /-- The coupling. -/
  beta : R
  /-- The number of sweeps between two measurements. -/
  spacing : UInt64
  /-- The number of measurements. -/
  measurements : UInt64
  /-- The spread of the proposals, not yet checked. -/
  spread : R
  /-- The number of pairs in the pool. -/
  pairs : UInt64
  /-- The number of sweeps before the first measurement. -/
  thermalisation : UInt64
  start : Start
deriving DecidableEq, BEq

namespace Config

/-- Fifty pairs, ten times as many sweeps before the first measurement as between two of them, and a
hot start. -/
def make {R : Type} (points : UInt64) (beta : R) (spacing measurements : UInt64) (spread : R) :
    Checked (Config R) := do
  let thermalisation ← Word.mul 10 spacing.toNat
  return ⟨points, beta, spacing, measurements, spread, 50, UInt64.ofNat thermalisation, .standard⟩

/-- The parameters that are taken unless others are given. -/
def standard : Config Float := ⟨8, 5.5, 50, 1000, Spread.standard.value, 50, 500, .standard⟩

/-- The spread, unless a parameter rules a simulation out; size, coupling, spread and number of
pairs are looked at in this order. -/
def validate {R : Type} [Zero R] [LT R] [DecidableLT R] [LE R] [DecidableLE R] [RealFunctions R]
    (c : Config R) : Except (SimulationError R) (Spread R) :=
  if c.points = 0 then .error (.state (.lattice .zeroSize))
  else if ¬ LatticeState.validBeta c.beta then .error (.state (.nonPositiveBeta c.beta))
  else match Spread.ofReal? c.spread with
    | none => .error (.invalidSpread c.spread)
    | some spread => if c.pairs = 0 then .error .emptyPool else .ok spread

/-- Parameters in words. -/
def text {R : Type} [RealText R] (c : Config R) : String :=
  toString c.points.toNat ++ "^4 lattice, beta = " ++ RealText.plain c.beta ++ ", Ncor = "
    ++ toString c.spacing.toNat ++ ", Ncf = " ++ toString c.measurements.toNat ++ ", eps = "
    ++ RealText.plain c.spread ++ ", " ++ c.start.text ++ " start"

end Config

end PureGauge
