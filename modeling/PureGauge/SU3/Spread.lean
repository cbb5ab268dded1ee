/-
**The spread of the proposals.**

A random matrix close to the identity is made from a perturbation whose size is the spread.  Only
non-negative finite numbers are spreads.

Main definitions:

* `PureGauge.Spread`, `PureGauge.Spread.ofReal?` and `PureGauge.Spread.standard`.
-/
import PureGauge.Scalar.Functions

namespace PureGauge

/-- How far random matrices stray from the identity. -/
structure Spread (R : Type) where
  value : R
deriving DecidableEq

namespace Spread

/-- A non-negative finite number as a spread. -/
def ofReal? {R : Type} [Zero R] [LE R] [DecidableLE R] [RealFunctions R] (x : R) :
    Option (Spread R) :=
  if 0 ≤ x ∧ RealFunctions.isFinite x = true then some ⟨x⟩ else none

/-- The spread that is used unless another one is given. -/
def standard : Spread Float := ⟨0.24⟩

end Spread

end PureGauge
