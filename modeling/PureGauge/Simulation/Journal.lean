/-
**The journal of a run.**

What happens in a run is noted as a sequence of events.  An event has a level, and a reader who asks
for a level sees the events up to it.

Main definitions:

* `PureGauge.Level` — how detailed an event is;
* `PureGauge.Event` — the events, with `PureGauge.Event.level` and `PureGauge.Event.message`;
* `PureGauge.Event.visible` — the events a reader sees.
-/
import PureGauge.Simulation.Config
import PureGauge.Sweep.Engine

namespace PureGauge

/-- How detailed an event is. -/
inductive Level where
  | info
  | debug
  | trace
deriving DecidableEq

namespace Level

/-- The place of a level, the most detailed last. -/
def depth : Level → Nat
  | info => 1
  | debug => 2
  | trace => 3

/-- The name of a level. -/
def text : Level → String
  | info => "INFO"
  | debug => "DEBUG"
  | trace => "TRACE"

end Level

/-- What can happen in a run. -/
inductive Event (R : Type) where
  /-- A state was made. -/
  | stateMade (lattice : Lattice) (beta : R)
  /-- A simulation was made with a pool of the given size. -/
  | simulationMade (config : Config R) (poolSize : Nat)
  /-- A sweep was done. -/
  | swept (report : SweepReport R)
  /-- Sweeps were done and discarded, and left the given average plaquette. -/
  | thermalised (sweeps : Nat) (average : R)
  /-- A measurement was made, the given one of so many. -/
  | measured (number total : Nat) (average rate : R)

namespace Event

/-- The level of an event. -/
def level {R : Type} : Event R → Level
  | stateMade .. | simulationMade .. | thermalised .. => .debug
  | swept .. => .trace
  | measured .. => .info

/-- An event in words. -/
def message {R : Type} [RealText R] : Event R → String
  | stateMade lattice beta =>
      "new lattice state: " ++ lattice.text ++ ", beta = " ++ RealText.plain beta
  | simulationMade config poolSize =>
      "new simulation: " ++ config.text ++ ", pool of " ++ toString poolSize ++ " matrices"
  | swept report =>
      report.execution.text ++ " sweep: accepted " ++ toString report.accepted
        ++ " links, acceptance rate " ++ RealText.fixed 4 report.rate
  | thermalised sweeps average =>
      "thermalised with " ++ toString sweeps ++ " sweeps, average plaquette "
        ++ RealText.plain average
  | measured number total average rate =>
      "measure " ++ toString number ++ "/" ++ toString total ++ ": average plaquette "
        ++ RealText.plain average ++ ", acceptance rate " ++ RealText.fixed 4 rate

/-- The events whose level is at most a given depth. -/
def visible {R : Type} (depth : Nat) (events : List (Event R)) : List (Event R) :=
  events.filter fun e => e.level.depth ≤ depth

/-- The event of making a state. -/
def ofState {R : Type} (s : LatticeState R) : Event R := stateMade s.lattice s.beta

end Event

end PureGauge
