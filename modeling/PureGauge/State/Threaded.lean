/-
**Hot states filled by workers.**

The matrices of a hot state may be drawn by a pool of workers, each with a source of its own.

Main definitions:

* `PureGauge.LinkField.hotByWorkers`, `PureGauge.LatticeState.hotByWorkers`.
-/
import PureGauge.State.Basic
import PureGauge.WorkerPool

namespace PureGauge

variable {G R : Type} [WordSource G] [NormalDeviate R] [Zero R] [One R] [Add R] [Sub R] [Mul R]
  [Neg R] [Div R] [LE R] [DecidableLE R] [RealFunctions R]

/-- The job of drawing a uniformly distributed matrix. -/
def haarJob : Job G (Mat3 R) := fun source _ =>
  match Mat3.haar source with
  | .ok m source => .ok (m, source)
  | .error fault _ => .error fault

/-- A field of uniformly distributed matrices drawn by workers. -/
def LinkField.hotByWorkers (l : Lattice) (sources : Nat → G) (workers : Nat) :
    Checked (Except WorkerError (LinkField R)) := do
  return (← runJobs Storage.matrixBytes (← l.linkCount) haarJob sources workers).map fun ms =>
    ⟨ms.toArray⟩

/-- A state of uniformly distributed matrices drawn by workers. -/
def LatticeState.hotByWorkers [LT R] [DecidableLT R] (n : UInt64) (beta : R) (sources : Nat → G)
    (workers : Nat) : Checked (Except (ThreadedStateError R) (LatticeState R)) := do
  match latticeOfSize n with
  | .error error => return .error (.state error)
  | .ok l =>
      match ← LinkField.hotByWorkers l sources workers with
      | .error error => return .error (.workers error)
      | .ok f => return (← ofField l beta f).mapError .state

end PureGauge
