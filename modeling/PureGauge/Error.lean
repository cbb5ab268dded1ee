/-
**Errors of construction.**

Only the making of a simulation and of its parts can be refused; once a simulation exists, sweeps
and measurements answer.  Each part has its own error, and the error of a whole wraps the errors of
its parts.  An error has a message, and below it the messages of the errors it came from.

Main definitions:

* `PureGauge.LatticeError`, `PureGauge.StateError`, `PureGauge.WorkerError`,
  `PureGauge.ThreadedStateError`, `PureGauge.SimulationError` — the causes;
* `PureGauge.Explained` — the cause of an error, its message and the messages below it.
-/
import PureGauge.Fault
import PureGauge.Decimal.Text

namespace PureGauge

/-! ### Causes -/

/-- Why a lattice is refused. -/
inductive LatticeError where
  /-- The lattice has no points. -/
  | zeroSize
deriving DecidableEq

/-- Why a lattice state is refused. -/
inductive StateError (R : Type) where
  /-- The coupling is not a positive finite number. -/
  | nonPositiveBeta (beta : R)
  /-- The number of matrices is not the number of links. -/
  | incompatibleSize
  | lattice (error : LatticeError)
deriving DecidableEq

/-- Why a pool of workers did not answer. -/
inductive WorkerError where
  /-- There is no worker. -/
  | noWorker
  /-- A worker gave up. -/
  | panic (panic : JobPanic)
deriving DecidableEq

/-- Why a lattice state filled by workers is refused. -/
inductive ThreadedStateError (R : Type) where
  | workers (error : WorkerError)
  | state (error : StateError R)
deriving DecidableEq

/-- Why a simulation is refused. -/
inductive SimulationError (R : Type) where
  /-- The spread is not a non-negative finite number. -/
  | invalidSpread (spread : R)
  /-- There is no matrix to propose. -/
  | emptyPool
  | state (error : StateError R)
  | workers (error : WorkerError)
deriving DecidableEq

/-- The error of a simulation whose state was to be filled by workers. -/
def SimulationError.ofThreaded {R : Type} : ThreadedStateError R → SimulationError R
  | .workers error => workers error
  | .state error => state error

/-! ### Messages -/

/-- An error with the name of its cause, its message and the messages of the errors it came from,
the nearest first. -/
class Explained (E : Type) where
  /-- The name of the cause, which is that of the innermost error. -/
  cause : E → String
  message : E → String
  sources : E → List String

/-- The message of an error followed by those below it. -/
def Explained.chain {E : Type} [Explained E] (error : E) : List String :=
  message error :: sources error

/-- The text a worker's panic left behind, if it left one. -/
def WorkerError.panicMessage? : WorkerError → Option String
  | noWorker => none
  | panic p => p.text?

instance : Explained LatticeError where
  cause
    | .zeroSize => "ZeroSize"
  message
    | .zeroSize =>
        "lattice initialization error: the number of points must be strictly greater than 0"
  sources _ := []

instance {R : Type} [RealText R] : Explained (StateError R) where
  cause
    | .nonPositiveBeta _ => "NonPositiveBeta"
    | .incompatibleSize => "IncompatibleSize"
    | .lattice error => Explained.cause error
  message
    | .nonPositiveBeta beta =>
        "beta must be strictly positive and finite, got " ++ RealText.plain beta
    | .incompatibleSize => "size of lattice and data are incompatible"
    | .lattice error => Explained.message error
  sources
    | .nonPositiveBeta _ | .incompatibleSize => []
    | .lattice error => Explained.chain error

instance : Explained WorkerError where
  cause
    | .noWorker => "ThreadNumberIncorrect"
    | .panic _ => "Panic"
  message
    | .noWorker => "number of thread is incorrect"
    | .panic (.text message) => "a thread panicked with message: " ++ message
    | .panic .wordless => "a thread panicked"
  sources _ := []

instance {R : Type} [RealText R] : Explained (ThreadedStateError R) where
  cause
    | .workers error => Explained.cause error
    | .state error => Explained.cause error
  message
    | .workers error => "thread error: " ++ Explained.message error
    | .state error => Explained.message error
  sources
    | .workers error => Explained.chain error
    | .state error => Explained.chain error

instance {R : Type} [RealText R] : Explained (SimulationError R) where
  cause
    | .invalidSpread _ => "InvalidSpread"
    | .emptyPool => "EmptyPool"
    | .state error => Explained.cause error
    | .workers error => Explained.cause error
  message
    | .invalidSpread spread =>
        "the spread parameter must be positive and finite, got " ++ RealText.plain spread
    | .emptyPool => "the pool of random SU(3) matrices is empty"
    | .state error => "state initialization error: " ++ Explained.message error
    | .workers error => "thread error: " ++ Explained.message error
  sources
    | .invalidSpread _ | .emptyPool => []
    | .state error => Explained.chain error
    | .workers error => Explained.chain error

end PureGauge
