/-
**Simulations.**

A simulation is a Markov chain together with the protocol of its measurements: how many sweeps lie
between two of them, how many there are, and after how many sweeps the links are projected onto the
special unitary matrices again.  Everything it does is made of single sweeps.

The operations run in a session, which holds the simulation and the journal.  When one of them stops
with a fault, the session keeps what was done until then.

Main definitions:

* `PureGauge.Simulation`, `PureGauge.Simulation.ofConfig` and `PureGauge.Simulation.ofParts`;
* `PureGauge.Session` and `PureGauge.Run` — the setting of the operations;
* `PureGauge.Run.sweep`, `PureGauge.Run.thermalise`, `PureGauge.Run.sampleWith` — the operations.
-/
import PureGauge.Simulation.Journal

namespace PureGauge

/-- A positive number of sweeps. -/
structure Period where
  sweeps : Nat
  pos : 0 < sweeps
deriving DecidableEq

/-- A number of sweeps, if it is positive. -/
def Period.ofNat? (n : Nat) : Option Period := if h : 0 < n then some ⟨n, h⟩ else none

/-- A Markov chain and the protocol of its measurements. -/
structure Simulation (R G : Type) where
  chain : Chain R G
  /-- The number of sweeps between two measurements. -/
  spacing : Nat
  /-- The number of measurements. -/
  measurements : Nat
  /-- The number of sweeps done so far. -/
  sweeps : Nat
  /-- After how many sweeps the links are normalised, if they are. -/
  period : Option Period

namespace Simulation

variable {R G : Type}

/-- A simulation made of its parts, which has not swept yet. -/
def ofParts (state : LatticeState R) (engine : Engine R G) (spacing measurements : Nat) :
    Simulation R G :=
  ⟨⟨engine, state⟩, spacing, measurements, 0, none⟩

section

variable [WordSource G] [NormalDeviate R] [Zero R] [One R] [Add R] [Sub R] [Mul R] [Neg R] [Div R]
  [NatCast R] [BEq R] [LT R] [DecidableLT R] [LE R] [DecidableLE R] [RealFunctions R]

/-- The state that a configuration starts from. -/
def startState (c : Config R) (spread : Spread R) :
    Draw G (Except (StateError R) (LatticeState R)) :=
  match c.start with
  | .cold => LatticeState.cold c.points c.beta
  | .hot => LatticeState.hot c.points c.beta
  | .nearUnity => LatticeState.nearUnity c.points c.beta spread

/-- The pool and the state of a configuration, drawn in this order. -/
def drawParts (c : Config R) :
    Draw G (Except (SimulationError R) (Pool R × LatticeState R)) := do
  match c.validate with
  | .error error => return .error error
  | .ok spread =>
      match ← Pool.generate c.pairs.toNat spread with
      | none => return .error .emptyPool
      | some pool =>
          match ← startState c spread with
          | .error error => return .error (.state error)
          | .ok state => return .ok (pool, state)

/-- The simulation of a configuration, with a source of random words. -/
def ofConfig (c : Config R) (source : G) :
    Checked (Except (SimulationError R) (Simulation R G)) :=
  match drawParts c source with
  | .error fault _ => .error fault
  | .ok (.error error) _ => .ok (.error error)
  | .ok (.ok (pool, state)) rest =>
      .ok (.ok (ofParts state (.ofPool pool rest) c.spacing.toNat c.measurements.toNat))

end

/-- The matrices of all links. -/
def links (s : Simulation R G) : Array (Mat3 R) := s.chain.state.links.data

/-- The simulation with every link projected onto the special unitary matrices. -/
def normalised [Add R] [Sub R] [Mul R] [Neg R] [Div R] [LE R] [DecidableLE R]
    [RealFunctions R] (s : Simulation R G) : Simulation R G :=
  { s with chain := { s.chain with state := s.chain.state.normalised } }

/-- The average plaquette of the state. -/
@[inline] def average [Zero R] [One R] [Add R] [Sub R] [Mul R] [Neg R] [Div R] [NatCast R]
    (s : Simulation R G) : Checked R :=
  s.chain.state.averagePlaquette

/-- Whether the links are to be normalised after the sweep that made the number of sweeps what it
is. -/
def normalisationDue (s : Simulation R G) : Bool :=
  match s.period with
  | none => false
  | some p => s.sweeps % p.sweeps = 0

/-- The events of making a simulation. -/
def creation (c : Config R) (s : Simulation R G) : List (Event R) :=
  [.ofState s.chain.state, .simulationMade c s.chain.engine.pool.matrices.size]

end Simulation

/-! ### Sessions -/

/-- A simulation and the journal of what happened to it. -/
structure Session (R G : Type) where
  simulation : Simulation R G
  journal : Array (Event R)

/-- An operation on a session. -/
abbrev Run (R G α : Type) := EStateM Fault (Session R G) α

namespace Run

variable {R G : Type}

/-- Notes an event. -/
def note (e : Event R) : Run R G Unit := modify fun s => { s with journal := s.journal.push e }

/-- Changes the simulation. -/
def change (f : Simulation R G → Simulation R G) : Run R G Unit :=
  modify fun s => { s with simulation := f s.simulation }

/-- A checked computation on the simulation as it is. -/
def checked {α : Type} (f : Simulation R G → Checked α) : Run R G α := fun s =>
  match f s.simulation with
  | .ok a => .ok a s
  | .error fault => .error fault s

/-- An operation on the chain of the simulation. -/
def onChain {α : Type} (step : EStateM Fault (Chain R G) α) : Run R G α := fun s =>
  match step s.simulation.chain with
  | .ok a c => .ok a { s with simulation := { s.simulation with chain := c } }
  | .error fault c => .error fault { s with simulation := { s.simulation with chain := c } }

variable [WordSource G] [Zero R] [One R] [Add R] [Sub R] [Mul R] [Neg R] [Div R] [NatCast R]
  [LE R] [DecidableLE R] [RealFunctions R] [Acceptance R]

/-- A single sweep, which is counted, and after which the links are normalised if that is due. -/
@[specialize]
def sweep : Run R G Unit := do
  let report ← onChain Chain.sweep
  note (.swept report)
  let sweeps ← checked fun s => Word.add s.sweeps 1
  change fun s => { s with sweeps := sweeps }
  change fun s => if s.normalisationDue then s.normalised else s

/-- So many sweeps one after the other. -/
@[specialize]
def sweepTimes : Nat → Run R G Unit
  | 0 => return ()
  | n + 1 => do
      sweep
      sweepTimes n

/-- Sweeps that are discarded. -/
@[specialize]
def thermalise (n : Nat) : Run R G Unit := do
  sweepTimes n
  note (.thermalised n (← checked Simulation.average))

/-- The measurements with the numbers `index, …`, of which `left` are left: each is the average
plaquette after the sweeps between two measurements, and then a visitor that is told its number may
change the session.  What the visitor found is kept beside the measurement. -/
@[specialize]
def measureFrom {β : Type} (visit : Nat → Run R G β) (total index : Nat) :
    Nat → Run R G (List (R × β))
  | 0 => return []
  | left + 1 => do
      sweepTimes (← get).simulation.spacing
      let average ← checked Simulation.average
      note (.measured (index + 1) total average (← get).simulation.chain.engine.rate)
      let found ← visit index
      return (average, found) :: (← measureFrom visit total (index + 1) left)

/-- All measurements of the protocol, each with what a visitor found after it. -/
@[specialize]
def sampleWith {β : Type} (visit : Nat → Run R G β) : Run R G (List (R × β)) := do
  let total := (← get).simulation.measurements
  checked fun _ => Storage.room Storage.wordBytes total
  measureFrom visit total 0 total

/-- All measurements of the protocol. -/
@[specialize]
def sample : Run R G (List R) := do
  return (← sampleWith fun _ => return ()).map Prod.fst

end Run

end PureGauge
