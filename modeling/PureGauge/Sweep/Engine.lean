/-
**Sweeps over the lattice.**

A sweep visits every link once, in eight phases: for each direction the links of even points and
then those of odd points.  It takes a single word from the source of the engine; the random numbers
for a link come from a generator of their own, seeded with that word plus the number of the link, so
that they do not depend on the order in which links are visited.

Within a phase the links may be updated one after the other, or all proposals may be evaluated
against the field as it is at the beginning of the phase and then be carried out together.  The
second way needs a lattice with a checkerboard, and falls back to the first where there is none.

Main definitions:

* `PureGauge.Execution` — one after the other, or together;
* `PureGauge.Engine` — pool, source of random words and what the last sweep did;
* `PureGauge.parallelPhase`, `PureGauge.sequentialPhase` — the two ways through a phase;
* `PureGauge.Chain` — an engine and the state it works on, with `PureGauge.Chain.sweep` and
  `PureGauge.Chain.updateLink`.
-/
import PureGauge.Sweep.Proposal
import PureGauge.Random.Xoshiro

namespace PureGauge

/-- How the proposals of a phase are carried out: together or one after the other. -/
inductive Execution where
  | parallel
  | sequential
deriving DecidableEq

/-- The name of a way to carry out a phase. -/
def Execution.text : Execution → String
  | parallel => "parallel"
  | sequential => "sequential"

/-- The engine of the updates: the pool it proposes from, the execution it is set to, what the last
sweep did, and its source of random words. -/
structure Engine (R G : Type) where
  pool : Pool R
  execution : Execution
  accepted : Nat
  rate : R
  source : G

/-- An engine that has not swept yet. -/
def Engine.ofPool {R G : Type} [Zero R] (pool : Pool R) (source : G) : Engine R G :=
  ⟨pool, .parallel, 0, 0, source⟩

/-! ### Phases -/

/-- The generator for a link in a sweep: its seed is the word of the sweep plus the number of the
link, modulo `2 ^ 64`. -/
def linkSource (seed : UInt64) (i : Nat) : Xoshiro := Xoshiro.ofSeed (seed + UInt64.ofNat i)

/-- The execution that a lattice allows. -/
def Lattice.allowed (l : Lattice) (e : Execution) : Execution :=
  if l.hasCheckerboard then e else .sequential

section

variable {R : Type} [Zero R] [One R] [Add R] [Sub R] [Mul R] [Neg R] [Div R] [NatCast R]
  [Acceptance R]

/-- The number of a link and the proposal for it in a sweep. -/
@[specialize]
def evaluate (pool : Pool R) (seed : UInt64) (s : LatticeState R) (k : Link) :
    Checked (Nat × LinkUpdate R) := do
  let i ← s.lattice.linkIndex k
  match propose pool s k (linkSource seed i) with
  | .ok update _ => return (i, update)
  | .error fault _ => .error fault

/-- A state and the number of proposals carried out so far, after one more proposal: it is carried
out if it was accepted. -/
def commit (sn : LatticeState R × Nat) (iu : Nat × LinkUpdate R) : Checked (LatticeState R × Nat) :=
  if iu.2.accepted then do
    let links ← sn.1.links.setAt iu.1 iu.2.proposed
    return ({ sn.1 with links := links }, sn.2 + 1)
  else return sn

/-- A phase in which all proposals are evaluated before any is carried out. -/
@[specialize]
def parallelPhase (pool : Pool R) (seed : UInt64) (sn : LatticeState R × Nat) (phase : List Link) :
    Checked (LatticeState R × Nat) := do
  let updates ← phase.mapM (evaluate pool seed sn.1)
  updates.foldlM commit sn

/-- A phase in which each proposal is carried out before the next one is evaluated. -/
@[specialize]
def sequentialPhase (pool : Pool R) (seed : UInt64) (sn : LatticeState R × Nat)
    (phase : List Link) : Checked (LatticeState R × Nat) :=
  phase.foldlM (fun sn k => do commit sn (← evaluate pool seed sn.1 k)) sn

/-- A phase carried out in one of the two ways. -/
@[specialize]
def runPhase (pool : Pool R) (seed : UInt64) : Execution → LatticeState R × Nat → List Link →
    Checked (LatticeState R × Nat)
  | .parallel => parallelPhase pool seed
  | .sequential => sequentialPhase pool seed

/-- All phases of a sweep with a given word: the state after them and the number of accepted
proposals. -/
@[specialize]
def sweepWith (pool : Pool R) (e : Execution) (seed : UInt64) (s : LatticeState R) :
    Checked (LatticeState R × Nat) := do
  (← s.lattice.phases).foldlM (runPhase pool seed (s.lattice.allowed e)) (s, 0)

end

/-! ### The Markov chain -/

/-- An engine and the state it works on. -/
structure Chain (R G : Type) where
  engine : Engine R G
  state : LatticeState R

/-- What a sweep did: how its phases were carried out, the number of accepted proposals and their
share of all links. -/
structure SweepReport (R : Type) where
  execution : Execution
  accepted : Nat
  rate : R
deriving DecidableEq

namespace Chain

variable {R G : Type} [WordSource G] [Zero R] [One R] [Add R] [Sub R] [Mul R] [Neg R] [Div R]
  [NatCast R] [Acceptance R]

/-- A draw from the source of the engine. -/
def draw {α : Type} (d : Draw G α) : EStateM Fault (Chain R G) α := fun c =>
  match d c.engine.source with
  | .ok a source => .ok a { c with engine := { c.engine with source := source } }
  | .error fault source => .error fault { c with engine := { c.engine with source := source } }

/-- A checked computation on the chain as it is. -/
def checked {α : Type} (f : Chain R G → Checked α) : EStateM Fault (Chain R G) α := fun c =>
  match f c with
  | .ok a => .ok a c
  | .error fault => .error fault c

/-- A proposal for a link, with random words from the engine; nothing is carried out. -/
@[specialize]
def propose (k : Link) : EStateM Fault (Chain R G) (LinkUpdate R) := do
  let c ← get
  draw (PureGauge.propose c.engine.pool c.state k)

/-- A proposal for a link, carried out if it is accepted. -/
@[specialize]
def updateLink (k : Link) : EStateM Fault (Chain R G) (LinkUpdate R) := do
  let update ← propose k
  if update.accepted then
    let state ← checked fun c => c.state.setLink k update.proposed
    modify fun c => { c with state := state }
  return update

/-- A sweep over all links. -/
@[specialize]
def sweep : EStateM Fault (Chain R G) (SweepReport R) := do
  let seed ← draw Draw.word
  let (state, accepted) ← checked fun c => sweepWith c.engine.pool c.engine.execution seed c.state
  let links ← checked fun c => c.state.lattice.linkCount
  let rate : R := (accepted : R) / (links : R)
  modify fun c =>
    { engine := { c.engine with accepted := accepted, rate := rate }, state := state }
  let c ← get
  return ⟨c.state.lattice.allowed c.engine.execution, accepted, rate⟩

/-- The engine set to another execution. -/
def setExecution (c : Chain R G) (e : Execution) : Chain R G :=
  { c with engine := { c.engine with execution := e } }

end Chain

end PureGauge
