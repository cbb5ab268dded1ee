/-
**Whole runs under the two executions.**

What is done with a simulation is a list of operations.  Each of them answers or stops with a fault,
and the next one finds the session as the one before has left it.  Whatever the list is, the two
executions give the same answers and the same faults, and they leave the same links, the same
counters and the same source of random words: all that tells them apart is the execution that the
engine is set to and that the journal names.

Main definitions:

* `PureGauge.Operation` — the operations, with `PureGauge.Operation.run`;
* `PureGauge.Operation.runAll` — a list of operations, one after the other.

Main results:

* `PureGauge.Operation.runAll_twin` — operations on a session and its twin;
* `PureGauge.Operation.runAll_withExecution` — the two executions are indistinguishable.
-/
import PureGauge.Proofs.Simulation.Twins

namespace PureGauge

/-- What can be done with a simulation. -/
inductive Operation where
  /-- A single sweep. -/
  | sweep
  /-- So many sweeps without a measurement. -/
  | thermalise (sweeps : ℕ)
  /-- All measurements of the protocol. -/
  | sample
  /-- Another period of normalisation, or none. -/
  | setPeriod (period : Option Period)
  /-- A projection of all links. -/
  | normalise

/-- The session with its engine set to another execution. -/
def Session.withExecution {R G : Type} (s : Session R G) (e : Execution) : Session R G :=
  { s with simulation := s.simulation.withExecution e }

namespace Operation

variable {R G : Type} [WordSource G] [Zero R] [One R] [Add R] [Sub R] [Mul R] [Neg R] [Div R]
  [NatCast R] [LE R] [DecidableLE R] [RealFunctions R] [Acceptance R]

/-- An operation on a session; its answer is the list of the averages that it has measured. -/
def run : Operation → Run R G (List R)
  | sweep => do
      Run.sweep
      return []
  | thermalise n => do
      Run.thermalise n
      return []
  | sample => Run.sample
  | setPeriod period => do
      Run.change fun s => { s with period := period }
      return []
  | normalise => do
      Run.change Simulation.normalised
      return []

/-- Operations one after the other: the answer or the fault of each, and the session that is left.
An operation that stops does not keep the next one from being carried out. -/
def runAll : List Operation → Session R G → List (Except Fault (List R)) × Session R G
  | [], s => ([], s)
  | op :: ops, s =>
      match op.run s with
      | .ok samples s' => (.ok samples :: (runAll ops s').1, (runAll ops s').2)
      | .error fault s' => (.error fault :: (runAll ops s').1, (runAll ops s').2)

variable {e : Execution}

/-- Every operation is carried out alike in a session and its twin. -/
theorem alike_run (op : Operation) : Run.Alike (R := R) (G := G) e Eq op.run op.run := by
  cases op with
  | sweep => exact Run.alike_bind Run.alike_sweep fun _ _ _ => Run.alike_pure rfl
  | thermalise n => exact Run.alike_bind (Run.alike_thermalise n) fun _ _ _ => Run.alike_pure rfl
  | sample => exact Run.alike_sample
  | setPeriod period =>
      refine Run.alike_bind (Run.alike_change (fun _ => rfl) fun _ hs => ?_)
        fun _ _ _ => Run.alike_pure rfl
      exact ⟨hs.complete, hs.pool_pos⟩
  | normalise =>
      exact Run.alike_bind (Run.alike_change (fun _ => rfl) fun _ hs => hs.normalised)
        fun _ _ _ => Run.alike_pure rfl

/-- Operations on a session and its twin have the same answers and leave a session and its twin. -/
theorem runAll_twin (ops : List Operation) {s t : Session R G} (hst : Session.Twin e s t) :
    (runAll ops t).1 = (runAll ops s).1 ∧ Session.Twin e (runAll ops s).2 (runAll ops t).2 := by
  induction ops generalizing s t with
  | nil => exact ⟨rfl, hst⟩
  | cons op ops ih =>
      have hfirst := alike_run op s t hst
      rw [runAll, runAll]
      generalize op.run s = r at hfirst
      generalize op.run t = r' at hfirst
      cases hfirst with
      | ok hab hst' =>
          obtain ⟨hanswers, htwin⟩ := ih hst'
          exact ⟨by simp only [hab, hanswers], htwin⟩
      | error hst' =>
          obtain ⟨hanswers, htwin⟩ := ih hst'
          exact ⟨by simp only [hanswers], htwin⟩

/-- **The two executions are indistinguishable.**  From a complete state with a nonempty pool,
whatever is done with the simulation, the answers are the same, the simulations that are left differ
in nothing but the execution their engines are set to, and the journals in nothing but the execution
they name. -/
theorem runAll_withExecution {s : Session R G} (h : s.simulation.chain.Ready)
    (ops : List Operation) :
    (runAll ops (s.withExecution .sequential)).1 = (runAll ops (s.withExecution .parallel)).1 ∧
      (runAll ops (s.withExecution .sequential)).2.simulation =
        (runAll ops (s.withExecution .parallel)).2.simulation.withExecution .sequential ∧
      (runAll ops (s.withExecution .sequential)).2.journal.map Event.unmarked =
        (runAll ops (s.withExecution .parallel)).2.journal.map Event.unmarked := by
  have htwin : Session.Twin .sequential (s.withExecution .parallel) (s.withExecution .sequential) :=
    ⟨rfl, rfl, h.complete, h.pool_pos⟩
  obtain ⟨hanswers, hleft⟩ := runAll_twin ops htwin
  exact ⟨hanswers, hleft.simulation_eq, hleft.journal_eq⟩

/-- A cold simulation on the smallest lattice with a checkerboard, whose pool holds one matrix. -/
def coldSession : Session Float Xoshiro :=
  ⟨.ofParts ⟨⟨2⟩, 5.5, ⟨Array.replicate 64 1⟩⟩ (.ofPool ⟨#[1], .standard⟩ (Xoshiro.ofSeed 7)) 2 3,
    #[]⟩

theorem runAll_coldSession :
    (runAll [.thermalise 2, .setPeriod (some ⟨1, Nat.one_pos⟩), .sample, .normalise, .sweep]
        (coldSession.withExecution .sequential)).1 =
      (runAll [.thermalise 2, .setPeriod (some ⟨1, Nat.one_pos⟩), .sample, .normalise, .sweep]
        (coldSession.withExecution .parallel)).1 :=
  (runAll_withExecution (s := coldSession) ⟨⟨by decide, by decide, by decide⟩, by decide⟩
    [.thermalise 2, .setPeriod (some ⟨1, Nat.one_pos⟩), .sample, .normalise, .sweep]).1

end Operation

end PureGauge
