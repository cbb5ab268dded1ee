/-
**Runs on special unitary matrices.**

The matrices of a simulation are multiplied with matrices of the pool, and from time to time they
are projected onto the special unitary ones.  If all of them and all of the pool are special unitary
to begin with, then those of the links stay so, whatever is done with the simulation or with its
chain alone, and no projection changes any of them.  It makes no difference then when the links are
projected, or whether they are at all: a run has the same answers and the same faults as the run
without the projections, and both leave the same session, apart from the period of normalisation.

Main definitions:

* `PureGauge.Activity` — what can be done with a simulation or with its chain alone;
* `PureGauge.Activity.runAll`, `PureGauge.Activity.answers` — a list of activities, and the answers
  of those that do more than project;
* `PureGauge.Activity.plain` — the activities without the projections.

Main results:

* `PureGauge.Activity.runAll_map_operation` — operations alone are carried out as in
  `PureGauge.Operation.runAll`;
* `PureGauge.Activity.steady_run` — the activities that do more than project are steady;
* `PureGauge.Activity.runAll_plain` — a run and the run without the projections;
* `PureGauge.Activity.runAll_specialUnitary` — the matrices stay special unitary, and the
  projections change nothing.
-/
import PureGauge.Proofs.SU3.Special
import PureGauge.Proofs.Simulation.Operations
import PureGauge.Proofs.Simulation.Periods
import PureGauge.Proofs.Sweep.Reversal

namespace PureGauge

/-- What can be done with a simulation or with its chain alone. -/
inductive Activity where
  /-- An operation of the simulation. -/
  | operation (op : Operation)
  /-- A call on the chain, of which the simulation keeps no count. -/
  | call (call : Call)

namespace Activity

/-- Whether the activity is a projection of the links, or says after how many sweeps there is
one. -/
def projects : Activity → Bool
  | operation (.setPeriod _) => true
  | operation .normalise => true
  | _ => false

/-- The activities without the projections. -/
def plain (as : List Activity) : List Activity := as.filter fun a => !a.projects

theorem plain_cons_of_projects {a : Activity} (ha : a.projects = true) (as : List Activity) :
    plain (a :: as) = plain as :=
  List.filter_cons_of_neg (by simp [ha])

theorem plain_cons {a : Activity} (ha : a.projects = false) (as : List Activity) :
    plain (a :: as) = a :: plain as :=
  List.filter_cons_of_pos (by simp [ha])

section

variable {R G : Type} [WordSource G] [Zero R] [One R] [Add R] [Sub R] [Mul R] [Neg R] [Div R]
  [NatCast R] [LE R] [DecidableLE R] [RealFunctions R] [Acceptance R]

/-- An activity in a session; its answer is the list of the averages that it has measured. -/
def run : Activity → Run R G (List R)
  | operation op => op.run
  | call c => do
      Run.onChain c.run
      return []

/-- Activities one after the other: the answer or the fault of each, and the session that is left.
An activity that stops does not keep the next one from being carried out. -/
def runAll : List Activity → Session R G → List (Except Fault (List R)) × Session R G
  | [], s => ([], s)
  | a :: as, s =>
      (answerOf (a.run s) :: (runAll as (stateLeft (a.run s))).1,
        (runAll as (stateLeft (a.run s))).2)

/-- The answers and faults of the activities that do more than project. -/
def answers (as : List Activity) (s : Session R G) : List (Except Fault (List R)) :=
  ((as.zip (runAll as s).1).filter fun answered => !answered.1.projects).map Prod.snd

theorem answers_cons_of_projects {a : Activity} (ha : a.projects = true) (as : List Activity)
    (s : Session R G) : answers (a :: as) s = answers as (stateLeft (a.run s)) := by
  rw [answers, runAll, List.zip_cons_cons, List.filter_cons_of_neg (by simp [ha])]
  rfl

theorem answers_cons {a : Activity} (ha : a.projects = false) (as : List Activity)
    (s : Session R G) :
    answers (a :: as) s = answerOf (a.run s) :: answers as (stateLeft (a.run s)) := by
  rw [answers, runAll, List.zip_cons_cons, List.filter_cons_of_pos (by simp [ha])]
  rfl

/-- Operations alone are carried out as a list of operations is. -/
theorem runAll_map_operation (ops : List Operation) (s : Session R G) :
    runAll (ops.map operation) s = Operation.runAll ops s := by
  induction ops generalizing s with
  | nil => rfl
  | cons op ops ih =>
      rw [List.map_cons, runAll, Operation.runAll]
      change (answerOf (op.run s) :: _, _) = _
      cases hop : op.run s with
      | ok samples t => rw [run, hop, stateLeft, ih, answerOf]
      | error fault t => rw [run, hop, stateLeft, ih, answerOf]

/-! ### One activity -/

variable {P : Mat3 R → Prop}

/-- The activities that do more than project keep the property and do not depend on the period. -/
theorem steady_run (hP : ∀ m, P m → m.orthonormalised = m) {a : Activity}
    (ha : a.projects = false) :
    Run.Steady P (a.run : Run R G (List R)) := by
  cases a with
  | operation op =>
      cases op with
      | sweep => exact Run.steady_bind (Run.steady_sweep hP) fun _ => Run.steady_pure []
      | thermalise n =>
          exact Run.steady_bind (Run.steady_thermalise hP n) fun _ => Run.steady_pure []
      | sample => exact Run.steady_sample hP
      | setPeriod period => cases ha
      | normalise => cases ha
  | call c =>
      refine Run.steady_bind (Run.steady_onChain fun d hd => ?_) fun _ => Run.steady_pure []
      exact hd.call c

/-- The others change nothing but the period. -/
theorem stateLeft_run_of_projects (hP : ∀ m, P m → m.orthonormalised = m) {a : Activity}
    (ha : a.projects = true) {s : Session R G} (hs : s.All P) :
    (stateLeft (a.run s)).All P ∧ (stateLeft (a.run s)).withPeriod none = s.withPeriod none := by
  cases a with
  | operation op =>
      cases op with
      | setPeriod period => exact ⟨hs, rfl⟩
      | normalise =>
          have hleft : stateLeft ((operation .normalise).run s) = s := by
            change ({ s with simulation := s.simulation.normalised } : Session R G) = s
            rw [Simulation.normalised_eq hP hs]
          rw [hleft]
          exact ⟨hs, rfl⟩
      | sweep => cases ha
      | thermalise n => cases ha
      | sample => cases ha
  | call c => cases ha

/-! ### Runs -/

/-- A run keeps the property, and it is the run without the projections as far as these can be told
apart. -/
theorem runAll_plain (hP : ∀ m, P m → m.orthonormalised = m) (as : List Activity) {s : Session R G}
    (hs : s.All P) :
    (runAll as s).2.All P ∧ answers as s = (runAll (plain as) (s.withPeriod none)).1 ∧
      (runAll as s).2.withPeriod none = (runAll (plain as) (s.withPeriod none)).2 := by
  induction as generalizing s with
  | nil => exact ⟨hs, rfl, rfl⟩
  | cons a as ih =>
      cases ha : a.projects with
      | true =>
          obtain ⟨hall, hperiod⟩ := stateLeft_run_of_projects hP ha hs
          obtain ⟨hleft, hanswers, hsession⟩ := ih hall
          rw [hperiod] at hanswers hsession
          rw [plain_cons_of_projects ha, answers_cons_of_projects ha]
          exact ⟨hleft, hanswers, hsession⟩
      | false =>
          have hsteady : Run.Steady P (a.run : Run R G (List R)) := steady_run hP ha
          obtain ⟨hleft, hanswers, hsession⟩ := ih (hsteady.all s hs)
          rw [plain_cons ha, answers_cons ha, runAll, runAll, hsteady.withPeriod s hs,
            stateLeft_mapLeft, answerOf_mapLeft, hanswers, hsession]
          exact ⟨hleft, rfl, rfl⟩

end

/-- **The matrices stay special unitary, and projecting them changes nothing.**  Let the root of one
be one, and let the matrices of all links and of the pool be special unitary.  Whatever is done with
the simulation and its chain, with faults or without, the matrices that are left are special
unitary, and a projection of them leaves the simulation as it is; since a sweep of the chain alone
may come last, this goes also for the projections that are due within a sweep.  Any other run that
differs in the projections only, be it in when they are called for or in the period of
normalisation, has the same answers and leaves the same session, apart from the period. -/
theorem runAll_specialUnitary {F G : Type} [Field F] [LE F] [DecidableLE F] [RealFunctions F]
    [Acceptance F] [WordSource G] (hroot : RealFunctions.sqrt (1 : F) = 1) {s : Session F G}
    (hlinks : ∀ m ∈ s.simulation.links, m.IsSpecialUnitary)
    (hpool : ∀ m ∈ s.simulation.chain.engine.pool.matrices, m.IsSpecialUnitary)
    (as : List Activity) :
    (∀ m ∈ (runAll as s).2.simulation.links, m.IsSpecialUnitary) ∧
      (runAll as s).2.simulation.normalised = (runAll as s).2.simulation ∧
      ∀ as' p, plain as' = plain as →
        answers as' (s.withPeriod p) = answers as s ∧
          (runAll as' (s.withPeriod p)).2.withPeriod none = (runAll as s).2.withPeriod none := by
  have hP : ∀ m : Mat3 F, m.IsSpecialUnitary → m.orthonormalised = m :=
    fun m hm => hm.orthonormalised_eq hroot
  have hs : s.All Mat3.IsSpecialUnitary := ⟨hlinks, fun m hm k hk => hm.mul (hpool k hk)⟩
  obtain ⟨hleft, hanswers, hsession⟩ := runAll_plain hP as hs
  refine ⟨hleft.links, Simulation.normalised_eq hP hleft, fun as' p hplain => ?_⟩
  obtain ⟨-, hanswers', hsession'⟩ := runAll_plain hP as' (s := s.withPeriod p) hs
  rw [hplain] at hanswers' hsession'
  exact ⟨hanswers'.trans hanswers.symm, hsession'.trans hsession.symm⟩

/-- A cold simulation over the rational numbers whose pool holds one matrix. -/
def turnSession : Session ℚ Tape := ⟨.ofParts coldState (.ofPool turnPool halfTape) 1 2, #[]⟩

/-- Measurements, an update of a link and a sweep of the chain. -/
def turnRun : List Activity :=
  [.operation .sample, .call (.updateLink ⟨.origin, .along 3⟩), .call .sweep]

/-- The same with projections in between. -/
def projectedTurnRun : List Activity :=
  [.operation .normalise, .operation .sample, .call (.updateLink ⟨.origin, .along 3⟩),
    .operation (.setPeriod none), .operation .normalise, .call .sweep]

theorem runAll_turnSession :
    (∀ m ∈ (runAll turnRun turnSession).2.simulation.links, m.IsSpecialUnitary) ∧
      answers projectedTurnRun (turnSession.withPeriod (some ⟨1, Nat.one_pos⟩)) =
        answers turnRun turnSession := by
  have hroot : RealFunctions.sqrt (1 : ℚ) = 1 := by decide +kernel
  have hone : (1 : Mat3 ℚ).IsSpecialUnitary := by decide +kernel
  have hturn : (Mat3.diagonal ⟨⟨0, 1⟩, ⟨0, -1⟩, 1⟩ : Mat3 ℚ).IsSpecialUnitary := by decide +kernel
  have hlinks : ∀ m ∈ turnSession.simulation.links, m.IsSpecialUnitary := by
    intro m hm
    obtain ⟨-, rfl⟩ : _ ∧ m = 1 := Array.mem_replicate.1 hm
    exact hone
  have hpool : ∀ m ∈ turnSession.simulation.chain.engine.pool.matrices, m.IsSpecialUnitary := by
    intro m hm
    rw [Array.mem_singleton.1 hm]
    exact hturn
  obtain ⟨hleft, -, hperiods⟩ := runAll_specialUnitary hroot hlinks hpool turnRun
  obtain ⟨hanswers, -⟩ := hperiods projectedTurnRun (some ⟨1, Nat.one_pos⟩) rfl
  exact ⟨hleft, hanswers⟩

end Activity

end PureGauge
