/-
**Sessions that differ in the execution only.**

The twin of a session is what it becomes when its engine is set to another execution, apart from the
name of the execution that their journals note with each sweep.  An operation that is carried out in
twin sessions answers the same or stops with the same fault, and leaves twins again.  The relation
between two operations that says so goes through chains of operations step by step, so that it is
shown for the sweep and then holds of whatever is made of sweeps.

Main definitions:

* `PureGauge.Session.Twin` — a session and its twin;
* `PureGauge.Run.Alike` — operations that answer alike in a session and its twin and leave twins.

Main results:

* `PureGauge.Chain.sweep_setExecution` — what a sweep does with another execution;
* `PureGauge.Run.alike_bind` — chains of operations;
* `PureGauge.Run.alike_sweep`, `PureGauge.Run.alike_thermalise`, `PureGauge.Run.alike_sample` — the
  operations of a simulation.
-/
import PureGauge.Simulation.Basic
import PureGauge.Proofs.Sweep.Executions

namespace PureGauge

variable {R G α β γ δ : Type}

/-! ### Twins -/

/-- The simulation with its engine set to another execution. -/
def Simulation.withExecution (s : Simulation R G) (e : Execution) : Simulation R G :=
  { s with chain := s.chain.setExecution e }

/-- The event without the name of the execution. -/
def Event.unmarked : Event R → Event R
  | swept report => swept { report with execution := .sequential }
  | e => e

/-- A complete state and a pool to propose from. -/
structure Chain.Ready (c : Chain R G) : Prop where
  complete : c.state.Complete
  pool_pos : 0 < c.engine.pool.matrices.size

/-- A session and its twin with execution `e`: they differ in the execution of the engine only, and
in the executions that their journals name. -/
structure Session.Twin (e : Execution) (s t : Session R G) : Prop where
  simulation_eq : t.simulation = s.simulation.withExecution e
  journal_eq : t.journal.map Event.unmarked = s.journal.map Event.unmarked
  ready : s.simulation.chain.Ready

/-- Results that are alike: both are answers, which are related, or both are the same fault, and the
sessions are twins. -/
inductive Session.Alike (e : Execution) (Q : α → β → Prop) :
    EStateM.Result Fault (Session R G) α → EStateM.Result Fault (Session R G) β → Prop where
  | ok {a : α} {b : β} {s t : Session R G} (hab : Q a b) (hst : Session.Twin e s t) :
      Alike e Q (.ok a s) (.ok b t)
  | error {fault : Fault} {s t : Session R G} (hst : Session.Twin e s t) :
      Alike e Q (.error fault s) (.error fault t)

namespace Run

/-- Operations that answer alike in a session and its twin, and leave a session and its twin. -/
def Alike (e : Execution) (Q : α → β → Prop) (x : Run R G α) (y : Run R G β) : Prop :=
  ∀ s t : Session R G, Session.Twin e s t → Session.Alike e Q (x s) (y t)

variable {e : Execution} {P : γ → δ → Prop} {Q : α → β → Prop}

theorem alike_pure {a : α} {b : β} (h : Q a b) :
    Alike e Q (pure a : Run R G α) (pure b : Run R G β) :=
  fun _ _ hst => .ok h hst

/-- Chains of operations that are alike are alike. -/
theorem alike_bind {x : Run R G α} {y : Run R G β} {f : α → Run R G γ} {g : β → Run R G δ}
    (hxy : Alike e Q x y) (hfg : ∀ a b, Q a b → Alike e P (f a) (g b)) :
    Alike e P (x >>= f) (y >>= g) := by
  intro s t hst
  change Session.Alike e P (EStateM.bind x f s) (EStateM.bind y g t)
  rw [EStateM.bind, EStateM.bind]
  have hfirst := hxy s t hst
  generalize x s = r at hfirst
  generalize y t = r' at hfirst
  cases hfirst with
  | ok hab hst' => exact hfg _ _ hab _ _ hst'
  | error hst' => exact .error hst'

theorem alike_get : Alike e (Session.Twin e) (get : Run R G (Session R G)) get :=
  fun _ _ hst => .ok hst hst

/-- Events that agree up to the execution they name are noted alike. -/
theorem alike_note {a b : Event R} (h : b.unmarked = a.unmarked) :
    Alike (R := R) (G := G) e Eq (note a) (note b) := by
  intro s t hst
  refine .ok rfl ⟨hst.simulation_eq, ?_, hst.ready⟩
  simp [Array.map_push, hst.journal_eq, h]

/-- A change of the simulation that does not look at the execution. -/
theorem alike_change {f : Simulation R G → Simulation R G}
    (hf : ∀ s, f (s.withExecution e) = (f s).withExecution e)
    (hready : ∀ s, s.chain.Ready → (f s).chain.Ready) :
    Alike e Eq (change f) (change f) := by
  intro s t hst
  exact .ok rfl ⟨(congrArg f hst.simulation_eq).trans (hf _), hst.journal_eq, hready _ hst.ready⟩

/-- A checked computation that does not look at the execution. -/
theorem alike_checked {f : Simulation R G → Checked α}
    (hf : ∀ s, f (s.withExecution e) = f s) : Alike e Eq (checked f) (checked f) := by
  intro s t hst
  have hfst : f t.simulation = f s.simulation := by rw [hst.simulation_eq, hf]
  simp only [checked, hfst]
  cases f s.simulation with
  | ok a => exact .ok rfl hst
  | error fault => exact .error hst

end Run

/-! ### Sweeps -/

variable [WordSource G] [Zero R] [One R] [Add R] [Sub R] [Mul R] [Neg R] [Div R] [NatCast R]

section

/-- The chain after a sweep that took its word from a source, with the state and the number of
accepted proposals that it has left and the number of links. -/
def Chain.swept (c : Chain R G) (source : G) (outcome : (LatticeState R × ℕ) × ℕ) : Chain R G :=
  ⟨{ c.engine with
      source := source, accepted := outcome.1.2, rate := (outcome.1.2 : R) / (outcome.2 : R) },
    outcome.1.1⟩

end

variable [Acceptance R]

/-- What a sweep with a given word computes: the phases, and then the number of links. -/
def Chain.outcome (c : Chain R G) (seed : UInt64) : Checked ((LatticeState R × ℕ) × ℕ) := do
  let sn ← sweepWith c.engine.pool c.engine.execution seed c.state
  return (sn, ← c.state.lattice.linkCount)

/-- A sweep takes a word, and then it either stops before it has changed anything else, or leaves
its outcome. -/
theorem Chain.sweep_apply (c : Chain R G) :
    Chain.sweep c =
      match WordSource.next c.engine.source with
      | .error fault => .error fault c
      | .ok (seed, source) =>
          match c.outcome seed with
          | .error fault => .error fault { c with engine := { c.engine with source := source } }
          | .ok outcome =>
              .ok ⟨outcome.1.1.lattice.allowed c.engine.execution, outcome.1.2,
                (outcome.1.2 : R) / (outcome.2 : R)⟩ (c.swept source outcome) := by
  simp only [Chain.sweep, Chain.outcome, bind, EStateM.bind, Except.bind, Chain.draw, Draw.word,
    Chain.checked]
  cases WordSource.next c.engine.source with
  | error fault => rfl
  | ok drawn =>
      cases hsn : sweepWith c.engine.pool c.engine.execution drawn.1 c.state with
      | error fault => simp only [hsn]
      | ok sn =>
          cases hlinks : c.state.lattice.linkCount with
          | error fault => simp only [hsn, hlinks]
          | ok links =>
              simp only [hsn, hlinks]
              rfl

/-- A sweep leaves a chain that is ready for the next one, also when it stops. -/
theorem Chain.Ready.sweep {c : Chain R G} (h : c.Ready) :
    (∃ report c', Chain.sweep c = .ok report c' ∧ c'.Ready) ∨
      ∃ fault c', Chain.sweep c = .error fault c' ∧ c'.Ready := by
  rw [Chain.sweep_apply]
  cases WordSource.next c.engine.source with
  | error fault => exact Or.inr ⟨fault, c, rfl, h⟩
  | ok drawn =>
      cases houtcome : c.outcome drawn.1 with
      | error fault =>
          simp only [houtcome]
          exact Or.inr ⟨fault, _, rfl, h.complete, h.pool_pos⟩
      | ok outcome =>
          obtain ⟨sn, hsn, hlinks⟩ := Checked.bind_eq_ok_iff.1 houtcome
          obtain ⟨links, -, rfl⟩ : ∃ links, c.state.lattice.linkCount = .ok links ∧
              (sn, links) = outcome := by
            simpa [Checked.bind_eq_ok_iff] using hlinks
          simp only [houtcome]
          exact Or.inl ⟨_, _, rfl, (sameShape_of_sweepWith hsn).complete h.complete, h.pool_pos⟩

/-- With another execution a sweep does the same, and its report names the execution that the
lattice allows. -/
theorem Chain.Ready.sweep_setExecution {c : Chain R G} (h : c.Ready) (e : Execution) :
    Chain.sweep (c.setExecution e) =
      match Chain.sweep c with
      | .ok report c' =>
          .ok { report with execution := c'.state.lattice.allowed e } (c'.setExecution e)
      | .error fault c' => .error fault (c'.setExecution e) := by
  -- the execution enters in the phases only, and there it makes no difference
  have houtcome : (c.setExecution e).outcome = c.outcome := by
    funext seed
    rw [Chain.outcome, Chain.outcome, ← h.complete.sweepWith_eq h.pool_pos seed e]
    rfl
  have hsource : (c.setExecution e).engine.source = c.engine.source := rfl
  rw [Chain.sweep_apply, Chain.sweep_apply, houtcome, hsource]
  cases WordSource.next c.engine.source with
  | error fault => rfl
  | ok drawn =>
      cases hdrawn : c.outcome drawn.1 with
      | error fault =>
          simp only [hdrawn]
          rfl
      | ok outcome =>
          simp only [hdrawn]
          rfl

namespace Run

variable {e : Execution}

/-- Sweeps of twins are alike, and their reports agree up to the execution. -/
theorem alike_onChain_sweep :
    Alike (R := R) (G := G) e (fun r r' => Event.unmarked (.swept r') = Event.unmarked (.swept r))
      (onChain Chain.sweep) (onChain Chain.sweep) := by
  intro s t hst
  have hchain : t.simulation.chain = s.simulation.chain.setExecution e := by
    rw [hst.simulation_eq]
    rfl
  simp only [onChain, hchain, hst.ready.sweep_setExecution e]
  rcases hst.ready.sweep with ⟨report, c, hsweep, hc⟩ | ⟨fault, c, hsweep, hc⟩
  · rw [hsweep]
    exact .ok rfl ⟨by rw [hst.simulation_eq]; rfl, hst.journal_eq, hc⟩
  · rw [hsweep]
    exact .error ⟨by rw [hst.simulation_eq]; rfl, hst.journal_eq, hc⟩

end Run

/-! ### Operations -/

section

omit [WordSource G] [Zero R] [One R] [NatCast R]

variable [LE R] [DecidableLE R] [RealFunctions R]

omit [Acceptance R] in
/-- Projecting the links keeps their number. -/
theorem Chain.Ready.normalised {s : Simulation R G} (h : s.chain.Ready) :
    s.normalised.chain.Ready where
  complete := by
    refine ⟨h.complete.dim_pos, h.complete.links_lt, ?_⟩
    have hsize : s.chain.state.links.normalised.size = s.chain.state.links.size :=
      Array.size_map
    exact hsize.trans h.complete.size_eq
  pool_pos := h.pool_pos

end

namespace Run

variable {e : Execution} [LE R] [DecidableLE R] [RealFunctions R]

theorem alike_sweep : Alike (R := R) (G := G) e Eq sweep sweep := by
  refine alike_bind alike_onChain_sweep fun r r' hr => ?_
  refine alike_bind (alike_note hr) fun _ _ _ => ?_
  refine alike_bind (alike_checked fun _ => rfl) ?_
  rintro sweeps _ rfl
  refine alike_bind (alike_change (fun _ => rfl) fun _ hs => ⟨hs.complete, hs.pool_pos⟩)
    fun _ _ _ => ?_
  refine alike_change (fun s => ?_) fun s hs => ?_
  · -- twins have made the same number of sweeps, so that both are normalised or neither
    have hdue : (s.withExecution e).normalisationDue = s.normalisationDue := rfl
    rw [hdue]
    split
    · rfl
    · rfl
  · split
    · exact hs.normalised
    · exact hs

theorem alike_sweepTimes (n : ℕ) :
    Alike (R := R) (G := G) e Eq (sweepTimes n) (sweepTimes n) := by
  induction n with
  | zero => exact alike_pure rfl
  | succ n ih => exact alike_bind alike_sweep fun _ _ _ => ih

theorem alike_thermalise (n : ℕ) :
    Alike (R := R) (G := G) e Eq (thermalise n) (thermalise n) := by
  refine alike_bind (alike_sweepTimes n) fun _ _ _ => ?_
  refine alike_bind (alike_checked fun _ => rfl) ?_
  rintro average _ rfl
  exact alike_note rfl

/-- Measurements in twins are alike if what a visitor does in between is. -/
theorem alike_measureFrom {visit : ℕ → Run R G β} (hvisit : ∀ i, Alike e Eq (visit i) (visit i))
    (total index left : ℕ) :
    Alike e Eq (measureFrom visit total index left) (measureFrom visit total index left) := by
  induction left generalizing index with
  | zero => exact alike_pure rfl
  | succ left ih =>
      -- the number of sweeps between measurements is read from the session, and twins agree on it
      refine alike_bind alike_get fun s t hst => ?_
      rw [hst.simulation_eq]
      refine alike_bind (alike_sweepTimes _) fun _ _ _ => ?_
      refine alike_bind (alike_checked fun _ => rfl) ?_
      rintro average _ rfl
      refine alike_bind alike_get fun s t hst => ?_
      rw [hst.simulation_eq]
      refine alike_bind (alike_note rfl) fun _ _ _ => ?_
      refine alike_bind (hvisit index) ?_
      rintro found _ rfl
      refine alike_bind (ih (index + 1)) ?_
      rintro rest _ rfl
      exact alike_pure rfl

theorem alike_sampleWith {visit : ℕ → Run R G β} (hvisit : ∀ i, Alike e Eq (visit i) (visit i)) :
    Alike e Eq (sampleWith visit) (sampleWith visit) := by
  refine alike_bind alike_get fun s t hst => ?_
  rw [hst.simulation_eq]
  exact alike_bind (alike_checked fun _ => rfl) fun _ _ _ => alike_measureFrom hvisit _ _ _

theorem alike_sample : Alike (R := R) (G := G) e Eq sample sample := by
  refine alike_bind (alike_sampleWith fun _ => alike_pure rfl) ?_
  rintro found _ rfl
  exact alike_pure rfl

end Run

end PureGauge
