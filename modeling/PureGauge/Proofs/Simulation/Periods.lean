/-
**Operations that do not depend on the period.**

From time to time a simulation projects its links onto the special unitary matrices.  If the
matrices have a property by which the projection leaves them as they are, and which products with
the matrices of the pool inherit, then it does not matter when that is done: an operation on a
session with another period of normalisation answers the same and leaves the same session, apart
from the period.  That an operation keeps the property and is steady in this sense goes through
chains of operations, so that it is shown for single steps and then holds of whatever is made of
them.

Main definitions:

* `PureGauge.Session.withPeriod` — the session with another period of normalisation;
* `PureGauge.Run.Steady` — operations that keep a property of the matrices and do not depend on the
  period.

Main results:

* `PureGauge.Run.steady_bind` — chains of operations;
* `PureGauge.Run.steady_sweep`, `PureGauge.Run.steady_thermalise`, `PureGauge.Run.steady_sample` —
  the operations of a simulation.
-/
import PureGauge.Proofs.Sweep.Closure
import PureGauge.Simulation.Basic

namespace PureGauge

variable {R G α β : Type}

/-- The simulation with another period of normalisation. -/
def Simulation.withPeriod (s : Simulation R G) (p : Option Period) : Simulation R G :=
  { s with period := p }

/-- The session with another period of normalisation. -/
def Session.withPeriod (s : Session R G) (p : Option Period) : Session R G :=
  { s with simulation := s.simulation.withPeriod p }

/-- A result with another state. -/
def mapLeft {ε σ α : Type} (f : σ → σ) : EStateM.Result ε σ α → EStateM.Result ε σ α
  | .ok a s => .ok a (f s)
  | .error e s => .error e (f s)

@[simp] theorem stateLeft_mapLeft {ε σ α : Type} (f : σ → σ) (r : EStateM.Result ε σ α) :
    stateLeft (mapLeft f r) = f (stateLeft r) := by
  cases r <;> rfl

@[simp] theorem answerOf_mapLeft {ε σ α : Type} (f : σ → σ) (r : EStateM.Result ε σ α) :
    answerOf (mapLeft f r) = answerOf r := by
  cases r <;> rfl

section

variable [Zero R] [One R] [Add R] [Sub R] [Mul R]

/-- The matrices of the session have a property, and products with those of its pool inherit it. -/
def Session.All (s : Session R G) (P : Mat3 R → Prop) : Prop := s.simulation.chain.All P

/-- Operations that keep a property of the matrices and do the same with another period. -/
structure Run.Steady (P : Mat3 R → Prop) (x : Run R G α) : Prop where
  all : ∀ s, s.All P → (stateLeft (x s)).All P
  withPeriod : ∀ s, s.All P → ∀ p, x (s.withPeriod p) = mapLeft (·.withPeriod p) (x s)

end

/-- Projecting the links leaves a simulation as it is if it leaves their matrices as they are. -/
theorem Simulation.normalised_eq [Zero R] [One R] [Add R] [Sub R] [Mul R] [Neg R] [Div R] [LE R]
    [DecidableLE R] [RealFunctions R] {P : Mat3 R → Prop} (hP : ∀ m, P m → m.orthonormalised = m)
    {s : Simulation R G} (h : s.chain.All P) : s.normalised = s := by
  have hdata : s.chain.state.links.data.map Mat3.orthonormalised = s.chain.state.links.data := by
    rw [Array.map_congr_left fun m hm => hP m (h.links m hm), Array.map_id']
  have hlinks : s.chain.state.links.normalised = s.chain.state.links :=
    congrArg LinkField.mk hdata
  rw [normalised, LatticeState.normalised, hlinks]

namespace Run

/-! ### Single steps and chains -/

section

variable [Zero R] [One R] [Add R] [Sub R] [Mul R] {P : Mat3 R → Prop}

theorem steady_pure (a : α) : Steady P (pure a : Run R G α) := ⟨fun _ hs => hs, fun _ _ _ => rfl⟩

/-- Chains of steady operations are steady. -/
theorem steady_bind {x : Run R G α} {f : α → Run R G β} (hx : Steady P x)
    (hf : ∀ a, Steady P (f a)) :
    Steady P (x >>= f) where
  all := by
    intro s hs
    change (stateLeft (EStateM.bind x f s)).All P
    have hfirst := hx.all s hs
    rw [EStateM.bind]
    cases hxs : x s with
    | ok a t =>
        rw [hxs] at hfirst
        exact (hf a).all t hfirst
    | error fault t =>
        rw [hxs] at hfirst
        exact hfirst
  withPeriod := by
    intro s hs p
    change EStateM.bind x f (s.withPeriod p) = mapLeft _ (EStateM.bind x f s)
    have hfirst := hx.all s hs
    rw [EStateM.bind, EStateM.bind, hx.withPeriod s hs p]
    cases hxs : x s with
    | ok a t =>
        rw [hxs] at hfirst
        exact (hf a).withPeriod t hfirst p
    | error fault t => rfl

/-- What is read from the session must not be the period. -/
theorem steady_get_bind {f : Session R G → Run R G β} (hread : ∀ s p, f (s.withPeriod p) = f s)
    (hf : ∀ s, Steady P (f s)) : Steady P (get >>= f) where
  all := fun s hs => (hf s).all s hs
  withPeriod := by
    intro s hs p
    change f (s.withPeriod p) (s.withPeriod p) = mapLeft _ (f s s)
    rw [hread, (hf s).withPeriod s hs]

theorem steady_note (e : Event R) : Steady P (note e : Run R G Unit) :=
  ⟨fun _ hs => hs, fun _ _ _ => rfl⟩

theorem steady_checked {f : Simulation R G → Checked α} (hf : ∀ s p, f (s.withPeriod p) = f s) :
    Steady P (checked f) where
  all := by
    intro s hs
    rw [checked]
    cases f s.simulation with
    | ok a => exact hs
    | error fault => exact hs
  withPeriod := by
    intro s hs p
    have hfs : f (s.withPeriod p).simulation = f s.simulation := hf s.simulation p
    rw [checked, checked, hfs]
    cases f s.simulation with
    | ok a => rfl
    | error fault => rfl

theorem steady_change {f : Simulation R G → Simulation R G}
    (hall : ∀ s, s.chain.All P → (f s).chain.All P)
    (hf : ∀ s, s.chain.All P → ∀ p, f (s.withPeriod p) = (f s).withPeriod p) :
    Steady P (change f) where
  all := fun s hs => hall s.simulation hs
  withPeriod := by
    intro s hs p
    change EStateM.Result.ok () { s with simulation := f (s.simulation.withPeriod p) } = _
    rw [hf s.simulation hs]
    rfl

/-- An operation on the chain that keeps the property. -/
theorem steady_onChain {step : EStateM Fault (Chain R G) α}
    (hstep : ∀ c, c.All P → (stateLeft (step c)).All P) : Steady P (onChain step) where
  all := by
    intro s hs
    have hleft := hstep s.simulation.chain hs
    rw [onChain]
    cases hc : step s.simulation.chain with
    | ok a c =>
        rw [hc] at hleft
        exact hleft
    | error fault c =>
        rw [hc] at hleft
        exact hleft
  withPeriod := by
    intro s hs p
    have hchain : (s.withPeriod p).simulation.chain = s.simulation.chain := rfl
    rw [onChain, onChain, hchain]
    cases step s.simulation.chain with
    | ok a c => rfl
    | error fault c => rfl

end

/-! ### Operations -/

variable [WordSource G] [Zero R] [One R] [Add R] [Sub R] [Mul R] [Neg R] [Div R] [NatCast R]
  [LE R] [DecidableLE R] [RealFunctions R] {P : Mat3 R → Prop}

variable [Acceptance R]

theorem steady_sweep (hP : ∀ m, P m → m.orthonormalised = m) : Steady P (sweep : Run R G Unit) := by
  refine steady_bind (steady_onChain fun c hc => hc.sweep) fun report => ?_
  refine steady_bind (steady_note _) fun _ => ?_
  refine steady_bind (steady_checked fun s p => rfl) fun sweeps => ?_
  refine steady_bind (steady_change (fun s hs => hs) fun s hs p => rfl) fun _ => ?_
  have hkept : ∀ s : Simulation R G, s.chain.All P →
      (if s.normalisationDue then s.normalised else s) = s := by
    intro s hs
    rw [Simulation.normalised_eq hP hs, ite_self]
  refine steady_change (fun s hs => ?_) fun s hs p => ?_
  · rwa [hkept s hs]
  · rw [hkept s hs, hkept (s.withPeriod p) hs]

theorem steady_sweepTimes (hP : ∀ m, P m → m.orthonormalised = m) (n : ℕ) :
    Steady P (sweepTimes n : Run R G Unit) := by
  induction n with
  | zero => exact steady_pure ()
  | succ n ih => exact steady_bind (steady_sweep hP) fun _ => ih

theorem steady_thermalise (hP : ∀ m, P m → m.orthonormalised = m) (n : ℕ) :
    Steady P (thermalise n : Run R G Unit) := by
  refine steady_bind (steady_sweepTimes hP n) fun _ => ?_
  exact steady_bind (steady_checked fun s p => rfl) fun average => steady_note _

/-- Measurements are steady if what a visitor does in between is. -/
theorem steady_measureFrom (hP : ∀ m, P m → m.orthonormalised = m) {visit : ℕ → Run R G β}
    (hvisit : ∀ i, Steady P (visit i)) (total index left : ℕ) :
    Steady P (measureFrom visit total index left) := by
  induction left generalizing index with
  | zero => exact steady_pure []
  | succ left ih =>
      refine steady_get_bind (fun s p => rfl) fun s => ?_
      refine steady_bind (steady_sweepTimes hP _) fun _ => ?_
      refine steady_bind (steady_checked fun s p => rfl) fun average => ?_
      refine steady_get_bind (fun s p => rfl) fun s => ?_
      refine steady_bind (steady_note _) fun _ => ?_
      refine steady_bind (hvisit index) fun found => ?_
      exact steady_bind (ih (index + 1)) fun rest => steady_pure _

theorem steady_sampleWith (hP : ∀ m, P m → m.orthonormalised = m) {visit : ℕ → Run R G β}
    (hvisit : ∀ i, Steady P (visit i)) : Steady P (sampleWith visit) := by
  refine steady_get_bind (fun s p => rfl) fun s => ?_
  exact steady_bind (steady_checked fun s p => rfl) fun _ => steady_measureFrom hP hvisit _ _ _

theorem steady_sample (hP : ∀ m, P m → m.orthonormalised = m) :
    Steady P (sample : Run R G (List R)) :=
  steady_bind (steady_sampleWith hP fun _ => steady_pure ()) fun _ => steady_pure _

end Run

end PureGauge
