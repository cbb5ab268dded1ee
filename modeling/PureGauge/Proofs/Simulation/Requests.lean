/-
**Requests do not fail.**

A state made by one of the constructors holds one matrix for each link of its lattice, and a pool
that was made holds at least two matrices.  Whatever is then asked of a simulation or done with it
keeps this, so that no sum, product or number of sweeps leaves the words, no number leaves a buffer
and nothing is divided by zero: every request answers, however many there are.  The one thing that
can keep a run from coming to its end is a source from which no attempt to choose a matrix of the
pool is ever accepted.

Main definitions:

* `PureGauge.LatticeState.Built`, `PureGauge.Pool.Built` — what the constructors make;
* `PureGauge.Simulation.Sound` — what every request keeps;
* `PureGauge.Request` — what can be asked of a simulation or done with it, with
  `PureGauge.Request.runAll`.

Main results:

* `PureGauge.LatticeState.ofField_eq_ok_iff` — the states that are accepted;
* `PureGauge.LatticeState.Built.complete`, `PureGauge.Pool.Built.size_pos` — what is known of them;
* `PureGauge.Simulation.Sound.step_cases`, `PureGauge.Request.run_cases` — one step, and one
  request;
* `PureGauge.Request.runAll_built` — no run fails.
-/
import PureGauge.Proofs.Chain.Stages
import PureGauge.Proofs.Simulation.Steps
import PureGauge.Proofs.State.Queries
import PureGauge.Proofs.Sweep.Reversal

namespace PureGauge

/-! ### What the constructors make -/

section

variable {R : Type} [Zero R] [LT R] [DecidableLT R] [RealFunctions R]

namespace LatticeState

/-- The parts of a state are accepted if the coupling is valid and there is one matrix for each
link. -/
theorem ofField_eq_ok_iff {l : Lattice} {beta : R} {f : LinkField R} {s : LatticeState R} :
    ofField l beta f = .ok (.ok s) ↔
      validBeta beta = true ∧ l.linkCount = .ok f.size ∧ s = ⟨l, beta, f⟩ := by
  unfold ofField
  by_cases hbeta : validBeta beta = true
  · rw [if_neg (not_not.2 hbeta), Checked.bind_eq_ok_iff]
    constructor
    · rintro ⟨count, hcount, hs⟩
      split at hs
      · cases hs
      · rename_i heq
        cases hs
        exact ⟨hbeta, by rw [hcount, not_not.1 heq], rfl⟩
    · rintro ⟨-, hcount, rfl⟩
      exact ⟨f.size, hcount, if_neg (not_not.2 rfl)⟩
  · rw [if_pos hbeta]
    constructor
    · intro h
      cases h
    · rintro ⟨h, -⟩
      exact absurd h hbeta

/-- A state that is started has a field that was drawn for a lattice of the size that was asked for,
and it is made of its parts. -/
theorem exists_ofField_of_start {G : Type} {n : UInt64} {beta : R}
    {field : Lattice → Draw G (LinkField R)} {s : LatticeState R} {g g' : G}
    (h : start n beta field g = .ok (.ok s) g') :
    n ≠ 0 ∧ ∃ f g₁, field ⟨n⟩ g = .ok f g₁ ∧ ofField ⟨n⟩ beta f = .ok (.ok s) := by
  unfold start latticeOfSize Lattice.ofSize? at h
  by_cases hn : n = 0
  · simp only [if_pos hn] at h
    cases h
  · simp only [if_neg hn] at h
    obtain ⟨f, g₁, hf, hs⟩ := Draw.bind_eq_ok_iff.1 h
    exact ⟨hn, f, g₁, hf, (Draw.checked_eq_ok_iff.1 hs).1⟩

variable [One R] [Add R] [Sub R] [Mul R] [Neg R] [Div R] [NatCast R] [BEq R] [LE R] [DecidableLE R]

/-- The states that the constructors make. -/
inductive Built : LatticeState R → Prop where
  | ofField {l : Lattice} {beta : R} {f : LinkField R} {s : LatticeState R} :
      LatticeState.ofField l beta f = .ok (.ok s) → Built s
  | cold {G : Type} {n : UInt64} {beta : R} {s : LatticeState R} {g g' : G} :
      LatticeState.cold n beta g = .ok (.ok s) g' → Built s
  | hot {G : Type} [WordSource G] [NormalDeviate R] {n : UInt64} {beta : R} {s : LatticeState R}
      {g g' : G} :
      LatticeState.hot n beta g = .ok (.ok s) g' → Built s
  | nearUnity {G : Type} [WordSource G] {n : UInt64} {beta : R} {spread : Spread R}
      {s : LatticeState R}
      {g g' : G} : LatticeState.nearUnity n beta spread g = .ok (.ok s) g' → Built s

/-- Every state that is made was accepted. -/
theorem Built.exists_ofField {s : LatticeState R} (h : s.Built) :
    ∃ l beta f, LatticeState.ofField l beta f = .ok (.ok s) := by
  cases h with
  | ofField h => exact ⟨_, _, _, h⟩
  | @cold _ _ beta _ _ _ h =>
      obtain ⟨-, f, -, -, hs⟩ := exists_ofField_of_start h
      exact ⟨_, beta, f, hs⟩
  | @hot _ _ _ _ beta _ _ _ h =>
      obtain ⟨-, f, -, -, hs⟩ := exists_ofField_of_start h
      exact ⟨_, beta, f, hs⟩
  | @nearUnity _ _ _ beta _ _ _ _ h =>
      obtain ⟨-, f, -, -, hs⟩ := exists_ofField_of_start h
      exact ⟨_, beta, f, hs⟩

/-- A state that was made is complete, if its links can be numbered by words. -/
theorem Built.complete {s : LatticeState R} (h : s.Built) (hdim : 1 ≤ s.lattice.dim.toNat)
    (hlinks : 4 * s.lattice.dim.toNat ^ 4 < 2 ^ 64) : s.Complete := by
  obtain ⟨l, beta, f, hs⟩ := h.exists_ofField
  obtain ⟨-, hcount, rfl⟩ := ofField_eq_ok_iff.1 hs
  have hnumbered : l.Numbered l.dim.toNat := ⟨rfl, hlinks⟩
  rw [hnumbered.linkCount_eq, Except.ok.injEq] at hcount
  exact ⟨hdim, hlinks, hcount.symm⟩

end LatticeState

end

section

variable {R : Type} [Zero R] [One R] [Add R] [Sub R] [Mul R] [Neg R] [Div R] [NatCast R] [BEq R]
  [LT R] [DecidableLT R] [RealFunctions R]

/-- The pools that are made. -/
inductive Pool.Built : Pool R → Prop where
  | generate {G : Type} [WordSource G] {pairs : ℕ} {spread : Spread R} {pool : Pool R} {g g' : G} :
      Pool.generate pairs spread g = .ok (some pool) g' → Built pool

/-- A pool that was made is not empty. -/
theorem Pool.Built.size_pos {pool : Pool R} (h : pool.Built) : 0 < pool.matrices.size := by
  cases h with
  | @generate G _ pairs spread _ g g' h =>
      obtain ⟨hpairs, -, made, hmade, rfl⟩ := Pool.generate_eq_some_iff.1 h
      rw [List.size_toArray, length_withAdjoints, Draw.length_of_times hmade]
      omega

end

/-! ### Steps -/

variable {R G : Type}

/-- A simulation with a complete state, whose plaquettes can be counted by words, and a pool to
propose from, which can make so many sweeps more before its count leaves the words. -/
structure Simulation.Sound (s : Simulation R G) (left : ℕ) : Prop where
  ready : s.chain.Ready
  planes_lt : 6 * s.chain.state.lattice.dim.toNat ^ 4 < 2 ^ 64
  sweeps_lt : s.sweeps + left < 2 ^ 64

section

variable [WordSource G] [Zero R] [One R] [Add R] [Sub R] [Mul R] [Neg R] [Div R] [NatCast R]
  [Acceptance R] {c d : Chain R G}

/-- As a call, a sweep keeps its report to itself. -/
theorem Call.run_sweep_eq_ok_iff :
    Call.sweep.run c = .ok () d ↔ ∃ report, c.sweep = .ok report d := by
  change EStateM.bind Chain.sweep (fun _ => pure ()) c = _ ↔ _
  rw [EStateM.bind]
  cases c.sweep with
  | ok report e => simp [pure, EStateM.pure]
  | error fault e => simp

theorem Call.run_sweep_eq_error_iff {fault : Fault} :
    Call.sweep.run c = .error fault d ↔ c.sweep = .error fault d := by
  change EStateM.bind Chain.sweep (fun _ => pure ()) c = _ ↔ _
  rw [EStateM.bind]
  cases c.sweep with
  | ok report e => simp [pure, EStateM.pure]
  | error fault e => simp

end

namespace Simulation.Sound

variable {s : Simulation R G} {n : ℕ}

theorem of_succ (h : s.Sound (n + 1)) : s.Sound n :=
  ⟨h.ready, h.planes_lt, (Nat.lt_succ_self _).trans h.sweeps_lt⟩

/-- A chain with the same setting is as sound. -/
theorem of_sameSetting (h : s.Sound n) {c : Chain R G} (hc : s.chain.SameSetting c) :
    ({ s with chain := c } : Simulation R G).Sound n where
  ready := hc.ready h.ready
  planes_lt := by
    have hlattice : c.state.lattice = s.chain.state.lattice := hc.lattice_eq
    rw [hlattice]
    exact h.planes_lt
  sweeps_lt := h.sweeps_lt

theorem withExecution (h : s.Sound n) (e : Execution) : (s.withExecution e).Sound n :=
  ⟨⟨h.ready.complete, h.ready.pool_pos⟩, h.planes_lt, h.sweeps_lt⟩

variable [WordSource G] [Zero R] [One R] [Add R] [Sub R] [Mul R] [Neg R] [Div R] [NatCast R]
  [Acceptance R]

/-- A call on the chain leaves a sound simulation, unless the source keeps the pool from
choosing. -/
theorem call_cases (h : s.Sound n) (hG : Endless G) {c : Call} (hc : c.Within) :
    (∃ d, c.run s.chain = .ok () d ∧ ({ s with chain := d } : Simulation R G).Sound n) ∨
      (∃ d, c.run s.chain = .error .unsettled d) ∧ c.Starved s.chain := by
  rcases h.ready.stage hG hc with ⟨st, rfl, hbefore, hcarried, hlawful⟩ | hstarved
  · have hrun := hcarried.run_eq
    have hsetting := hlawful.sameSetting
    rw [hbefore] at hrun hsetting
    exact Or.inl ⟨st.after, hrun, h.of_sameSetting hsetting⟩
  · exact Or.inr hstarved

variable [LE R] [DecidableLE R] [RealFunctions R]

omit [WordSource G] [Zero R] [One R] [NatCast R] [Acceptance R] in
theorem normalised (h : s.Sound n) : s.normalised.Sound n :=
  ⟨h.ready.normalised, h.planes_lt, h.sweeps_lt⟩

/-- A step leaves a sound simulation, unless the source keeps the pool from choosing. -/
theorem step_cases (h : s.Sound (n + 1)) (hG : Endless G) :
    (∃ t, s.step = .ok t ∧ t.Sound n) ∨
      s.step = .error .unsettled ∧ Call.sweep.Starved s.chain := by
  rcases h.call_cases hG (c := .sweep) trivial with ⟨d, hrun, hd⟩ | ⟨⟨d, hrun⟩, hstarved⟩
  · obtain ⟨report, hsweep⟩ := Call.run_sweep_eq_ok_iff.1 hrun
    have hlt := h.sweeps_lt
    have hcount : Word.add s.sweeps 1 = .ok (s.sweeps + 1) :=
      Word.add_eq_ok_iff.2 ⟨by rw [show UInt64.size = 2 ^ 64 from rfl]; omega, rfl⟩
    have hswept : ({ s with chain := d, sweeps := s.sweeps + 1 } : Simulation R G).Sound n :=
      ⟨hd.ready, hd.planes_lt, by change s.sweeps + 1 + n < 2 ^ 64; omega⟩
    refine Or.inl ⟨_, by rw [Simulation.step, hsweep]; simp only [hcount]; rfl, ?_⟩
    split
    · exact hswept.normalised
    · exact hswept
  · have hsweep := Call.run_sweep_eq_error_iff.1 hrun
    exact Or.inr ⟨by rw [Simulation.step, hsweep], hstarved⟩

end Simulation.Sound

/-! ### Requests -/

/-- What can be asked of a simulation or done with it. -/
inductive Request (R : Type) where
  /-- A sweep under an execution, which is counted, with a projection of the links if it is due. -/
  | sweep (e : Execution)
  /-- A sweep of the chain or an update of a single link. -/
  | call (c : Call)
  /-- A projection of all links. -/
  | normalise
  /-- A question about the state. -/
  | ask (q : Query R)

namespace Request

/-- Links and points are within the lattice, and the directions of a plaquette differ. -/
def Within : Request R → Prop
  | call c => c.Within
  | ask q => q.Within
  | _ => True

instance decidableWithin (r : Request R) : Decidable r.Within :=
  match r with
  | sweep _ => .isTrue trivial
  | call .sweep => .isTrue trivial
  | call (.updateLink k) => inferInstanceAs (Decidable k.Within)
  | normalise => .isTrue trivial
  | ask q => inferInstanceAs (Decidable q.Within)

variable [WordSource G] [Zero R] [One R] [Add R] [Sub R] [Mul R] [Neg R] [Div R] [NatCast R]
  [LE R] [DecidableLE R] [RealFunctions R] [Acceptance R]

/-- A request in a session, with the answer if it is a question. -/
def run : Request R → Run R G (Option (R ⊕ Mat3 R))
  | sweep e => do
      Run.change fun s => s.withExecution e
      Run.sweep
      return none
  | call c => do
      Run.onChain c.run
      return none
  | normalise => do
      Run.change Simulation.normalised
      return none
  | ask q => return some (← Run.checked fun s => q.ask s.chain.state)

/-- Requests one after the other, up to the first one that stops. -/
def runAll : List (Request R) → Run R G (List (Option (R ⊕ Mat3 R)))
  | [] => return []
  | r :: rs => return (← r.run) :: (← runAll rs)

/-- The source keeps the pool from choosing a matrix that the request needs. -/
def Starved (c : Chain R G) : Request R → Prop
  | sweep _ => Call.sweep.Starved c
  | call c' => c'.Starved c
  | _ => False

/-- What a request does with a simulation. -/
def account (s : Simulation R G) : Request R → Checked (Account R G (Option (R ⊕ Mat3 R)))
  | sweep e => do return ⟨none, ← (s.withExecution e).step, []⟩
  | call c =>
      match c.run s.chain with
      | .ok _ d => .ok ⟨none, { s with chain := d }, []⟩
      | .error fault _ => .error fault
  | normalise => .ok ⟨none, s.normalised, []⟩
  | ask q => do return ⟨some (← q.ask s.chain.state), s, []⟩

theorem does_run (r : Request R) : (r.run : Run R G _).Does r.account := by
  cases r with
  | sweep e =>
      refine Run.does_congr
        (Run.does_bind (Run.does_change _) fun _ => Run.does_bind Run.does_sweep fun _ =>
        Run.does_pure _) fun s => ?_
      simp only [account, Account.chain, bind_assoc, pure_bind, Checked.ok_bind, List.append_nil]
  | call c =>
      refine Run.does_congr
        (Run.does_bind (Run.does_onChain _) fun _ => Run.does_pure _) fun s => ?_
      simp only [account, Account.chain]
      cases c.run s.chain with
      | ok _ d => rfl
      | error fault d => rfl
  | normalise => exact Run.does_bind (Run.does_change _) fun _ => Run.does_pure _
  | ask q =>
      refine Run.does_congr
        (Run.does_bind (Run.does_checked _) fun _ => Run.does_pure _) fun s => ?_
      simp only [account, Account.chain, bind_assoc, pure_bind, Checked.ok_bind, List.append_nil]

/-- A request answers and leaves a sound simulation, unless the source keeps the pool from
choosing. -/
theorem account_cases {s : Simulation R G} {n : ℕ} (h : s.Sound (n + 1)) (hG : Endless G)
    {r : Request R} (hr : r.Within) :
    (∃ a, r.account s = .ok a ∧ a.simulation.Sound n) ∨
      r.account s = .error .unsettled ∧ r.Starved s.chain := by
  cases r with
  | sweep e =>
      rcases (h.withExecution e).step_cases hG with ⟨t, ht, hsound⟩ | ⟨herr, hstarved⟩
      · exact Or.inl ⟨⟨none, t, []⟩, by rw [account, ht]; rfl, hsound⟩
      · exact Or.inr ⟨by rw [account, herr]; rfl, hstarved⟩
  | call c =>
      rcases h.of_succ.call_cases hG hr with ⟨d, hrun, hsound⟩ | ⟨⟨d, hrun⟩, hstarved⟩
      · exact Or.inl ⟨_, by rw [account, hrun], hsound⟩
      · exact Or.inr ⟨by rw [account, hrun], hstarved⟩
  | normalise => exact Or.inl ⟨_, rfl, h.of_succ.normalised⟩
  | ask q =>
      obtain ⟨a, ha⟩ := h.ready.complete.exists_answer h.planes_lt hr
      exact Or.inl ⟨⟨some a, s, []⟩, by rw [account, ha]; rfl, h.of_succ⟩

/-- Every run of requests comes to its end and leaves a sound simulation, unless the source keeps
the pool from choosing. -/
theorem runAll_cases {s : Session R G} {n : ℕ} {rs : List (Request R)}
    (h : s.simulation.Sound (n + rs.length)) (hG : Endless G) (hrs : ∀ r ∈ rs, r.Within) :
    (∃ answers t, runAll rs s = .ok answers t ∧ answers.length = rs.length ∧ t.simulation.Sound n) ∨
      ∃ done r rest answers t u, rs = done ++ r :: rest ∧ runAll done s = .ok answers t ∧
        r.Starved t.simulation.chain ∧ runAll rs s = .error .unsettled u := by
  induction rs generalizing s with
  | nil => exact Or.inl ⟨[], s, rfl, rfl, h⟩
  | cons r rs ih =>
      have hrun : ∀ rs : List (Request R), runAll (r :: rs) s =
          EStateM.bind r.run (fun answer => do return answer :: (← runAll rs)) s := fun _ => rfl
      rcases account_cases h hG (hrs r (by simp)) with ⟨a, ha, hsound⟩ | ⟨herr, hstarved⟩
      · obtain ⟨t, ht, hleft, -⟩ := (does_run r).exists_ok ha
        have hnext : ∀ rs : List (Request R), runAll (r :: rs) s =
            EStateM.bind (runAll rs) (fun answers => pure (a.answer :: answers)) t := by
          intro rs
          rw [hrun, EStateM.bind, ht]
          rfl
        rcases ih (hleft ▸ hsound) fun r hr => hrs r (by simp [hr]) with
          ⟨answers, u, hall, hlength, hu⟩ |
          ⟨done, r', rest, answers, u, v, rfl, hdone, hstarved, hall⟩
        · exact Or.inl ⟨a.answer :: answers, u, by rw [hnext, EStateM.bind, hall]; rfl,
            by rw [List.length_cons, hlength, List.length_cons], hu⟩
        · exact Or.inr ⟨r :: done, r', rest, a.answer :: answers, u, v, rfl,
            by rw [hnext, EStateM.bind, hdone]; rfl, hstarved, by rw [hnext, EStateM.bind, hall]⟩
      · obtain ⟨t, ht⟩ := (does_run r).exists_error herr
        exact Or.inr ⟨[], r, rs, [], s, t, rfl, rfl, hstarved, by rw [hrun, EStateM.bind, ht]⟩

/-- **No request fails.**  Let the state of a simulation be one that a constructor has made, on a
lattice with at least one point in each direction and so few that its plaquettes can be counted by
words, let its pool be one that was made, and let its source never stop.  Then every run of requests
that name links and points within the lattice comes to its end, as long as the number of sweeps
stays a word: the only fault there can be is that no attempt to choose a matrix of the pool was
accepted.  The average is taken over all points, and the links of the lattice are within it. -/
theorem runAll_built [BEq R] [LT R] [DecidableLT R] {s : Session R G} (hG : Endless G)
    (hstate : s.simulation.chain.state.Built) (hpool : s.simulation.chain.engine.pool.Built)
    (hdim : 1 ≤ s.simulation.chain.state.lattice.dim.toNat)
    (hplanes : 6 * s.simulation.chain.state.lattice.dim.toNat ^ 4 < 2 ^ 64) {rs : List (Request R)}
    (hrs : ∀ r ∈ rs, r.Within) (hsweeps : s.simulation.sweeps + rs.length < 2 ^ 64) :
    ((∃ answers t, runAll rs s = .ok answers t ∧ answers.length = rs.length) ∨
        ∃ done r rest answers t u, rs = done ++ r :: rest ∧ runAll done s = .ok answers t ∧
          r.Starved t.simulation.chain ∧ runAll rs s = .error .unsettled u) ∧
      (∃ points, s.simulation.chain.state.lattice.points = .ok points ∧
        points.length = s.simulation.chain.state.lattice.dim.toNat ^ 4 ∧
        (List.range (s.simulation.chain.state.lattice.dim.toNat ^ 4)).mapM
          s.simulation.chain.state.lattice.pointAt = .ok (points.map some)) ∧
      ∀ i k, s.simulation.chain.state.lattice.linkAt i = .ok (some k) → k.Within := by
  have hcomplete := hstate.complete hdim (by omega)
  have : NeZero s.simulation.chain.state.lattice.dim.toNat := ⟨hcomplete.dim_pos.ne'⟩
  have hnumbered := hcomplete.fills.numbered
  have hsound : s.simulation.Sound (0 + rs.length) :=
    ⟨⟨hcomplete, hpool.size_pos⟩, hplanes, by rwa [Nat.zero_add]⟩
  refine ⟨?_, hnumbered.mapM_pointAt, fun i k hk => hnumbered.within_of_linkAt hk⟩
  rcases runAll_cases hsound hG hrs with ⟨answers, t, hall, hlength, -⟩ | hstarved
  · exact Or.inl ⟨answers, t, hall, hlength⟩
  · exact Or.inr hstarved

/-- A cold simulation on a single point, whose pool holds the identity twice. -/
def pointSession : Session ℚ Tape :=
  ⟨.ofParts ⟨⟨1⟩, 5, ⟨Array.replicate 4 1⟩⟩ (.ofPool ⟨#[1, 1], ⟨0⟩⟩ halfTape) 1 2, #[]⟩

/-- A sweep and a projection, and then questions. -/
def pointRequests : List (Request ℚ) :=
  [.sweep .parallel, .normalise, .ask .average, .ask (.plaquette .origin (.along 0) (.along 3)),
    .ask (.localAction ⟨.origin, .along 1⟩), .ask (.staple ⟨.origin, .along 3⟩)]

theorem runAll_pointSession :
    ∃ answers t, runAll pointRequests pointSession = .ok answers t ∧ answers.length = 6 := by
  have hstate : pointSession.simulation.chain.state.Built :=
    .ofField (LatticeState.ofField_eq_ok_iff.2 ⟨by decide +kernel, by decide, rfl⟩)
  have hmade : Pool.generate 1 ⟨0⟩ halfTape =
      .ok (some pointSession.simulation.chain.engine.pool) halfTape := rfl
  obtain ⟨hend, -⟩ := runAll_built Tape.endless hstate (.generate hmade) (by decide)
    (by decide) (show ∀ r ∈ pointRequests, r.Within by decide) (by decide)
  rcases hend with hok | ⟨done, r, rest, answers, t, u, hrs, hdone, hstarved, -⟩
  · exact hok
  · -- only the sweep, which comes first, has to choose matrices
    cases done with
    | nil =>
        cases hrs
        cases hdone
        obtain ⟨seed, source, hword, hserves⟩ := hstarved
        cases hword
        exact absurd (by decide +kernel) hserves
    | cons first done =>
        have hr : r ∈ pointRequests.tail := by
          rw [hrs]
          simp
        have hlater : ∀ r ∈ pointRequests.tail, ¬ r.Starved t.simulation.chain := by
          simp [pointRequests, Starved]
        exact absurd hstarved (hlater r hr)

end Request

end PureGauge
