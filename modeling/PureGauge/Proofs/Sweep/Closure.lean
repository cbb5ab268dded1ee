/-
**Properties that the matrices of a field share.**

The matrices of a field are changed by multiplying them with matrices of the pool only.  A property
that such products inherit is one that all matrices of the field keep, whatever is done with the
chain, whether its state is complete or not, and also when a call stops with a fault.

Main definitions:

* `PureGauge.LinkField.All` — all matrices of a field have a property;
* `PureGauge.Pool.Keeps` — a property that products with the matrices of a pool inherit;
* `PureGauge.stateLeft`, `PureGauge.answerOf` — the state that is left, with or without a fault, and
  the answer or the fault.

Main results:

* `PureGauge.all_of_sweepWith` — a sweep keeps such a property;
* `PureGauge.Chain.All.sweep`, `PureGauge.Chain.All.call` — so do the calls on a chain.
-/
import PureGauge.Proofs.Chain.Stages

namespace PureGauge

variable {R G : Type}

/-- The state that a computation has left, with or without a fault. -/
def stateLeft {ε σ α : Type} : EStateM.Result ε σ α → σ
  | .ok _ s => s
  | .error _ s => s

/-- The answer of a computation, or its fault. -/
def answerOf {ε σ α : Type} : EStateM.Result ε σ α → Except ε α
  | .ok a _ => .ok a
  | .error e _ => .error e

/-- Dropping the answer does not change the state that is left. -/
theorem stateLeft_bind_pure {ε σ α β : Type} (x : EStateM ε σ α) (b : β) (s : σ) :
    stateLeft ((x >>= fun _ => pure b) s) = stateLeft (x s) := by
  change stateLeft (EStateM.bind x (fun _ => EStateM.pure b) s) = stateLeft (x s)
  rw [EStateM.bind]
  cases x s with
  | ok a t => rfl
  | error e t => rfl

/-- All matrices of the field have a property. -/
def LinkField.All (f : LinkField R) (P : Mat3 R → Prop) : Prop := ∀ m ∈ f.data, P m

theorem LinkField.All.set {f : LinkField R} {P : Mat3 R → Prop} (h : f.All P) {m : Mat3 R}
    (hm : P m) (i : ℕ) : LinkField.All ⟨f.data.setIfInBounds i m⟩ P := by
  intro k hk
  rcases Array.mem_or_eq_of_mem_setIfInBounds hk with hk | rfl
  · exact h k hk
  · exact hm

theorem LinkField.All.of_link {f : LinkField R} {P : Mat3 R → Prop} (h : f.All P) {l : Lattice}
    {k : Link} {m : Mat3 R} (hm : f.link l k = .ok m) : P m :=
  h m (LinkField.mem_data_of_link hm)

variable [Zero R] [One R] [Add R] [Sub R] [Mul R]

/-- A property that products with the matrices of the pool inherit. -/
def Pool.Keeps (pool : Pool R) (P : Mat3 R → Prop) : Prop :=
  ∀ m, P m → ∀ factor ∈ pool.matrices, P (m * factor)

variable [Neg R] [Div R] [NatCast R] [Acceptance R] {P : Mat3 R → Prop} {pool : Pool R}
  {s : LatticeState R} {seed : UInt64}

/-! ### Proposals -/

/-- What is proposed has the property. -/
theorem all_of_propose [WordSource G] (hs : s.links.All P) (hpool : pool.Keeps P) {k : Link}
    {g g' : G} {u : LinkUpdate R} (h : propose pool s k g = .ok u g') : P u.proposed := by
  rw [propose] at h
  obtain ⟨old, g₁, hold, h⟩ := Draw.bind_eq_ok_iff.1 h
  obtain ⟨factor, g₂, hfactor, h⟩ := Draw.bind_eq_ok_iff.1 h
  obtain ⟨change, g₃, -, h⟩ := Draw.bind_eq_ok_iff.1 h
  obtain ⟨⟨uniform, accepted⟩, g₄, -, h⟩ := Draw.bind_eq_ok_iff.1 h
  obtain ⟨rfl, -⟩ := EStateM.Result.ok.inj h
  obtain ⟨hlink, -⟩ := Draw.checked_eq_ok_iff.1 hold
  exact hpool old (hs.of_link hlink) factor (Pool.mem_of_choose hfactor)

theorem all_of_evaluate (hs : s.links.All P) (hpool : pool.Keeps P) {k : Link}
    {iu : ℕ × LinkUpdate R} (h : evaluate pool seed s k = .ok iu) : P iu.2.proposed := by
  rw [evaluate] at h
  obtain ⟨i, -, h⟩ := Checked.bind_eq_ok_iff.1 h
  cases hpropose : propose pool s k (linkSource seed i) with
  | ok u g =>
      simp only [hpropose] at h
      cases h
      exact all_of_propose hs hpool hpropose
  | error fault g =>
      simp only [hpropose] at h
      cases h

omit [Zero R] [One R] [Add R] [Sub R] [Mul R] [Neg R] [Div R] [NatCast R] [Acceptance R] in
theorem all_of_commit {sn tn : LatticeState R × ℕ} {iu : ℕ × LinkUpdate R} (hs : sn.1.links.All P)
    (hiu : P iu.2.proposed) (h : commit sn iu = .ok tn) : tn.1.links.All P := by
  rw [commit] at h
  split at h
  · obtain ⟨f, hf, h⟩ := Checked.bind_eq_ok_iff.1 h
    obtain ⟨-, rfl⟩ := LinkField.setAt_eq_ok_iff.1 hf
    rw [Checked.pure_eq, Except.ok.injEq] at h
    rw [← h]
    exact hs.set hiu iu.1
  · rw [Checked.pure_eq, Except.ok.injEq] at h
    rwa [← h]

/-! ### Sweeps -/

/-- A phase keeps the property, in either way. -/
theorem all_of_runPhase (hpool : pool.Keeps P) {e : Execution} {sn tn : LatticeState R × ℕ}
    {phase : List Link} (hs : sn.1.links.All P) (h : runPhase pool seed e sn phase = .ok tn) :
    tn.1.links.All P := by
  cases e with
  | parallel =>
      obtain ⟨updates, hupdates, h⟩ := Checked.bind_eq_ok_iff.1 h
      have hproposed : ∀ iu ∈ updates, P iu.2.proposed :=
        Checked.forall_of_mapM_eq_ok (fun _ _ _ hiu => all_of_evaluate hs hpool hiu) hupdates
      exact Checked.foldlM_invariant (P := fun un : LatticeState R × ℕ => un.1.links.All P)
        (fun un hun iu hiu vn hcommit => all_of_commit hun (hproposed iu hiu) hcommit) hs h
  | sequential =>
      refine Checked.foldlM_invariant (P := fun un : LatticeState R × ℕ => un.1.links.All P)
        (fun un hun k _ vn hstep => ?_) hs h
      obtain ⟨iu, hiu, hcommit⟩ := Checked.bind_eq_ok_iff.1 hstep
      exact all_of_commit hun (all_of_evaluate hun hpool hiu) hcommit

/-- A sweep keeps the property, in either execution. -/
theorem all_of_sweepWith (hpool : pool.Keeps P) {e : Execution} {tn : LatticeState R × ℕ}
    (hs : s.links.All P) (h : sweepWith pool e seed s = .ok tn) : tn.1.links.All P := by
  obtain ⟨phases, -, h⟩ := Checked.bind_eq_ok_iff.1 h
  exact Checked.foldlM_invariant (P := fun un : LatticeState R × ℕ => un.1.links.All P)
    (fun un hun phase _ vn hphase => all_of_runPhase hpool hun hphase) hs h

/-! ### Calls -/

/-- The matrices of a chain have a property, and products with those of its pool inherit it. -/
structure Chain.All (c : Chain R G) (P : Mat3 R → Prop) : Prop where
  links : c.state.links.All P
  keeps : c.engine.pool.Keeps P

variable [WordSource G] {c : Chain R G}

/-- The chain that a sweep leaves, also when it stops. -/
theorem Chain.All.sweep (h : c.All P) : (stateLeft (Chain.sweep c)).All P := by
  rw [Chain.sweep_apply]
  cases WordSource.next c.engine.source with
  | error fault => exact h
  | ok drawn =>
      cases houtcome : c.outcome drawn.1 with
      | error fault =>
          simp only [houtcome]
          exact ⟨h.links, h.keeps⟩
      | ok outcome =>
          obtain ⟨sn, hsn, hlinks⟩ := Checked.bind_eq_ok_iff.1 houtcome
          obtain ⟨links, -, hpair⟩ := Checked.bind_eq_ok_iff.1 hlinks
          rw [Checked.pure_eq, Except.ok.injEq] at hpair
          subst hpair
          simp only [houtcome]
          exact ⟨all_of_sweepWith h.keeps h.links hsn, h.keeps⟩

/-- The chain that the update of a link leaves, also when it stops. -/
theorem Chain.All.updateLink (h : c.All P) (k : Link) :
    (stateLeft ((Call.updateLink k).run c)).All P := by
  rw [Call.run_updateLink]
  cases hpropose : PureGauge.propose c.engine.pool c.state k c.engine.source with
  | error fault source => exact ⟨h.links, h.keeps⟩
  | ok update source =>
      have hproposed := all_of_propose h.links h.keeps hpropose
      cases haccepted : update.accepted with
      | false =>
          simp only [Bool.false_eq_true, if_false, haccepted]
          exact ⟨h.links, h.keeps⟩
      | true =>
          simp only [if_true, haccepted]
          cases hset : c.state.setLink k update.proposed with
          | error fault => exact ⟨h.links, h.keeps⟩
          | ok t =>
              obtain ⟨i, -, ht⟩ := Checked.bind_eq_ok_iff.1 hset
              rw [Checked.pure_eq, Except.ok.injEq] at ht
              subst ht
              exact ⟨h.links.set hproposed i, h.keeps⟩

/-- The chain that a call leaves, also when it stops. -/
theorem Chain.All.call (h : c.All P) (call : Call) : (stateLeft (call.run c)).All P := by
  cases call with
  | sweep =>
      rw [Call.run, stateLeft_bind_pure]
      exact h.sweep
  | updateLink k => exact h.updateLink k

end PureGauge
