/-
**The action along a sweep.**

Every update tells by how much it would change the action.  The books are balanced: over an exact
field the action after a sweep is the one before it plus the changes of the updates that were
accepted.  For updates that are carried out one after the other this holds step by step, since an
update is evaluated in the very state in which it is carried out; and on a checkerboard updates that
are evaluated together are the same ones.

Main definitions:

* `PureGauge.acceptedUpdates`, `PureGauge.acceptedChange` — the updates that are carried out, and
  the sum of their changes;
* `PureGauge.Balanced` — a state is reached from another one by carrying out updates.

Main results:

* `PureGauge.balanced_commit`, `PureGauge.balanced_sequentialTraced` — a single update, and a phase;
* `PureGauge.LatticeState.Complete.wilsonAction_sweep` — a whole sweep.
-/
import PureGauge.Proofs.State.Energy
import PureGauge.Proofs.Sweep.Executions

namespace PureGauge

/-- The updates that are carried out. -/
def acceptedUpdates {R : Type} (us : List (ℕ × LinkUpdate R)) : List (LinkUpdate R) :=
  (us.map Prod.snd).filter LinkUpdate.accepted

variable {F : Type} [Field F] {n : ℕ} [NeZero n]

/-- The sum of the changes of the action over the updates that are carried out. -/
def acceptedChange (us : List (ℕ × LinkUpdate F)) : F :=
  ((acceptedUpdates us).map LinkUpdate.change).sum

omit [Field F] in
theorem acceptedUpdates_append (us vs : List (ℕ × LinkUpdate F)) :
    acceptedUpdates (us ++ vs) = acceptedUpdates us ++ acceptedUpdates vs := by
  rw [acceptedUpdates, List.map_append, List.filter_append]
  rfl

theorem acceptedChange_append (us vs : List (ℕ × LinkUpdate F)) :
    acceptedChange (us ++ vs) = acceptedChange us + acceptedChange vs := by
  rw [acceptedChange, acceptedUpdates_append, List.map_append, List.sum_append]
  rfl

/-- The second state, with its number of accepted proposals, is reached from the first one by
carrying out those of the updates that are accepted, and the action has changed by their changes. -/
structure Balanced (n : ℕ) [NeZero n] (sn tn : LatticeState F × ℕ)
    (us : List (ℕ × LinkUpdate F)) : Prop where
  sameShape : sn.1.SameShape tn.1
  accepted_eq : tn.2 = sn.2 + (acceptedUpdates us).length
  energy_eq : tn.1.energy n - sn.1.energy n = acceptedChange us

namespace Balanced

variable {sn tn un : LatticeState F × ℕ} {us vs : List (ℕ × LinkUpdate F)}

theorem refl (sn : LatticeState F × ℕ) : Balanced n sn sn [] :=
  ⟨.refl sn.1, rfl, sub_self _⟩

theorem trans (h : Balanced n sn tn us) (h' : Balanced n tn un vs) :
    Balanced n sn un (us ++ vs) where
  sameShape := h.sameShape.trans h'.sameShape
  accepted_eq := by
    rw [h'.accepted_eq, h.accepted_eq, acceptedUpdates_append, List.length_append, Nat.add_assoc]
  energy_eq := by
    rw [acceptedChange_append, ← h.energy_eq, ← h'.energy_eq, add_comm, sub_add_sub_cancel]

end Balanced

variable [Acceptance F] {pool : Pool F} {seed : UInt64} {s : LatticeState F}

/-- Carrying out an update in the state in which it was evaluated. -/
theorem balanced_commit {sn : LatticeState F × ℕ} (h : sn.1.links.Fills sn.1.lattice n) (hn : 2 ≤ n)
    {x : Site n} {μ : Fin 4} {iu : ℕ × LinkUpdate F}
    (hiu : evaluate pool seed sn.1 ⟨x.point, .along μ⟩ = .ok iu) :
    ∃ tn, commit sn iu = .ok tn ∧ Balanced n sn tn [iu] := by
  obtain ⟨hnumber, hchange⟩ := evaluate_change h hn hiu
  have hlt := h.linkNumber_lt x μ
  rw [commit]
  cases haccepted : iu.2.accepted with
  | false =>
      have hupdates : acceptedUpdates [iu] = [] := by simp [acceptedUpdates, haccepted]
      refine ⟨sn, rfl, .refl sn.1, ?_, ?_⟩
      · rw [hupdates]
        rfl
      · rw [acceptedChange, hupdates, sub_self]
        rfl
  | true =>
      have hupdates : acceptedUpdates [iu] = [iu.2] := by simp [acceptedUpdates, haccepted]
      rw [if_pos rfl, hnumber, LinkField.setAt, dif_pos hlt, Checked.ok_bind]
      refine ⟨_, rfl, ⟨rfl, rfl, by simp [LinkField.size], fun _ hi => absurd trivial hi⟩, ?_, ?_⟩
      · rw [hupdates]
        rfl
      · -- the update was evaluated in the state in which it is carried out
        have hconf := LinkField.configuration_set (f := sn.1.links) hlt iu.2.proposed
        rw [acceptedChange, hupdates, List.map_singleton, List.sum_singleton, hchange]
        exact LatticeState.energy_sub hn rfl hconf

/-- A phase in which each proposal is carried out before the next one is evaluated. -/
theorem balanced_sequentialTraced {sn : LatticeState F × ℕ}
    (h : sn.1.links.Fills sn.1.lattice n) (hn : 2 ≤ n) (hpool : 0 < pool.matrices.size)
    (seed : UInt64) {phase : List Link}
    (hphase : ∀ k ∈ phase, ∃ (x : Site n) (μ : Fin 4), k = ⟨x.point, .along μ⟩) :
    (∃ traced, sequentialTraced pool seed sn phase = .ok traced ∧
        Balanced n sn traced.1 traced.2) ∨
      sequentialTraced pool seed sn phase = .error .unsettled ∧
        ¬ pool.Serves seed (4 * n ^ 4) := by
  induction phase generalizing sn with
  | nil => exact Or.inl ⟨(sn, []), rfl, .refl sn⟩
  | cons k phase ih =>
      obtain ⟨x, μ, rfl⟩ := hphase k (by simp)
      rw [sequentialTraced]
      rcases evaluate_cases h hn hpool seed x μ with ⟨u, hu⟩ | ⟨herr, hsettles⟩
      · obtain ⟨tn, htn, hfirst⟩ := balanced_commit h hn hu
        rw [hu, Checked.ok_bind, htn, Checked.ok_bind]
        have hrest := ih (hfirst.sameShape.fills h) fun k hk => hphase k (by simp [hk])
        rcases hrest with ⟨traced, htraced, hrest⟩ | ⟨herr, hsettles⟩
        · rw [htraced]
          exact Or.inl ⟨_, rfl, hfirst.trans hrest⟩
        · rw [herr]
          exact Or.inr ⟨rfl, hsettles⟩
      · rw [herr]
        exact Or.inr ⟨rfl, fun hserves => hsettles (hserves _ (Site.linkNumber_lt x μ))⟩

/-- One phase more after a part of a sweep in which each proposal is carried out before the next one
is evaluated. -/
theorem balanced_tracedPhase (h : s.links.Fills s.lattice n) (hn : 2 ≤ n)
    (hpool : 0 < pool.matrices.size) (seed : UInt64) {μ : Fin 4} {q : Parity}
    {c : (LatticeState F × ℕ) × List (ℕ × LinkUpdate F)} (hc : Balanced n (s, 0) c.1 c.2) :
    (∃ traced, tracedPhase pool seed .sequential c.1 (Lattice.phase n μ q) = .ok traced ∧
        Balanced n (s, 0) traced.1 (c.2 ++ traced.2)) ∨
      tracedPhase pool seed .sequential c.1 (Lattice.phase n μ q) = .error .unsettled ∧
        ¬ pool.Serves seed (4 * n ^ 4) := by
  have hlinks : ∀ k ∈ Lattice.phase n μ q, ∃ (x : Site n) (μ : Fin 4), k = ⟨x.point, .along μ⟩ := by
    intro k hk
    obtain ⟨x, -, hx⟩ := Lattice.mem_phase.1 hk
    exact ⟨x, μ, hx⟩
  rcases balanced_sequentialTraced (hc.sameShape.fills h) hn hpool seed hlinks with
    ⟨traced, htraced, hbalanced⟩ | hfault
  · exact Or.inl ⟨traced, htraced, hc.trans hbalanced⟩
  · exact Or.inr hfault

/-- A sweep in which each proposal is carried out before the next one is evaluated. -/
theorem balanced_tracedSweep (h : s.links.Fills s.lattice n) (hn : 2 ≤ n)
    (hpool : 0 < pool.matrices.size) (seed : UInt64) :
    (∃ traced, tracedSweep pool .sequential seed s = .ok traced ∧
        Balanced n (s, 0) traced.1 traced.2) ∨
      tracedSweep pool .sequential seed s = .error .unsettled ∧
        ¬ pool.Serves seed (4 * n ^ 4) := by
  -- with either number of points the sequential execution is allowed
  have hallowed : s.lattice.allowed .sequential = .sequential := by
    rw [Lattice.allowed, ite_self]
  rw [tracedSweep, h.numbered.phases_eq, Checked.ok_bind, hallowed]
  refine (Checked.foldlM_cases
    (P := fun c : (LatticeState F × ℕ) × List (ℕ × LinkUpdate F) => Balanced n (s, 0) c.1 c.2)
    (Q := fun fault => fault = .unsettled ∧ ¬ pool.Serves seed (4 * n ^ 4))
    (fun c hc phase hphase => ?_) (.refl (s, 0))).imp_right ?_
  · obtain ⟨μq, -, rfl⟩ := List.mem_map.1 hphase
    rcases balanced_tracedPhase h hn hpool seed hc (μ := μq.1) (q := μq.2) with
      ⟨traced, htraced, hbalanced⟩ | ⟨herr, hserves⟩
    · refine Or.inl ⟨(traced.1, c.2 ++ traced.2), ?_, hbalanced⟩
      rw [htraced]
      rfl
    · refine Or.inr ⟨.unsettled, ?_, rfl, hserves⟩
      rw [herr]
      rfl
  · rintro ⟨fault, herr, rfl, hserves⟩
    exact ⟨herr, hserves⟩

omit [NeZero n] in
/-- **The books are balanced.**  With at least two points in each direction, and with either
execution, the action after a sweep is the action before it plus the changes of the updates that
were accepted, unless for some link no attempt to choose a factor is accepted, which depends on the
pool and the word of the sweep only. -/
theorem LatticeState.Complete.wilsonAction_sweep (h : s.Complete)
    (hdim : 2 ≤ s.lattice.dim.toNat) (hpool : 0 < pool.matrices.size) (seed : UInt64)
    (e : Execution) :
    (∃ t us before after,
        sweepWith pool e seed s = .ok (t, (acceptedUpdates us).length) ∧
        tracedSweep pool e seed s = .ok ((t, (acceptedUpdates us).length), us) ∧
        s.wilsonAction = .ok before ∧ t.wilsonAction = .ok after ∧
        after - before = acceptedChange us) ∨
      sweepWith pool e seed s = .error .unsettled ∧
        ¬ pool.Serves seed (4 * s.lattice.dim.toNat ^ 4) := by
  have : NeZero s.lattice.dim.toNat := ⟨h.dim_pos.ne'⟩
  -- the updates of a parallel phase do not add up by themselves, but they are
  -- those of a sequential one
  rw [← map_fst_tracedSweep, h.tracedSweep_eq hpool seed e .sequential]
  rcases balanced_tracedSweep h.fills hdim hpool seed with
    ⟨⟨⟨t, accepted⟩, us⟩, hok, hbalanced⟩ | ⟨herr, hserves⟩
  · have haccepted : accepted = (acceptedUpdates us).length :=
      hbalanced.accepted_eq.trans (Nat.zero_add _)
    subst haccepted
    rw [hok]
    exact Or.inl ⟨t, us, _, _, rfl, rfl, wilsonAction_eq h.fills,
      wilsonAction_eq (hbalanced.sameShape.fills h.fills), hbalanced.energy_eq⟩
  · rw [herr]
    exact Or.inr ⟨rfl, hserves⟩

/-- A rule over the rational numbers that accepts a change `δ` with the number `u` if
`δ ≤ 64 * u`. -/
instance thresholdRule : Acceptance ℚ := ⟨fun δ => decide (δ ≤ 0), fun δ u => decide (δ ≤ 64 * u)⟩

/-- A cold state on the smallest lattice with a checkerboard. -/
def coldState : LatticeState ℚ := ⟨⟨2⟩, 5, ⟨Array.replicate 64 1⟩⟩

/-- A pool whose only matrix turns two of the components by a right angle. -/
def turnPool : Pool ℚ := ⟨#[.diagonal ⟨⟨0, 1⟩, ⟨0, -1⟩, 1⟩], ⟨0⟩⟩

theorem wilsonAction_sweep_coldState :
    ∃ t us before after,
      sweepWith turnPool .parallel 7 coldState = .ok (t, (acceptedUpdates us).length) ∧
      tracedSweep turnPool .parallel 7 coldState = .ok ((t, (acceptedUpdates us).length), us) ∧
      coldState.wilsonAction = .ok before ∧ t.wilsonAction = .ok after ∧
      after - before = acceptedChange us := by
  have hcomplete : coldState.Complete := ⟨by decide, by decide, by decide⟩
  have hpool : 0 < turnPool.matrices.size := by decide
  have hserves : turnPool.Serves 7 (4 * coldState.lattice.dim.toNat ^ 4) := by decide +kernel
  rcases hcomplete.wilsonAction_sweep (by decide) hpool 7 .parallel with hbooks | ⟨-, hfault⟩
  · exact hbooks
  · exact absurd hserves hfault

end PureGauge
