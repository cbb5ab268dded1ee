/-
**The two executions of a sweep.**

With an even number of points in each direction every phase is isolated, so that it does not matter
in which of the two ways it is carried out; with an odd number both executions go through the phases
in the same way.  A sweep therefore evaluates the same updates, leaves the same state and counts the
same accepted proposals, whatever execution the engine is set to.

Main results:

* `PureGauge.sameShape_of_sweepWith` — what a sweep keeps of a state;
* `PureGauge.LatticeState.Complete.tracedSweep_eq`, `PureGauge.LatticeState.Complete.sweepWith_eq` —
  the two executions of a sweep agree.
-/
import PureGauge.Proofs.Sweep.Checkerboard
import PureGauge.Proofs.Sweep.Traced

namespace PureGauge

variable {R : Type} {s t u : LatticeState R}

namespace LatticeState

/-- A state with the same lattice, the same coupling and as many matrices. -/
abbrev SameShape (s t : LatticeState R) : Prop := s.SameOff t fun _ => True

theorem SameShape.refl (s : LatticeState R) : s.SameShape s := ⟨rfl, rfl, rfl, fun _ _ => rfl⟩

theorem SameShape.trans (hst : s.SameShape t) (htu : t.SameShape u) : s.SameShape u :=
  ⟨htu.lattice_eq.trans hst.lattice_eq, htu.beta_eq.trans hst.beta_eq,
    htu.size_eq.trans hst.size_eq, fun _ hi => absurd trivial hi⟩

theorem SameShape.complete (h : s.SameShape t) (hs : s.Complete) : t.Complete where
  dim_pos := h.lattice_eq ▸ hs.dim_pos
  links_lt := h.lattice_eq ▸ hs.links_lt
  size_eq := by rw [h.size_eq, h.lattice_eq, hs.size_eq]

end LatticeState

/-! ### What a sweep keeps -/

theorem sameShape_of_commit {sn tn : LatticeState R × ℕ} {iu : ℕ × LinkUpdate R}
    (h : commit sn iu = .ok tn) : sn.1.SameShape tn.1 := by
  rw [commit] at h
  split at h
  · obtain ⟨f, hf, hstate⟩ := Checked.bind_eq_ok_iff.1 h
    obtain ⟨-, rfl⟩ := LinkField.setAt_eq_ok_iff.1 hf
    rw [Checked.pure_eq, Except.ok.injEq] at hstate
    subst hstate
    exact ⟨rfl, rfl, Array.size_setIfInBounds .., fun _ hi => absurd trivial hi⟩
  · rw [Checked.pure_eq, Except.ok.injEq] at h
    subst h
    exact .refl sn.1

section

variable [Zero R] [One R] [Add R] [Sub R] [Mul R] [Neg R] [Div R] [NatCast R] [Acceptance R]
  {pool : Pool R} {seed : UInt64}

theorem sameShape_of_runPhase {e : Execution} {sn tn : LatticeState R × ℕ} {phase : List Link}
    (h : runPhase pool seed e sn phase = .ok tn) : sn.1.SameShape tn.1 := by
  cases e with
  | parallel =>
      obtain ⟨us, -, hcommits⟩ := Checked.bind_eq_ok_iff.1 h
      exact Checked.foldlM_invariant (P := fun un => sn.1.SameShape un.1)
        (fun un hun iu _ tn hcommit => hun.trans (sameShape_of_commit hcommit))
          (.refl sn.1) hcommits
  | sequential =>
      refine Checked.foldlM_invariant (P := fun un => sn.1.SameShape un.1)
        (fun un hun k _ tn hstep => ?_) (.refl sn.1) h
      obtain ⟨iu, -, hcommit⟩ := Checked.bind_eq_ok_iff.1 hstep
      exact hun.trans (sameShape_of_commit hcommit)

/-- A sweep keeps lattice and coupling of a state, and the number of its matrices. -/
theorem sameShape_of_sweepWith {e : Execution} {accepted : ℕ}
    (h : sweepWith pool e seed s = .ok (t, accepted)) : s.SameShape t := by
  obtain ⟨phases, -, hphases⟩ := Checked.bind_eq_ok_iff.1 h
  exact Checked.foldlM_invariant (P := fun un => s.SameShape un.1)
    (fun un hun phase _ tn hphase => hun.trans (sameShape_of_runPhase hphase)) (.refl s) hphases

/-! ### Agreement -/

theorem sameShape_of_tracedPhase {e : Execution} {sn : LatticeState R × ℕ} {phase : List Link}
    {traced : (LatticeState R × ℕ) × List (ℕ × LinkUpdate R)}
    (h : tracedPhase pool seed e sn phase = .ok traced) : sn.1.SameShape traced.1.1 := by
  have hrun : runPhase pool seed e sn phase = .ok traced.1 := by
    rw [← map_fst_tracedPhase, h, Checked.map_ok]
  exact sameShape_of_runPhase hrun

/-- On a checkerboard both ways through all phases agree, also on the updates. -/
theorem LatticeState.Complete.foldlM_tracedPhase_eq (h : s.Complete)
    (heven : 2 ∣ s.lattice.dim.toNat) (hpool : 0 < pool.matrices.size) (seed : UInt64)
    {phases : List (List Link)} (hphases : s.lattice.phases = .ok phases) :
    phases.foldlM (fun c phase => do
        let traced ← tracedPhase pool seed .parallel c.1 phase
        return (traced.1, c.2 ++ traced.2)) ((s, 0), ([] : List (ℕ × LinkUpdate R))) =
      phases.foldlM (fun c phase => do
        let traced ← tracedPhase pool seed .sequential c.1 phase
        return (traced.1, c.2 ++ traced.2)) ((s, 0), []) := by
  have : NeZero s.lattice.dim.toNat := ⟨h.dim_pos.ne'⟩
  rw [h.fills.numbered.phases_eq, Except.ok.injEq] at hphases
  subst hphases
  refine Checked.foldlM_congr_of_invariant (P := fun c => s.SameShape c.1.1)
    (fun c hc phase hphase => ?_) (fun c hc phase _ d hd => ?_) (.refl s)
  · obtain ⟨μq, -, rfl⟩ := List.mem_map.1 hphase
    -- the phase is isolated in the state that the earlier phases have left
    have hfills : c.1.1.links.Fills c.1.1.lattice s.lattice.dim.toNat := hc.fills h.fills
    have hisolated :=
      isolated_phase hfills (Nat.le_of_dvd h.dim_pos heven) heven hpool seed μq.1 μq.2
    rw [hisolated.tracedPhase_eq]
  · obtain ⟨traced, htraced, hd⟩ := Checked.bind_eq_ok_iff.1 hd
    rw [Checked.pure_eq, Except.ok.injEq] at hd
    have hphase := sameShape_of_tracedPhase htraced
    subst hd
    exact hc.trans hphase

/-- The two executions of a sweep agree on the state they leave, on the number of accepted proposals
and on the updates of all links. -/
theorem LatticeState.Complete.tracedSweep_eq (h : s.Complete) (hpool : 0 < pool.matrices.size)
    (seed : UInt64) (e e' : Execution) :
    tracedSweep pool e seed s = tracedSweep pool e' seed s := by
  have hsequential : ∀ e, tracedSweep pool e seed s = tracedSweep pool .sequential seed s := by
    intro e
    cases e with
    | sequential => rfl
    | parallel =>
        rw [tracedSweep, tracedSweep]
        refine Checked.bind_congr fun phases hphases => ?_
        cases hboard : s.lattice.hasCheckerboard with
        | false =>
            -- both executions go through the phases sequentially
            simp [Lattice.allowed, hboard]
        | true =>
            rw [Lattice.hasCheckerboard, decide_eq_true_eq] at hboard
            simpa [Lattice.allowed, Lattice.hasCheckerboard, hboard] using
              h.foldlM_tracedPhase_eq (Nat.dvd_of_mod_eq_zero hboard) hpool seed hphases
  rw [hsequential e, hsequential e']

/-- **The two executions of a sweep agree** on the state they leave and on the number of accepted
proposals. -/
theorem LatticeState.Complete.sweepWith_eq (h : s.Complete) (hpool : 0 < pool.matrices.size)
    (seed : UInt64) (e e' : Execution) : sweepWith pool e seed s = sweepWith pool e' seed s := by
  rw [← map_fst_tracedSweep, ← map_fst_tracedSweep, h.tracedSweep_eq hpool seed e e']

end

end PureGauge
