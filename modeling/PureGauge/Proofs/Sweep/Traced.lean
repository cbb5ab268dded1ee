/-
**Sweeps that list their updates.**

A sweep tells how many proposals were accepted, but not which updates it evaluated.  Here the
updates are listed in the order in which they are evaluated, beside what the sweep does anyway.
Both ways in which a sweep goes through a phase are schedules, and so they list the same updates
when the phase is isolated.

Main definitions:

* `PureGauge.tracedPhase`, `PureGauge.tracedSweep` — phases and sweeps that list their updates.

Main results:

* `PureGauge.map_fst_tracedPhase`, `PureGauge.map_fst_tracedSweep` — listing changes nothing else;
* `PureGauge.sequentialTraced_eq_run` — committing each link before the next is evaluated runs a
  schedule;
* `PureGauge.Isolated.tracedPhase_eq` — on an isolated phase both ways list the same updates.
-/
import PureGauge.Proofs.Sweep.Interleaving

namespace PureGauge

variable {R : Type} [Zero R] [One R] [Add R] [Sub R] [Mul R] [Neg R] [Div R] [NatCast R]
  [Acceptance R]

/-- A phase in which each proposal is carried out before the next one is evaluated, with the updates
in the order of the phase. -/
def sequentialTraced (pool : Pool R) (seed : UInt64) (sn : LatticeState R × ℕ) :
    List Link → Checked ((LatticeState R × ℕ) × List (ℕ × LinkUpdate R))
  | [] => return (sn, [])
  | k :: phase => do
      let iu ← evaluate pool seed sn.1 k
      let traced ← sequentialTraced pool seed (← commit sn iu) phase
      return (traced.1, iu :: traced.2)

/-- A phase in one of the two ways, with the updates in the order of the phase. -/
def tracedPhase (pool : Pool R) (seed : UInt64) (e : Execution) (sn : LatticeState R × ℕ)
    (phase : List Link) : Checked ((LatticeState R × ℕ) × List (ℕ × LinkUpdate R)) :=
  match e with
  | .parallel => do
      let updates ← phase.mapM (evaluate pool seed sn.1)
      return (← updates.foldlM commit sn, updates)
  | .sequential => sequentialTraced pool seed sn phase

/-- All phases of a sweep with a given word, with the updates of all links. -/
def tracedSweep (pool : Pool R) (e : Execution) (seed : UInt64) (s : LatticeState R) :
    Checked ((LatticeState R × ℕ) × List (ℕ × LinkUpdate R)) := do
  (← s.lattice.phases).foldlM (fun c phase => do
    let traced ← tracedPhase pool seed (s.lattice.allowed e) c.1 phase
    return (traced.1, c.2 ++ traced.2)) ((s, 0), [])

variable {pool : Pool R} {seed : UInt64} {s : LatticeState R} {sn : LatticeState R × ℕ}
  {phase : List Link}

/-! ### Without the list -/

theorem map_fst_sequentialTraced :
    (sequentialTraced pool seed sn phase).map Prod.fst = sequentialPhase pool seed sn phase := by
  induction phase generalizing sn with
  | nil => rfl
  | cons k phase ih =>
      rw [sequentialTraced, sequentialPhase, List.foldlM_cons]
      cases hu : evaluate pool seed sn.1 k with
      | error fault => rfl
      | ok iu =>
          rw [Checked.ok_bind, Checked.ok_bind]
          cases hcommit : commit sn iu with
          | error fault => rfl
          | ok tn =>
              rw [Checked.ok_bind, Checked.ok_bind]
              refine Eq.trans ?_ ih
              cases sequentialTraced pool seed tn phase with
              | error fault => rfl
              | ok traced => rfl

theorem map_fst_tracedPhase (e : Execution) :
    (tracedPhase pool seed e sn phase).map Prod.fst = runPhase pool seed e sn phase := by
  cases e with
  | sequential => exact map_fst_sequentialTraced
  | parallel =>
      rw [tracedPhase, runPhase, parallelPhase]
      cases phase.mapM (evaluate pool seed sn.1) with
      | error fault => rfl
      | ok updates =>
          rw [Checked.ok_bind, Checked.ok_bind]
          cases updates.foldlM commit sn with
          | error fault => rfl
          | ok tn => rfl

/-- A sweep that lists its updates does what a sweep does. -/
theorem map_fst_tracedSweep (e : Execution) :
    (tracedSweep pool e seed s).map Prod.fst = sweepWith pool e seed s := by
  rw [tracedSweep, sweepWith]
  cases s.lattice.phases with
  | error fault => rfl
  | ok phases =>
      refine Checked.map_foldlM (fun c phase => ?_) phases ((s, 0), [])
      rw [← map_fst_tracedPhase]
      cases tracedPhase pool seed (s.lattice.allowed e) c.1 phase with
      | error fault => rfl
      | ok traced => rfl

/-! ### As schedules -/

/-- Events of other links do not change the update of a link. -/
theorem PhaseRun.updates_of_run {c d : PhaseRun R} {es : List PhaseEvent} {k : Link}
    (hk : ∀ e ∈ es, e.link ≠ k) (h : c.run pool seed es = .ok d) : d.updates k = c.updates k := by
  refine Checked.foldlM_invariant (P := fun d => d.updates k = c.updates k) (l := es)
    (fun b hb e he t ht => ?_) rfl h
  refine Eq.trans ?_ hb
  cases e with
  | evaluate j =>
      obtain ⟨iu, -, hupdate⟩ := Checked.bind_eq_ok_iff.1 ht
      rw [Checked.pure_eq, Except.ok.injEq] at hupdate
      subst hupdate
      exact Function.update_of_ne (hk _ he).symm ..
  | commit j =>
      rw [PhaseRun.step] at ht
      split at ht
      · rw [Except.ok.injEq] at ht
        rw [ht]
      · obtain ⟨sn, -, hstate⟩ := Checked.bind_eq_ok_iff.1 ht
        rw [Checked.pure_eq, Except.ok.injEq] at hstate
        subst hstate
        rfl

/-- Committing each link before the next is evaluated runs a schedule. -/
theorem sequentialTraced_eq_run (hphase : phase.Nodup) (c : PhaseRun R) :
    sequentialTraced pool seed (c.state, c.accepted) phase =
      (c.run pool seed (inTurn phase)).map
        fun d => ((d.state, d.accepted), phase.filterMap d.updates) := by
  induction phase generalizing c with
  | nil => rfl
  | cons k phase ih =>
      obtain ⟨hk, hphase⟩ := List.nodup_cons.1 hphase
      rw [inTurn, List.flatMap_cons, ← inTurn, List.cons_append, List.cons_append,
        List.nil_append, PhaseRun.run_cons, sequentialTraced]
      cases hu : evaluate pool seed c.state k with
      | error e => simp only [PhaseRun.step, hu, Checked.error_bind, Checked.map_error]
      | ok iu =>
          simp only [PhaseRun.step, hu, Checked.ok_bind, Checked.pure_eq, PhaseRun.run_cons,
            Function.update_self]
          cases hcommit : commit (c.state, c.accepted) iu with
          | error e => rfl
          | ok sn =>
              have hrest := ih hphase ⟨sn.1, sn.2, Function.update c.updates k (some iu)⟩
              simp only [Checked.ok_bind, hrest]
              cases hrun : PhaseRun.run pool seed
                  ⟨sn.1, sn.2, Function.update c.updates k (some iu)⟩ (inTurn phase) with
              | error e => rfl
              | ok d =>
                  -- the update of the first link is still there at the end
                  have hother : ∀ e ∈ inTurn phase, e.link ≠ k :=
                    fun e he hek => hk (hek ▸ link_mem_of_mem_inTurn he)
                  have hupdate : d.updates k = some iu :=
                    (PhaseRun.updates_of_run hother hrun).trans (Function.update_self ..)
                  simp [hupdate]

/-- On an isolated phase both ways end in the same state, with the same updates and the same number
of accepted ones, or with the same fault. -/
theorem Isolated.tracedPhase_eq {number : Link → ℕ} (h : Isolated pool seed sn.1 number phase) :
    tracedPhase pool seed .sequential sn phase = tracedPhase pool seed .parallel sn phase := by
  -- committing in turn is a schedule, and evaluating first is what all schedules are compared with
  have hrun := congrArg (Except.map fun r => (r.1, r.2.filterMap id))
    (h.run_eq (interleaving_inTurn h.nodup) sn.2)
  rw [Checked.map_map] at hrun
  have hleft : tracedPhase pool seed .sequential sn phase =
      ((PhaseRun.start sn.1 sn.2).run pool seed (inTurn phase)).map
        fun c => ((c.state, c.accepted), (phase.map c.updates).filterMap id) := by
    simp only [List.filterMap_map, Function.id_comp]
    exact sequentialTraced_eq_run h.nodup (.start sn.1 sn.2)
  rw [hleft]
  refine hrun.trans ?_
  rw [tracedPhase, parallelPhase]
  cases phase.mapM (evaluate pool seed sn.1) with
  | error fault => rfl
  | ok updates =>
      rw [Checked.ok_bind, Checked.ok_bind, Checked.ok_bind]
      cases updates.foldlM commit sn with
      | error fault => rfl
      | ok tn =>
          simp [List.filterMap_map]

end PureGauge
