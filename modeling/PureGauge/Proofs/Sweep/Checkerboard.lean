/-
**Phases on a checkerboard.**

On a lattice with an even number of points in each direction a phase consists of the links in one
direction that leave the points of one colour.  Their staples contain links in other directions and
links that leave points of the other colour, so that no link around a link of a phase belongs to the
phase, not even where a step ahead and a step behind lead to the same point.  As a proposal reads
the link and those around it only, nothing that is written in a phase is read in it.

Main definitions:

* `PureGauge.Lattice.Apart` — no link around a link of a phase has the number of a link of the
  phase.

Main results:

* `PureGauge.Lattice.Periodic.apart_phase` — with an even number of points phases are apart;
* `PureGauge.isolated_phase` — the phases of a lattice with a checkerboard are isolated;
* `PureGauge.LatticeState.Complete.confluent` — all schedules of a phase agree with the evaluation
  of all its links before any is written.
-/
import PureGauge.Proofs.Lattice.Parity
import PureGauge.Proofs.Sweep.Interleaving
import PureGauge.Proofs.Sweep.Locality

namespace PureGauge

/-- The number of a link that leaves a point in one of the four directions. -/
def Link.number (n : ℕ) (k : Link) : ℕ := (k.pos.site n).number * 4 + k.dir.index.toNat

theorem Link.number_along {n : ℕ} [NeZero n] (h : n < 2 ^ 63) (x : Site n) (μ : Fin 4) :
    Link.number n ⟨x.point, .along μ⟩ = x.linkNumber μ := by
  rw [Link.number, Site.site_point h, Direction.toNat_index_along, Site.linkNumber]

namespace LatticeState.SameOff

variable {R : Type} {s t : LatticeState R} {written : ℕ → Prop}

theorem fills {n : ℕ} (h : s.SameOff t written) (hs : s.links.Fills s.lattice n) :
    t.links.Fills t.lattice n :=
  ⟨h.lattice_eq ▸ hs.numbered, h.size_eq.trans hs.size_eq⟩

/-- What was not written is read as before. -/
theorem at_eq (h : s.SameOff t written) {i : ℕ} (hi : ¬ written i) :
    t.links.at i = s.links.at i := by
  have hsize : t.links.data.size = s.links.data.size := h.size_eq
  simp only [LinkField.at, h.data_eq i hi, hsize]

end LatticeState.SameOff

/-! ### Phases are apart -/

namespace Site

variable {n : ℕ} [NeZero n]

/-- A step leads to the other colour. -/
theorem ofSum_height_add_step (h : 2 ∣ n) (x : Site n) (ν : Fin 4) :
    Parity.ofSum (x + step n ν).height ≠ Parity.ofSum x.height := by
  rw [ofSum_height_step, if_neg fun hodd => hodd.1 h]
  exact Parity.opposite_ne _

theorem ofSum_height_sub_step (h : 2 ∣ n) (x : Site n) (ν : Fin 4) :
    Parity.ofSum (x - step n ν).height ≠ Parity.ofSum x.height := by
  have hstep := ofSum_height_add_step h (x - step n ν) ν
  rw [sub_add_cancel] at hstep
  exact hstep.symm

end Site

namespace Lattice

variable {l : Lattice} {n : ℕ} [NeZero n]

/-- The links of a phase have different numbers. -/
theorem number_inj_of_mem_phase (h : n < 2 ^ 63) {μ : Fin 4} {q : Parity} {j k : Link}
    (hj : j ∈ phase n μ q) (hk : k ∈ phase n μ q) (hjk : j.number n = k.number n) : j = k := by
  obtain ⟨x, -, rfl⟩ := mem_phase.1 hj
  obtain ⟨y, -, rfl⟩ := mem_phase.1 hk
  rw [Link.number_along h, Link.number_along h] at hjk
  rw [(Site.linkNumber_inj.1 hjk).1]

/-- No link around a link of a phase has the number of a link of the phase. -/
def Apart (l : Lattice) (phase : List Link) : Prop :=
  ∀ k ∈ phase, ∀ j ∈ k.neighbours, ∀ i ∈ phase, ∀ a, l.linkIndex j = .ok a → l.linkIndex i ≠ .ok a

/-- With an even number of points in each direction a phase is apart. -/
theorem Periodic.apart_phase (h : l.Periodic n) (heven : 2 ∣ n) (μ : Fin 4) (q : Parity) :
    l.Apart (phase n μ q) := by
  intro k hk j hj i hi a hja hia
  obtain ⟨x, hx, rfl⟩ := mem_phase.1 hk
  obtain ⟨y, hy, rfl⟩ := mem_phase.1 hi
  obtain ⟨rfl, -⟩ := h.linkIndex_eq_ok_iff.1 hia
  rw [Site.site_point h.lt] at hja
  obtain ⟨p, ν, hνμ, rfl | ⟨rfl, hp⟩⟩ := Link.neighbours_cases n hj
  · exact hνμ (Site.linkNumber_inj.1 (h.linkIndex_eq_ok_iff.1 hja).1).2.symm
  · have hsite : y = p.site n := (Site.linkNumber_inj.1 (h.linkIndex_eq_ok_iff.1 hja).1).1
    rw [Site.site_point h.lt] at hp
    rcases hp with hp | hp
    · exact Site.ofSum_height_add_step heven x ν (by rw [← hp, ← hsite, hy, hx])
    · exact Site.ofSum_height_sub_step heven x ν (by rw [← hp, ← hsite, hy, hx])

end Lattice

/-! ### Phases are isolated -/

variable {R : Type} [Zero R] [One R] [Add R] [Sub R] [Mul R] [Neg R] [Div R] [NatCast R]
  [Acceptance R] {n : ℕ} [NeZero n] {s : LatticeState R} {pool : Pool R}

/-- What is written for the other links of a phase is not read by the proposal for a link. -/
theorem evaluate_phase_stable (h : s.links.Fills s.lattice n) (hn : 2 ≤ n) (heven : 2 ∣ n)
    (seed : UInt64) {μ : Fin 4} {q : Parity} {k : Link} (hk : k ∈ Lattice.phase n μ q)
    {t : LatticeState R}
    (ht : s.SameOff t fun i => ∃ j ∈ Lattice.phase n μ q, j ≠ k ∧ j.number n = i) :
    evaluate pool seed t k = evaluate pool seed s k := by
  have hlt := h.numbered.periodic.lt
  have hdim : s.lattice.dim ≠ 1 := Lattice.dim_ne_one (hn.trans_eq h.numbered.dim_eq.symm)
  have hnumber : ∀ j ∈ Lattice.phase n μ q, s.lattice.linkIndex j = .ok (j.number n) := by
    intro j hj
    obtain ⟨y, -, rfl⟩ := Lattice.mem_phase.1 hj
    rw [Link.number_along hlt, h.numbered.linkIndex_eq, Site.site_point hlt]
  refine evaluate_eq_of_neighbours ht.lattice_eq ht.beta_eq hdim seed fun j hj =>
    Checked.bind_congr fun i hji => ht.at_eq ?_
  rintro ⟨i', hi', hne, rfl⟩
  rcases List.mem_cons.1 hj with rfl | hj
  · -- another link of the phase has another number
    rw [hnumber j hk, Except.ok.injEq] at hji
    exact hne (Lattice.number_inj_of_mem_phase hlt hi' hk hji.symm)
  · exact h.numbered.periodic.apart_phase heven μ q k hk j hj i' hi' _ hji (hnumber i' hi')

/-- The phases of a lattice with a checkerboard are isolated. -/
theorem isolated_phase (h : s.links.Fills s.lattice n) (hn : 2 ≤ n) (heven : 2 ∣ n)
    (hpool : 0 < pool.matrices.size) (seed : UInt64) (μ : Fin 4) (q : Parity) :
    Isolated pool seed s (Link.number n) (Lattice.phase n μ q) where
  nodup := Lattice.nodup_phase h.numbered.periodic.lt μ q
  number_lt := by
    intro k hk
    obtain ⟨x, -, rfl⟩ := Lattice.mem_phase.1 hk
    rw [Link.number_along h.numbered.periodic.lt]
    exact h.linkNumber_lt x μ
  number_inj := by
    intro j hj k hk hjk
    exact Lattice.number_inj_of_mem_phase h.numbered.periodic.lt hj hk hjk
  evaluate_cases := by
    intro k hk
    obtain ⟨x, -, rfl⟩ := Lattice.mem_phase.1 hk
    rw [Link.number_along h.numbered.periodic.lt]
    exact (evaluate_cases h hn hpool seed x μ).imp_right And.left
  evaluate_stable := fun k hk t ht => evaluate_phase_stable h hn heven seed hk ht

/-! ### Confluence -/

omit [NeZero n] in
/-- **A phase is confluent.**  On a complete state of a lattice with a checkerboard, whatever the
order in which the links of a phase are evaluated and committed, the phase ends in the same field
with the same updates and the same number of accepted ones, and these are what evaluating all links
before committing any gives. -/
theorem LatticeState.Complete.confluent (h : s.Complete) (heven : 2 ∣ s.lattice.dim.toNat)
    (hpool : 0 < pool.matrices.size) (seed : UInt64) :
    ∃ phases, s.lattice.phases = .ok phases ∧ phases.length = 8 ∧
      ∀ phase ∈ phases, ∀ es, Interleaving phase es → ∀ accepted,
        ((PhaseRun.start s accepted).run pool seed es).map
            (fun c => ((c.state, c.accepted), phase.map c.updates)) =
          (do
            let updates ← phase.mapM (evaluate pool seed s)
            let sn ← parallelPhase pool seed (s, accepted) phase
            return (sn, updates.map some)) := by
  have : NeZero s.lattice.dim.toNat := ⟨h.dim_pos.ne'⟩
  have hn : 2 ≤ s.lattice.dim.toNat := Nat.le_of_dvd h.dim_pos heven
  refine ⟨_, h.fills.numbered.phases_eq, rfl, fun phase hphase es hes accepted => ?_⟩
  obtain ⟨μq, -, rfl⟩ := List.mem_map.1 hphase
  exact (isolated_phase h.fills hn heven hpool seed μq.1 μq.2).run_eq hes accepted

/-- The smallest checkerboard, under the schedule that commits each link before the next is
evaluated. -/
theorem confluent_inTurn_of_two_points :
    ∃ phases, (Lattice.mk 2).phases = .ok phases ∧ phases.length = 8 ∧
      ∀ phase ∈ phases, ∀ accepted,
        ((PhaseRun.start ⟨⟨2⟩, 1, ⟨Array.replicate 64 1⟩⟩ accepted).run
            (⟨#[1], .standard⟩ : Pool Float) 7 (inTurn phase)).map
            (fun c => ((c.state, c.accepted), phase.map c.updates)) =
          (do
            let updates ← phase.mapM
              (evaluate ⟨#[1], .standard⟩ 7 ⟨⟨2⟩, 1, ⟨Array.replicate 64 1⟩⟩)
            let sn ← parallelPhase ⟨#[1], .standard⟩ 7
              (⟨⟨2⟩, 1, ⟨Array.replicate 64 1⟩⟩, accepted) phase
            return (sn, updates.map some)) := by
  have hcomplete : (⟨⟨2⟩, 1, ⟨Array.replicate 64 1⟩⟩ : LatticeState Float).Complete :=
    ⟨by decide, by decide, by decide⟩
  obtain ⟨phases, hphases, hlength, hrun⟩ := LatticeState.Complete.confluent hcomplete (by decide)
    (show 0 < (⟨#[1], .standard⟩ : Pool Float).matrices.size by decide) 7
  refine ⟨phases, hphases, hlength, fun phase hphase => ?_⟩
  refine hrun phase hphase (inTurn phase) (interleaving_inTurn ?_)
  have hnumbered : (Lattice.mk 2).Numbered 2 := ⟨rfl, by decide⟩
  rw [hnumbered.phases_eq, Except.ok.injEq] at hphases
  subst hphases
  obtain ⟨μq, -, rfl⟩ := List.mem_map.1 hphase
  exact Lattice.nodup_phase (by decide) μq.1 μq.2

end PureGauge
