/-
**When a phase does not read what it writes.**

A phase on a lattice with a checkerboard is apart: no link around one of its links belongs to it.
With an odd number of points in each direction this fails, because the step back from the first
point of a line leads to the last one, whose coordinate is even as well.  So the checkerboard is
what makes it possible to propose the links of a phase together.

Main results:

* `PureGauge.Lattice.Counted.two_dvd_of_apart` — phases are apart only if the number of points is
  even;
* `PureGauge.Lattice.propose_local_and_apart_iff` — what a proposal reads, and when phases are
  apart.
-/
import PureGauge.Proofs.State.Queries
import PureGauge.Proofs.Sweep.Checkerboard

namespace PureGauge

/-- The last site of the line that begins at the site with number zero. -/
theorem Site.neg_step_three (n : ℕ) [NeZero n] :
    (-step n 3).number = n - 1 ∧ (-step n 3).height = n - 1 := by
  have hlast : (-step n 3) 3 = -1 := by rw [Pi.neg_apply, step_self]
  have hzero : ∀ μ, μ ≠ 3 → ((-step n 3) μ).val = 0 := by
    intro μ hμ
    rw [Pi.neg_apply, step_of_ne hμ, neg_zero, ZMod.val_zero]
  have hval : (-1 : ZMod n).val = n - 1 := by
    obtain ⟨m, rfl⟩ := Nat.exists_eq_succ_of_ne_zero (NeZero.ne n)
    exact ZMod.val_neg_one m
  rw [number, height, hzero 0 (by decide), hzero 1 (by decide), hzero 2 (by decide), hlast, hval]
  constructor
  · simp
  · simp

namespace Lattice

variable {l : Lattice} {n : ℕ}

/-- With an odd number of points in each direction the first phase is not apart. -/
theorem Counted.two_dvd_of_apart [NeZero n] (h : l.Counted n) (hapart : l.Apart (phase n 0 .even)) :
    2 ∣ n := by
  by_contra hodd
  have hperiodic := h.periodic
  have hn := h.lt_65536
  obtain ⟨hnumber, hheight⟩ := Site.neg_step_three n
  have hpos := NeZero.pos n
  -- the last site of the first line is even, as the first one is
  have hfirst : (⟨(0 : Site n).point, .along 0⟩ : Link) ∈ phase n 0 .even :=
    mem_phase.2 ⟨0, by simp [Site.height, Parity.ofSum], rfl⟩
  have hlast : (⟨(-Site.step n 3).point, .along 0⟩ : Link) ∈ phase n 0 .even := by
    refine mem_phase.2 ⟨-Site.step n 3, ?_, rfl⟩
    rw [hheight, Parity.ofSum, if_pos (by omega)]
  -- a step back from the first site leads there
  have hback := Point.shift_neg_one (Site.point_inner (by omega) (0 : Site n) 3).1
  have hsite := Point.site_of_shift_neg_one (n := n) hback
  rw [Site.site_point hperiodic.lt, zero_sub] at hsite
  have hneighbour : (⟨(0 : Site n).point.moved 3 (-1), .along 0⟩ : Link) ∈
      (⟨(0 : Site n).point, .along 0⟩ : Link).neighbours := by
    refine Link.mem_neighbours.2 ⟨.along 3, ?_, by simp [Link.sides, hback]⟩
    rw [Direction.filter_ne_along]
    exact List.mem_map_of_mem (by decide)
  have hindex : (-Site.step n 3).linkNumber 0 < 2 ^ 64 := by
    rw [Site.linkNumber, hnumber]
    simp only [Fin.val_zero]
    omega
  refine hapart _ hfirst _ hneighbour _ hlast _ (hperiodic.linkIndex_eq_ok_iff.2 ⟨rfl, ?_⟩)
    (hperiodic.linkIndex_eq_ok_iff.2 ⟨?_, ?_⟩)
  · rw [hsite]
    exact hindex
  · rw [hsite, Site.site_point hperiodic.lt]
  · rw [hsite]
    exact hindex

end Lattice

/-! ### What a proposal reads -/

variable {R G : Type} [Zero R] [One R] [Add R] [Sub R] [Mul R] [Neg R] [Div R] [NatCast R]
  [Acceptance R] [WordSource G]

/-- **Locality and independence of phases.**  There are eighteen links around each link.  With at
least two points in each direction, two states that agree in lattice and coupling, at a link and at
the links around it are proposed the same update for the link, and the source is left the same,
whatever the states are elsewhere.  There are phases as long as the number of points is a word, and
in none of them a link around one of its links has the number of one of its links if and only if the
lattice has a checkerboard. -/
theorem Lattice.propose_local_and_apart_iff (l : Lattice) (hdim : 0 < l.dim.toNat) :
    (∀ k : Link, k.Within → k.neighbours.length = 18) ∧
      (2 ≤ l.dim.toNat → ∀ (s t : LatticeState R) (k : Link), s.lattice = l → t.lattice = l →
        t.beta = s.beta → (∀ j ∈ k :: k.neighbours, t.links.link l j = s.links.link l j) →
          ∀ (pool : Pool R) (g : G), propose pool t k g = propose pool s k g) ∧
      ((∃ phases, l.phases = .ok phases) ↔ l.dim.toNat ^ 4 < 2 ^ 64) ∧
      ∀ phases, l.phases = .ok phases →
        (∀ phase ∈ phases, ∀ k ∈ phase, k.Within) ∧
          ((∀ phase ∈ phases, l.Apart phase) ↔ l.hasCheckerboard = true) := by
  have : NeZero l.dim.toNat := ⟨hdim.ne'⟩
  refine ⟨fun k hk => ?_, fun hn s t k hs ht hbeta hagree pool g => ?_, exists_phases_iff hdim,
    fun phases hphases => ?_⟩
  · obtain ⟨p, μ, rfl, hp⟩ := hk.exists_along
    exact Link.length_neighbours (hp.clear μ)
  · subst hs
    rw [propose_eq_of_neighbours ht hbeta (dim_ne_one hn) hagree]
  · have hcounted : l.Counted l.dim.toNat := ⟨rfl, (exists_phases_iff hdim).1 ⟨phases, hphases⟩⟩
    have hn := hcounted.lt_65536
    rw [hcounted.phases_eq, Except.ok.injEq] at hphases
    subst hphases
    refine ⟨fun phase hphase k hk => ?_, ?_, fun hboard phase hphase => ?_⟩
    · obtain ⟨μq, -, rfl⟩ := List.mem_map.1 hphase
      obtain ⟨x, -, rfl⟩ := mem_phase.1 hk
      exact ⟨by rw [Direction.toNat_index_along]; exact μq.1.2, Site.point_inner (by omega) x⟩
    · intro hapart
      exact hasCheckerboard_iff.2 (hcounted.two_dvd_of_apart (hapart _ (List.mem_cons_self ..)))
    · obtain ⟨μq, -, rfl⟩ := List.mem_map.1 hphase
      exact hcounted.periodic.apart_phase (hasCheckerboard_iff.1 hboard) μq.1 μq.2

/-- Three points in each direction: the phases are not apart, and the last link of the lattice does
not count for the first one. -/
theorem propose_local_and_apart_three :
    (∃ phases, (Lattice.mk 3).phases = .ok phases ∧
      ¬ ∀ phase ∈ phases, (Lattice.mk 3).Apart phase) ∧
      propose (⟨#[1], .standard⟩ : Pool Float)
        ⟨⟨3⟩, 5, ⟨(Array.replicate 324 1).setIfInBounds 323 0⟩⟩
          ⟨.origin, .along 0⟩ (linkSource 7 0) =
        propose ⟨#[1], .standard⟩ ⟨⟨3⟩, 5, ⟨Array.replicate 324 1⟩⟩ ⟨.origin, .along 0⟩
          (linkSource 7 0) := by
  obtain ⟨-, hlocal, hexists, hapart⟩ :=
    Lattice.propose_local_and_apart_iff (R := Float) (G := Xoshiro) ⟨3⟩ (by decide)
  obtain ⟨phases, hphases⟩ := hexists.2 (by decide)
  -- none of the links around the first one has the last number
  have hfar : ∀ j ∈ (⟨.origin, .along 0⟩ : Link) :: (⟨.origin, .along 0⟩ : Link).neighbours,
      (Lattice.mk 3).linkIndex j ≠ .ok 323 := by decide +kernel
  have hagree : ∀ j ∈ (⟨.origin, .along 0⟩ : Link) :: (⟨.origin, .along 0⟩ : Link).neighbours,
      (⟨(Array.replicate 324 1).setIfInBounds 323 0⟩ : LinkField Float).link ⟨3⟩ j =
        (⟨Array.replicate 324 1⟩ : LinkField Float).link ⟨3⟩ j := by
    intro j hj
    refine Checked.bind_congr fun i hi => ?_
    have hne : 323 ≠ i := fun heq => hfar j hj (heq ▸ hi)
    simp only [LinkField.at, Array.getElem?_setIfInBounds_ne hne, Array.size_setIfInBounds]
  refine ⟨⟨phases, hphases, fun hall => absurd ((hapart phases hphases).2.1 hall) (by decide)⟩, ?_⟩
  exact hlocal (by decide) ⟨⟨3⟩, 5, ⟨Array.replicate 324 1⟩⟩
    ⟨⟨3⟩, 5, ⟨(Array.replicate 324 1).setIfInBounds 323 0⟩⟩ _ rfl rfl
      (Eq.refl (5 : Float)) hagree _ _

end PureGauge
