/-
**The phases cover the lattice.**

The eight phases of a sweep divide the links of the lattice by their direction and by the colour of
their point, so that every link is in one phase and is there once.  Read one after the other, the
phases list the links in an order in which each of the numbers of the links occurs exactly once.

Main results:

* `PureGauge.Lattice.nodup_flatten_phaseList` — no link is visited twice in a sweep;
* `PureGauge.Lattice.numbers_flatten_phaseList` — and every number of a link occurs.
-/
import PureGauge.Proofs.Sweep.Checkerboard

namespace PureGauge

namespace Lattice

variable {n : ℕ}

/-- The phases of a sweep over a lattice with `n` points in each direction. -/
def phaseList (n : ℕ) : List (List Link) := phaseOrder.map fun μq => phase n μq.1 μq.2

theorem mem_phaseOrder (μ : Fin 4) (q : Parity) : (μ, q) ∈ phaseOrder := by
  cases q with
  | even =>
      revert μ
      decide
  | odd =>
      revert μ
      decide

variable [NeZero n]

/-- The links that a sweep visits are those that leave the points of the lattice. -/
theorem mem_flatten_phaseList {k : Link} :
    k ∈ (phaseList n).flatten ↔ ∃ (x : Site n) (μ : Fin 4), k = ⟨x.point, .along μ⟩ := by
  rw [List.mem_flatten]
  constructor
  · rintro ⟨links, hlinks, hk⟩
    obtain ⟨μq, -, rfl⟩ := List.mem_map.1 hlinks
    obtain ⟨x, -, rfl⟩ := mem_phase.1 hk
    exact ⟨x, μq.1, rfl⟩
  · rintro ⟨x, μ, rfl⟩
    exact ⟨_, List.mem_map.2 ⟨_, mem_phaseOrder μ (Parity.ofSum x.height), rfl⟩,
      mem_phase.2 ⟨x, rfl, rfl⟩⟩

/-- No link is visited twice in a sweep. -/
theorem nodup_flatten_phaseList (h : n < 2 ^ 63) : (phaseList n).flatten.Nodup := by
  refine List.nodup_flatten.2 ⟨fun links hlinks => ?_, ?_⟩
  · obtain ⟨μq, -, rfl⟩ := List.mem_map.1 hlinks
    exact nodup_phase h μq.1 μq.2
  · rw [phaseList, List.pairwise_map]
    have horder : phaseOrder.Nodup := by decide
    refine horder.imp fun {μq νr} hne => ?_
    -- a link in both phases would leave a point of both colours, or in both directions
    intro k hμq hνr
    obtain ⟨x, hx, rfl⟩ := mem_phase.1 hμq
    obtain ⟨y, hy, heq⟩ := mem_phase.1 hνr
    rw [Link.mk.injEq, Direction.along_inj] at heq
    have hxy : x = y := Site.point_injective h heq.1
    exact hne (Prod.ext heq.2 (by rw [← hx, ← hy, hxy]))

/-- The numbers of the links that a sweep visits are the numbers of all links, each of them once. -/
theorem numbers_flatten_phaseList (h : n < 2 ^ 63) :
    ((phaseList n).flatten.map (Link.number n)).Perm (List.range (4 * n ^ 4)) := by
  have hnodup : ((phaseList n).flatten.map (Link.number n)).Nodup := by
    refine (nodup_flatten_phaseList h).map_on ?_
    intro j hj k hk hjk
    obtain ⟨x, μ, rfl⟩ := mem_flatten_phaseList.1 hj
    obtain ⟨y, ν, rfl⟩ := mem_flatten_phaseList.1 hk
    rw [Link.number_along h, Link.number_along h, Site.linkNumber_inj] at hjk
    rw [hjk.1, hjk.2]
  refine (List.perm_ext_iff_of_nodup hnodup List.nodup_range).2 fun i => ?_
  rw [List.mem_map, List.mem_range]
  constructor
  · rintro ⟨k, hk, rfl⟩
    obtain ⟨x, μ, rfl⟩ := mem_flatten_phaseList.1 hk
    rw [Link.number_along h]
    exact Site.linkNumber_lt x μ
  · intro hi
    obtain ⟨x, μ, rfl⟩ := Site.exists_linkNumber hi
    exact ⟨_, mem_flatten_phaseList.2 ⟨x, μ, rfl⟩, Link.number_along h x μ⟩

end Lattice

end PureGauge
