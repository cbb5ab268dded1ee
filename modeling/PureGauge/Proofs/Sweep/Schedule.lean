/-
**The order of a sweep.**

The eight phases of a sweep sort the links of the lattice: by the direction first, and then by the
parity of the point.  A phase has all links of its direction and parity, in the order of their
numbers, and the phases together are the links of the lattice in another order.

Main definitions:

* `PureGauge.Parity.place` — the place of a parity among the two phases of a direction.

Main results:

* `PureGauge.Lattice.Numbered.mapM_linkIndex_phase` — the numbers of the links of a phase ascend;
* `PureGauge.Lattice.perm_flatten_phaseList` — the phases together are all links;
* `PureGauge.Lattice.phases_partition` — the schedule is a partition.
-/
import PureGauge.Proofs.Lattice.Links
import PureGauge.Proofs.Sweep.Coverage

namespace PureGauge

/-- The place of a parity in the order of visits: even points are visited before odd ones. -/
def Parity.place : Parity → ℕ
  | even => 0
  | odd => 1

namespace Lattice

/-! ### One phase -/

theorem getElem?_phaseOrder (μ : Fin 4) (q : Parity) :
    phaseOrder[2 * μ.val + q.place]? = some (μ, q) := by
  cases q with
  | even =>
      revert μ
      decide
  | odd =>
      revert μ
      decide

variable {l : Lattice} {n : ℕ} [NeZero n]

/-- A phase consists of the links of the lattice with its direction and parity. -/
theorem Numbered.mem_phase_iff (h : l.Numbered n) {μ : Fin 4} {q : Parity} {k : Link} :
    k ∈ phase n μ q ↔ k ∈ linkList n ∧ k.dir = .along μ ∧ l.parity k.pos = .ok q := by
  have hlt := h.lt_65536
  have hparity : ∀ x : Site n, l.parity x.point = .ok (Parity.ofSum x.height) := by
    intro x
    rw [h.periodic.parity_eq (by omega), Site.site_point h.periodic.lt]
  rw [mem_phase, mem_linkList]
  constructor
  · rintro ⟨x, rfl, rfl⟩
    exact ⟨⟨x, μ, rfl⟩, rfl, hparity x⟩
  · rintro ⟨⟨x, ν, rfl⟩, hdir, hq⟩
    rw [hparity, Except.ok.injEq] at hq
    exact ⟨x, hq, congrArg (Link.mk x.point) hdir⟩

/-- The links of a phase have numbers, and the numbers ascend. -/
theorem Numbered.mapM_linkIndex_phase (h : l.Numbered n) (μ : Fin 4) (q : Parity) :
    ∃ indices, (phase n μ q).mapM l.linkIndex = .ok indices ∧ indices.Pairwise (· < ·) := by
  have hindex : ∀ i ∈ (List.range (n ^ 4)).filter fun i =>
        decide (Parity.ofSum (Site.ofNumber n i).height = q),
      l.linkIndex ⟨pointOfDigits n i, .along μ⟩ = .ok (i * 4 + μ) := by
    intro i hi
    have hlt : i < n ^ 4 := List.mem_range.1 (List.mem_filter.1 hi).1
    rw [← Site.point_ofNumber, h.linkIndex_link, Site.linkNumber, Site.number_ofNumber hlt]
  refine ⟨_, by rw [phase, List.mapM_map]; exact Checked.mapM_eq_ok hindex, ?_⟩
  rw [List.pairwise_map]
  refine (List.pairwise_lt_range.filter _).imp fun {i j} hij => ?_
  omega

/-! ### All phases -/

/-- The phases together are the links of the lattice. -/
theorem perm_flatten_phaseList (h : n < 2 ^ 63) : (phaseList n).flatten.Perm (linkList n) := by
  refine (List.perm_ext_iff_of_nodup (nodup_flatten_phaseList h) (nodup_linkList h)).2 fun k => ?_
  rw [mem_flatten_phaseList, mem_linkList]

/-- The links of all phases have numbers, and these are the numbers of the links of the lattice. -/
theorem Numbered.mapM_linkIndex_phaseList (h : l.Numbered n) :
    ∃ indices, (phaseList n).flatten.mapM l.linkIndex = .ok indices ∧
      indices.Perm (List.range (4 * n ^ 4)) := by
  have hlt := h.periodic.lt
  refine ⟨_, Checked.mapM_eq_ok (g := Link.number n) fun k hk => ?_, numbers_flatten_phaseList hlt⟩
  obtain ⟨x, μ, rfl⟩ := mem_flatten_phaseList.1 hk
  rw [h.linkIndex_link, Link.number_along hlt]

omit [NeZero n] in
/-- **The schedule is a partition.**  A lattice whose links are numbered by words has eight phases.
The one at the place `2 μ` or `2 μ + 1` consists of the links of the lattice in direction `μ` whose
points are even or odd, and its links are in the order of their numbers.  One after the other the
phases are all links in another order, so that each number of a link occurs once. -/
theorem phases_partition (l : Lattice) (hdim : 0 < l.dim.toNat)
    (hlinks : 4 * l.dim.toNat ^ 4 < 2 ^ 64) :
    ∃ phases links count, l.phases = .ok phases ∧ phases.length = 8 ∧ l.links = .ok links ∧
      l.linkCount = .ok count ∧ links.mapM l.linkIndex = .ok (List.range count) ∧
      (∀ (μ : Fin 4) (q : Parity), ∃ phase, phases[2 * μ.val + q.place]? = some phase ∧
        (∀ k, k ∈ phase ↔ k ∈ links ∧ k.dir = .along μ ∧ l.parity k.pos = .ok q) ∧
        ∃ indices, phase.mapM l.linkIndex = .ok indices ∧ indices.Pairwise (· < ·)) ∧
      phases.flatten.Perm links ∧
      ∃ indices, phases.flatten.mapM l.linkIndex = .ok indices ∧
        indices.Perm (List.range count) := by
  have : NeZero l.dim.toNat := ⟨hdim.ne'⟩
  have h : l.Numbered l.dim.toNat := ⟨rfl, hlinks⟩
  refine ⟨phaseList l.dim.toNat, _, _, h.phases_eq, rfl, h.links_eq, h.linkCount_eq,
    h.mapM_linkIndex_linkList, fun μ q => ?_, perm_flatten_phaseList h.periodic.lt,
    h.mapM_linkIndex_phaseList⟩
  refine ⟨phase l.dim.toNat μ q, ?_, fun k => h.mem_phase_iff, h.mapM_linkIndex_phase μ q⟩
  rw [phaseList, List.getElem?_map, getElem?_phaseOrder, Option.map_some]

/-- The largest lattice whose links are numbered by words. -/
theorem phases_partition_largest :
    ∃ phases links, (Lattice.mk 46340).phases = .ok phases ∧ phases.length = 8 ∧
      (Lattice.mk 46340).links = .ok links ∧ phases.flatten.Perm links := by
  obtain ⟨phases, links, -, hphases, hlength, hlinks, -, -, -, hperm, -⟩ :=
    phases_partition ⟨46340⟩ (by decide) (by decide)
  exact ⟨phases, links, hphases, hlength, hlinks, hperm⟩

end Lattice

end PureGauge
