/-
**States, read on sites.**

A state that holds one matrix for each link of a lattice is a coupling and a configuration.  At a
point that can be moved along the squares of a link the staple is computed without a fault, and it
is the staple of the configuration at the site of the point.

Main definitions:

* `PureGauge.LatticeState.Complete` — a state with one matrix for each link of its lattice;
* `PureGauge.LatticeState.pointSum` — the sum over the six squares at a point.

Main results:

* `PureGauge.LatticeState.staple_eq_of_neighbours` — the staple of a link reads the links around it;
* `PureGauge.LatticeState.staple_eq_of_clear` — the staple is that of the configuration.
-/
import PureGauge.State.Action
import PureGauge.Proofs.Field.Configuration
import PureGauge.Proofs.Lattice.Neighbours

namespace PureGauge

variable {R : Type} {n : ℕ} [NeZero n] [Zero R] [One R] [Add R] [Sub R] [Mul R] [Neg R]

namespace LatticeState

/-- The lattice has at least one point, its links can be numbered by words, and there is one matrix
for each of them. -/
structure Complete {R : Type} (s : LatticeState R) : Prop where
  dim_pos : 0 < s.lattice.dim.toNat
  links_lt : 4 * s.lattice.dim.toNat ^ 4 < 2 ^ 64
  size_eq : s.links.size = 4 * s.lattice.dim.toNat ^ 4

theorem Complete.fills {R : Type} {s : LatticeState R} (h : s.Complete) :
    s.links.Fills s.lattice s.lattice.dim.toNat :=
  ⟨⟨rfl, h.links_lt⟩, h.size_eq⟩

/-- The sum of the values of the six squares at a point. -/
def pointSum [Div R] [NatCast R] (s : LatticeState R) (x : Point) : Checked R := do
  return realSum (← Direction.planes.mapM fun (μ, ν) => s.links.plaquette s.lattice x μ ν)

variable {s t : LatticeState R}

omit [NeZero n] in
/-- States of one lattice that agree on the links around a link have the same staple there, or stop
with the same fault. -/
theorem staple_eq_of_neighbours (hlattice : t.lattice = s.lattice) {k : Link}
    (h : ∀ j ∈ k.neighbours, t.links.link s.lattice j = s.links.link s.lattice j) :
    t.staple k = s.staple k := by
  rw [staple, staple, hlattice]
  refine Checked.bind_congr fun ds hds => Checked.foldlM_congr (fun sum ν hν => ?_) 0
  have hside : ∀ j, .ok j ∈ k.sides ν → t.links.link s.lattice j = s.links.link s.lattice j :=
    fun j hj => h j (Link.mem_neighbours.2 ⟨ν, Direction.eq_filter_of_orthogonal hds ▸ hν, hj⟩)
  -- the reads follow the sides of the two squares in the order of the list
  refine Checked.bind_congr fun ahead hahead => ?_
  simp only [hside ⟨ahead, ν⟩ (by simp [Link.sides, hahead]),
    hside ⟨k.pos, ν⟩ (by simp [Link.sides])]
  refine Checked.bind_congr fun a _ => Checked.bind_congr fun aside haside => ?_
  simp only [hside ⟨aside, k.dir⟩ (by simp [Link.sides, haside])]
  refine Checked.bind_congr fun b _ => Checked.bind_congr fun c _ =>
    Checked.bind_congr fun behind hbehind => Checked.bind_congr fun across hacross => ?_
  simp only [hside ⟨across, ν⟩ (by simp [Link.sides, hahead, hacross]),
    hside ⟨behind, k.dir⟩ (by simp [Link.sides, hbehind]),
    hside ⟨behind, ν⟩ (by simp [Link.sides, hbehind])]

theorem staple_eq_of_clear (h : s.links.Fills s.lattice n) {p : Point} {μ : Fin 4}
    (hp : p.Clear μ) :
    s.staple ⟨p, .along μ⟩ = .ok ((s.links.configuration n).staple (p.site n) μ) := by
  rw [staple, Direction.orthogonal_along, Checked.ok_bind, List.foldlM_map, Configuration.staple]
  refine Checked.foldlM_eq_ok (fun sum ν hν => ?_) 0
  have hνμ : ν ≠ μ := Direction.mem_others.1 hν
  have ahead := Point.shift_one hp.1
  have aside := Point.shift_one (hp.2 ν hνμ).2
  have behind := Point.shift_neg_one (hp.2 ν hνμ).1
  have across : (p.moved μ 1).shift (.along ν) (-1) = .ok ((p.moved μ 1).moved ν (-1)) := by
    refine Point.shift_neg_one ?_
    rw [Point.moved_coord_of_ne p 1 hνμ]
    exact (hp.2 ν hνμ).1
  simp only [ahead, aside, behind, across, h.link_eq, Checked.ok_bind,
    Point.site_of_shift_one ahead, Point.site_of_shift_one aside,
    Point.site_of_shift_neg_one behind, Point.site_of_shift_neg_one across, Checked.pure_eq]
  rfl

theorem staple_eq (h : s.links.Fills s.lattice n) {p : Point} (hp : p.Inner) (μ : Fin 4) :
    s.staple ⟨p, .along μ⟩ = .ok ((s.links.configuration n).staple (p.site n) μ) :=
  staple_eq_of_clear h (hp.clear μ)

end LatticeState

end PureGauge
