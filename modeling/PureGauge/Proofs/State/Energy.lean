/-
**The Wilson action.**

The action of a state is `-β` times the sum of the values of all plaquettes, six at each point.
Over an exact field it is a multiple of the sum over the configuration, and when the matrix of a
link is replaced, it changes by the difference of the two local actions that are computed from the
staple.

Main definitions:

* `PureGauge.LatticeState.wilsonAction` — the action, summed up in the order of the points;
* `PureGauge.LatticeState.energy` — the same as a function of the configuration.

Main results:

* `PureGauge.LatticeState.wilsonAction_eq` — the two agree on complete states;
* `PureGauge.LatticeState.averagePlaquette_eq` — the average plaquette as a function of the
  configuration;
* `PureGauge.LatticeState.energy_sub` — the change of the action when a matrix is replaced.
-/
import PureGauge.Proofs.Field.Total
import PureGauge.Proofs.State.Sites
import Mathlib.Algebra.Field.Basic
import Mathlib.Algebra.BigOperators.Field

namespace PureGauge

/-- A third of the sum of all traces is the sum of the values of all squares. -/
theorem Configuration.total_div_three {F : Type} [Field F] {n : ℕ} [NeZero n]
    (U : Configuration F n) :
    U.total / ((3 : ℕ) : F) = ∑ x, (Direction.pairs.map fun μν =>
      LinkField.meanTrace (U.plaquetteMatrix x μν.1 μν.2)).sum := by
  simp only [LinkField.meanTrace, ← Mat3.reTrace_apply, div_eq_mul_inv, List.sum_map_mul_right]
  rw [← Finset.sum_mul, total]

namespace LatticeState

/-- The Wilson action: `-β` times the sum of the values of all plaquettes, six at each point. -/
def wilsonAction {R : Type} [Zero R] [One R] [Add R] [Sub R] [Mul R] [Neg R] [Div R] [NatCast R]
    (s : LatticeState R) : Checked R := do
  let points ← s.lattice.points
  let sums ← points.mapM fun x => do
    return realSum (← Direction.planes.mapM fun (μ, ν) => s.links.plaquette s.lattice x μ ν)
  return -s.beta * realSum sums

variable {F : Type} [Field F] {s t : LatticeState F} {n : ℕ} [NeZero n]

/-- The action as a function of the configuration. -/
def energy (s : LatticeState F) (n : ℕ) [NeZero n] : F :=
  -s.beta * ((s.links.configuration n).total / ((3 : ℕ) : F))

/-- The sum of the values of the squares at a point. -/
theorem pointSum_eq (h : s.links.Fills s.lattice n) (x : Site n) :
    s.pointSum x.point = .ok ((Direction.pairs.map fun μν =>
      ((s.links.configuration n).plaquetteMatrix x μν.1 μν.2).reTrace).sum / ((3 : ℕ) : F)) := by
  have hlt := h.numbered.lt_65536
  have hinner := Site.point_inner (n := n) (by omega) x
  have hvalue : ∀ μν ∈ Direction.pairs,
      s.links.plaquette s.lattice x.point (.along μν.1) (.along μν.2) =
        .ok (((s.links.configuration n).plaquetteMatrix x μν.1 μν.2).reTrace / ((3 : ℕ) : F)) := by
    intro μν hμν
    rw [h.plaquette_eq (Direction.ne_of_mem_pairs hμν) (hinner.shift_one μν.1)
      (hinner.shift_one μν.2),
      Site.site_point (by omega)]
    rfl
  rw [pointSum, Direction.planes_eq, List.mapM_map, Function.comp_def]
  simp only []
  rw [Checked.mapM_eq_ok hvalue, Checked.ok_bind, Checked.pure_eq, realSum_eq_sum]
  simp only [div_eq_mul_inv]
  rw [List.sum_map_mul_right]

/-- Summed up in the order of the points, the squares are those of the configuration. -/
theorem exists_pointSums (h : s.links.Fills s.lattice n) :
    ∃ sums, ((List.range (n ^ 4)).map (Lattice.pointOfDigits n)).mapM s.pointSum = .ok sums ∧
      realSum sums = (s.links.configuration n).total / ((3 : ℕ) : F) := by
  have hpoint : ∀ i ∈ List.range (n ^ 4), s.pointSum (Lattice.pointOfDigits n i) =
      .ok ((Direction.pairs.map fun μν => ((s.links.configuration n).plaquetteMatrix
        (Site.ofNumber n i) μν.1 μν.2).reTrace).sum / ((3 : ℕ) : F)) := by
    intro i _
    rw [← Site.point_ofNumber]
    exact pointSum_eq h (Site.ofNumber n i)
  refine ⟨_, by rw [List.mapM_map, Function.comp_def]; exact Checked.mapM_eq_ok hpoint, ?_⟩
  rw [realSum_eq_sum, Configuration.total, Finset.sum_div, ← Equiv.sum_comp (Site.numbering n)]
  exact Finset.sum_range _

/-- The action is that of the configuration. -/
theorem wilsonAction_eq (h : s.links.Fills s.lattice n) : s.wilsonAction = .ok (s.energy n) := by
  obtain ⟨sums, hsums, htotal⟩ := exists_pointSums h
  change (s.lattice.points >>= fun points => points.mapM s.pointSum >>= _) = _
  rw [h.numbered.points_eq, Checked.ok_bind, hsums, Checked.ok_bind, Checked.pure_eq, htotal,
    energy]

/-- The average plaquette is computed from the configuration, and needs their number to be a
word. -/
theorem averagePlaquette_eq (h : s.links.Fills s.lattice n) :
    s.averagePlaquette = (Word.mul 6 (n ^ 4)).map fun (count : ℕ) =>
      (s.links.configuration n).total / ((3 : ℕ) : F) / (count : F) := by
  obtain ⟨sums, hsums, htotal⟩ := exists_pointSums h
  change (s.lattice.points >>= fun points => points.mapM s.pointSum >>= _) = _
  rw [h.numbered.points_eq, Checked.ok_bind, hsums, Checked.ok_bind, h.numbered.pointCount_eq,
    Checked.ok_bind, htotal]
  rfl

theorem eq_of_averagePlaquette (h : s.links.Fills s.lattice n) {average : F}
    (haverage : s.averagePlaquette = .ok average) :
    average = (s.links.configuration n).total / ((3 : ℕ) : F) / ((6 * n ^ 4 : ℕ) : F) := by
  rw [averagePlaquette_eq h] at haverage
  cases hsix : Word.mul 6 (n ^ 4) with
  | error fault =>
      rw [hsix] at haverage
      cases haverage
  | ok count =>
      rw [hsix, Checked.map_ok, Except.ok.injEq] at haverage
      rw [← haverage, (Word.mul_eq_ok_iff.1 hsix).2]

/-- When the matrix of a link is replaced, the action changes by the difference of the local actions
computed from the staple. -/
theorem energy_sub (hn : 2 ≤ n) {x : Site n} {μ : Fin 4} {m : Mat3 F} (hbeta : t.beta = s.beta)
    (ht : t.links.configuration n = (s.links.configuration n).set x μ m) :
    t.energy n - s.energy n =
      s.stapleAction m ((s.links.configuration n).staple x μ) -
        s.stapleAction (s.links.configuration n x μ) ((s.links.configuration n).staple x μ) := by
  have hchange := Configuration.total_set_sub (U := s.links.configuration n) (x := x) (μ := μ)
    (m := m) hn
  rw [sub_mul, map_sub] at hchange
  rw [energy, energy, hbeta, ht, stapleAction, stapleAction, ← mul_sub, ← sub_div, hchange,
    Mat3.reTrace_apply, Mat3.reTrace_apply, ← sub_div, ← mul_sub, mul_div_assoc]

end LatticeState

end PureGauge
