/-
**Gauge invariance.**

The values that a state is measured by are traces of products around squares, and a gauge
transformation conjugates these products.  So plaquettes, their sums, the local action of a link and
the average plaquette are the same before and after a transformation, and the staple of a link is
multiplied with the matrices at the ends of the link.

Main results:

* `PureGauge.LinkField.plaquette_eq_of_gauged` — a plaquette keeps its value;
* `PureGauge.LatticeState.Complete.gauge_invariant` — everything that a transformation keeps.
-/
import PureGauge.Proofs.Field.Gauge
import PureGauge.Proofs.State.Sites
import Mathlib.Algebra.Field.Basic

namespace PureGauge

variable {F : Type} [Field F] {n : ℕ} [NeZero n] {l : Lattice}

/-! ### Plaquettes -/

namespace LinkField

variable {f f' : LinkField F} {g : Site n → Mat3 F}

/-- A plaquette keeps its value, and if it cannot be computed, the fault is the same. -/
theorem plaquette_eq_of_gauged (h : f.Fills l n) (h' : f'.Fills l n) (hg : ∀ x, (g x).IsUnitary)
    (hf' : f'.configuration n = (f.configuration n).gauged g) (x : Point) (μ ν : Fin 4) :
    f'.plaquette l x (.along μ) (.along ν) = f.plaquette l x (.along μ) (.along ν) := by
  rw [plaquette, plaquette]
  rcases Fills.plaquetteMatrix_cases (R := F) l n x μ ν with ⟨fault, hfault⟩ | hok
  · rw [hfault f h, hfault f' h']
  · rw [hok f h, hok f' h', hf', Configuration.plaquetteMatrix_gauged hg, Checked.ok_bind,
      Checked.ok_bind, meanTrace, meanTrace, (hg _).trace_conj]

theorem plaquetteSum_eq_of_gauged (h : f.Fills l n) (h' : f'.Fills l n)
    (hg : ∀ x, (g x).IsUnitary) (hf' : f'.configuration n = (f.configuration n).gauged g)
    (x : Point) (μ : Fin 4) :
    f'.plaquetteSum l ⟨x, .along μ⟩ = f.plaquetteSum l ⟨x, .along μ⟩ := by
  simp only [plaquetteSum, Direction.orthogonal_along, Checked.ok_bind, List.mapM_map,
    Function.comp_def, plaquette_eq_of_gauged h h' hg hf']

end LinkField

/-! ### States -/

namespace LatticeState

variable {s : LatticeState F} {f : LinkField F} {g : Site n → Mat3 F}

theorem averagePlaquette_eq_of_gauged (h : s.links.Fills s.lattice n) (h' : f.Fills s.lattice n)
    (hg : ∀ x, (g x).IsUnitary) (hf : f.configuration n = (s.links.configuration n).gauged g) :
    { s with links := f }.averagePlaquette = s.averagePlaquette := by
  simp only [averagePlaquette, Direction.planes_eq, List.mapM_map, Function.comp_def,
    LinkField.plaquette_eq_of_gauged h h' hg hf]

omit [NeZero n] in
/-- **Gauge invariance.**  Whatever unitary matrices are given to the points of the lattice, the
field after the transformation has its products around squares conjugated with the matrix at their
first point, the values of plaquettes, their sums, the local action of every link and the average
plaquette are what they were, and the staple of a link is multiplied with the matrices at its
ends. -/
theorem Complete.gauge_invariant (h : s.Complete) {g : Point → Mat3 F}
    (hg : ∀ x, s.lattice.wrapPoint x = .ok x → (g x).IsUnitary) :
    ∃ f, s.links.gauged s.lattice g = .ok f ∧
      (∀ x, s.lattice.wrapPoint x = .ok x → ∀ μ ν, μ ≠ ν → ∃ m,
        s.links.plaquetteMatrix s.lattice x (.along μ) (.along ν) = .ok m ∧
        f.plaquetteMatrix s.lattice x (.along μ) (.along ν) = .ok (g x * m * (g x).adjoint)) ∧
      (∀ x μ ν, f.plaquette s.lattice x (.along μ) (.along ν) =
        s.links.plaquette s.lattice x (.along μ) (.along ν)) ∧
      (∀ x μ, f.plaquetteSum s.lattice ⟨x, .along μ⟩ =
        s.links.plaquetteSum s.lattice ⟨x, .along μ⟩) ∧
      (∀ x μ, { s with links := f }.localAction ⟨x, .along μ⟩ = s.localAction ⟨x, .along μ⟩) ∧
      { s with links := f }.averagePlaquette = s.averagePlaquette ∧
      ∀ x, s.lattice.wrapPoint x = .ok x → ∀ μ, ∃ y a,
        s.lattice.neighbour x (.along μ) 1 = .ok y ∧
        s.staple ⟨x, .along μ⟩ = .ok a ∧
        { s with links := f }.staple ⟨x, .along μ⟩ = .ok (g y * a * (g x).adjoint) := by
  have : NeZero s.lattice.dim.toNat := ⟨h.dim_pos.ne'⟩
  have hfills := h.fills
  have hperiodic := hfills.numbered.periodic
  have hlt := hfills.numbered.lt_65536
  obtain ⟨f, hok, hf, hconf⟩ := hfills.gauged_eq g
  -- the points that wrapping keeps are those of the sites
  have hunitary : ∀ x : Site s.lattice.dim.toNat, (g x.point).IsUnitary := by
    intro x
    refine hg x.point ?_
    rw [hperiodic.wrapPoint_eq, Site.site_point hperiodic.lt]
  have hinner : ∀ x : Site s.lattice.dim.toNat, x.point.Inner :=
    fun x => Site.point_inner (by omega) x
  refine ⟨f, hok, fun x hx μ ν hμν => ?_, LinkField.plaquette_eq_of_gauged hfills hf hunitary hconf,
    LinkField.plaquetteSum_eq_of_gauged hfills hf hunitary hconf, fun x μ => ?_,
    averagePlaquette_eq_of_gauged hfills hf hunitary hconf, fun x hx μ => ?_⟩
  · have hpoint := hperiodic.eq_point_of_wrapPoint hx
    generalize x.site s.lattice.dim.toNat = y at hpoint
    subst hpoint
    have hμ := Point.shift_one (hinner y μ).2
    have hν := Point.shift_one (hinner y ν).2
    refine ⟨_, hfills.plaquetteMatrix_eq hμν hμ hν, ?_⟩
    rw [hf.plaquetteMatrix_eq hμν hμ hν, hconf, Configuration.plaquetteMatrix_gauged hunitary,
      Site.site_point hperiodic.lt]
  · rw [localAction, localAction, LinkField.plaquetteSum_eq_of_gauged hfills hf hunitary hconf]
  · have hpoint := hperiodic.eq_point_of_wrapPoint hx
    generalize x.site s.lattice.dim.toNat = y at hpoint
    subst hpoint
    have hμ := Point.shift_one (hinner y μ).2
    refine ⟨_, _, hperiodic.neighbour_one hμ, staple_eq hfills (hinner y) μ, ?_⟩
    rw [staple_eq hf (hinner y) μ, hconf, Configuration.staple_gauged hunitary,
      Site.site_point hperiodic.lt]

/-- A transformation that multiplies with a phase at one point only. -/
def twist (x : Point) : Mat3 ℚ :=
  if x = .origin then .diagonal ⟨⟨0, 1⟩, ⟨0, -1⟩, 1⟩ else 1

theorem gauge_invariant_twist :
    ∃ f, (⟨Array.replicate 64 1⟩ : LinkField ℚ).gauged ⟨2⟩ twist = .ok f ∧
      (⟨⟨2⟩, 1, f⟩ : LatticeState ℚ).averagePlaquette =
        (⟨⟨2⟩, 1, ⟨Array.replicate 64 1⟩⟩ : LatticeState ℚ).averagePlaquette := by
  have hcomplete : (⟨⟨2⟩, 1, ⟨Array.replicate 64 1⟩⟩ : LatticeState ℚ).Complete :=
    ⟨by decide, by decide, by decide⟩
  have hunitary : ∀ x, (twist x).IsUnitary := by
    intro x
    rw [twist]
    split
    · rw [Mat3.IsUnitary]
      decide +kernel
    · rw [Mat3.IsUnitary]
      decide +kernel
  obtain ⟨f, hf, -, -, -, -, haverage, -⟩ := hcomplete.gauge_invariant fun x _ => hunitary x
  exact ⟨f, hf, haverage⟩

end LatticeState

end PureGauge
