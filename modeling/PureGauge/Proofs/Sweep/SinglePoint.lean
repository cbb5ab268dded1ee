/-
**The lattice with a single point.**

With one point in each direction every step leads back to where it began, so that the square a step
behind a link is the square at its point.  The sum over the plaquettes of a link visits both, as it
does on larger lattices, while the action of the lattice has one plaquette for each pair of
directions.  So the local action of a link changes by twice the change of the action, and this is
the change that a proposal is decided by.

Main results:

* `PureGauge.Configuration.plaquetteSum_set_sub_of_single` — the plaquettes of a link are counted
  twice;
* `PureGauge.LatticeState.Complete.localAction_sub_of_single` — the local action and a proposal
  change by twice the change of the action.
-/
import PureGauge.Proofs.Sweep.Reversal

namespace PureGauge

/-! ### Squares -/

namespace Configuration

section

variable {R : Type} [CommRing R]

/-- There is one square for each pair of directions. -/
theorem planeTotal_of_single (U : Configuration R 1) (x : Site 1) (μ ν : Fin 4) :
    U.planeTotal μ ν = (U.plaquetteMatrix x μ ν).reTrace :=
  Fintype.sum_subsingleton _ x

end

variable {F : Type} [Field F]

/-- The sum over the plaquettes of a link counts each of its three squares twice. -/
theorem plaquetteSum_of_single (U : Configuration F 1) (x : Site 1) (μ : Fin 4) :
    U.plaquetteSum x μ = 2 * (((Direction.others μ).map (U.planeTotal μ)).sum / ((3 : ℕ) : F)) := by
  have hsquares : ∀ ν ∈ Direction.others μ,
      LinkField.meanTrace (U.plaquetteMatrix x μ ν) +
          LinkField.meanTrace (U.plaquetteMatrix (x - Site.step 1 ν) μ ν) =
        U.planeTotal μ ν * (2 * ((3 : ℕ) : F)⁻¹) := by
    intro ν _
    have hback : x - Site.step 1 ν = x := Subsingleton.elim _ _
    rw [hback, LinkField.meanTrace, ← Mat3.reTrace_apply, planeTotal_of_single U x, ← two_mul,
      div_eq_mul_inv, mul_left_comm]
  rw [plaquetteSum, List.map_congr_left hsquares, realSum_eq_sum, List.sum_map_mul_right,
    div_eq_mul_inv, mul_left_comm]

/-- When the matrix of a link is replaced, the sum over its plaquettes changes by twice what the sum
over all plaquettes changes by. -/
theorem plaquetteSum_set_sub_of_single (U : Configuration F 1) (x : Site 1) (μ : Fin 4)
    (m : Mat3 F) :
    (U.set x μ m).plaquetteSum x μ - U.plaquetteSum x μ =
      2 * (((U.set x μ m).total - U.total) / ((3 : ℕ) : F)) := by
  rw [plaquetteSum_of_single, plaquetteSum_of_single, ← mul_sub, ← sub_div, ← sum_map_sub,
    ← total_set_sub_eq_sum]

end Configuration

/-! ### The change of the action -/

namespace LatticeState

variable {F : Type} [Field F] {s : LatticeState F}

/-- Between a state and the one in which a matrix was replaced, the local action changes by twice
what the action does. -/
theorem localAction_sub_eq (h : s.links.Fills s.lattice 1) (x : Site 1) (μ : Fin 4) (m : Mat3 F) :
    -s.beta * ((s.links.configuration 1).set x μ m).plaquetteSum x μ -
        -s.beta * (s.links.configuration 1).plaquetteSum x μ =
      2 * ((s.replaced x μ m).energy 1 - s.energy 1) := by
  have hbeta : (s.replaced x μ m).beta = s.beta := rfl
  rw [← mul_sub, Configuration.plaquetteSum_set_sub_of_single, energy, energy,
    configuration_replaced h, hbeta, ← mul_sub, ← sub_div, mul_left_comm]

/-- **With a single point a proposal is decided by twice the change of the action.**  Let the matrix
of a link be replaced by any other one.  Then the two local actions differ by twice the difference
of the actions before and after, and this is the change that every proposal of the matrix is decided
by. -/
theorem Complete.localAction_sub_of_single {G : Type} [WordSource G] [Acceptance F] (h : s.Complete)
    (hdim : s.lattice.dim = 1) {p : Point} {μ : Fin 4} (hp : p.Clear μ) (m : Mat3 F) :
    ∃ t localBefore localAfter before after,
      s.setLink ⟨p, .along μ⟩ m = .ok t ∧ s.localAction ⟨p, .along μ⟩ = .ok localBefore ∧
      s.localActionReplacing ⟨p, .along μ⟩ m = .ok localAfter ∧
      t.localAction ⟨p, .along μ⟩ = .ok localAfter ∧
      s.wilsonAction = .ok before ∧ t.wilsonAction = .ok after ∧
      localAfter - localBefore = 2 * (after - before) ∧
      ∀ (pool : Pool F) (g g' : G) (u : LinkUpdate F), propose pool s ⟨p, .along μ⟩ g = .ok u g' →
        u.proposed = m → u.change = 2 * (after - before) := by
  have hone : s.lattice.dim.toNat = 1 := congrArg UInt64.toNat hdim
  have hfills : s.links.Fills s.lattice 1 := hone ▸ h.fills
  have hreplaced := fills_replaced hfills (p.site 1) μ m
  have hafter := localActionReplacing_eq hfills hp m
  have hsub := localAction_sub_eq hfills (p.site 1) μ m
  refine ⟨_, _, _, _, _, setLink_eq hfills p μ m, localAction_eq hfills hp, hafter,
    (localActionReplacing_eq_localAction hfills p μ m).symm.trans hafter, wilsonAction_eq hfills,
    wilsonAction_eq hreplaced, hsub, ?_⟩
  intro pool g g' u hu hm
  rw [propose_eq_proposal hfills hp] at hu
  rw [proposal_change hu, hm, changeAt, if_pos rfl, hsub]

/-- A state with a single point, in which the matrix of one link exchanges two of the components. -/
def twistedPoint : LatticeState ℚ :=
  ⟨⟨1⟩, 5, ⟨#[1, .ofRows ⟨0, -1, 0⟩ ⟨1, 0, 0⟩ ⟨0, 0, 1⟩, 1, 1]⟩⟩

/-- The only matrix of the pool that turns two of the components by a right angle. -/
def rightAngle : Mat3 ℚ := .diagonal ⟨⟨0, 1⟩, ⟨0, -1⟩, 1⟩

theorem localAction_sub_twistedPoint :
    ∃ t localBefore localAfter before after,
      twistedPoint.setLink ⟨.origin, .along 0⟩ rightAngle = .ok t ∧
      twistedPoint.localAction ⟨.origin, .along 0⟩ = .ok localBefore ∧
      twistedPoint.localActionReplacing ⟨.origin, .along 0⟩ rightAngle = .ok localAfter ∧
      twistedPoint.wilsonAction = .ok before ∧ t.wilsonAction = .ok after ∧
      localAfter - localBefore = 2 * (after - before) := by
  have hcomplete : twistedPoint.Complete := ⟨by decide, by decide, by decide⟩
  obtain ⟨t, localBefore, localAfter, before, after, hset, hbefore, hafter, -, hold, hnew,
      hsub, -⟩ :=
    hcomplete.localAction_sub_of_single (G := Tape) rfl (p := .origin) (μ := 0)
      (by decide) rightAngle
  exact ⟨t, localBefore, localAfter, before, after, hset, hbefore, hafter, hold, hnew, hsub⟩

/-- A proposal is not decided by the change of the action: here the action rises from `-30` to
`-70 / 3`, by `20 / 3`, and the proposal says `40 / 3`. -/
theorem change_twistedPoint :
    twistedPoint.localAction ⟨.origin, .along 0⟩ = .ok (-30) ∧
      twistedPoint.localActionReplacing ⟨.origin, .along 0⟩ rightAngle = .ok (-50 / 3) ∧
      (∃ u g, propose turnPool twistedPoint ⟨.origin, .along 0⟩ halfTape = .ok u g ∧
        u.proposed = rightAngle ∧ u.change = 40 / 3) ∧
      (do
        let t ← twistedPoint.setLink ⟨.origin, .along 0⟩ rightAngle
        let after ← t.wilsonAction
        let before ← twistedPoint.wilsonAction
        return after - before : Checked ℚ) = .ok (20 / 3) ∧
      (-50 / 3 - -30 : ℚ) ≠ 20 / 3 := by
  have hpropose : (match propose turnPool twistedPoint ⟨.origin, .along 0⟩ halfTape with
      | .ok u _ => decide (u.proposed = rightAngle ∧ u.change = 40 / 3)
      | .error _ _ => false) = true := by
    decide +kernel
  refine ⟨by decide +kernel, by decide +kernel, ?_, by decide +kernel, by norm_num⟩
  cases hu : propose turnPool twistedPoint ⟨.origin, .along 0⟩ halfTape with
  | ok u g =>
      rw [hu, decide_eq_true_eq] at hpropose
      exact ⟨u, g, rfl, hpropose⟩
  | error fault g =>
      rw [hu] at hpropose
      cases hpropose

end LatticeState

end PureGauge
