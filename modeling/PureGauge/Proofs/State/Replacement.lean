/-
**Replacing the matrix of a link.**

The part of the action that depends on a link can be computed from the staple, which does not
contain the link if there are at least two points in each direction.  So the staple of one state
serves every matrix that may be put in the place of the old one: it gives the local action of the
state in which the matrix was replaced, and the difference of two such values is the difference of
the actions, to which all plaquettes of the lattice contribute.

Main results:

* `PureGauge.LatticeState.staple_replaced` — the staple does not contain the link;
* `PureGauge.Configuration.plaquetteSum_eq_trace` — the plaquettes of a link are in its staple;
* `PureGauge.LatticeState.Complete.stapleAction_sub` — the staple gives the change of the action.
-/
import PureGauge.Proofs.State.Change
import PureGauge.Proofs.State.Energy

namespace PureGauge

namespace LatticeState

/-! ### Reading and writing -/

section

variable {R : Type} {n : ℕ} [NeZero n] [Zero R] {s : LatticeState R} {p q : Point} {μ ν : Fin 4}
  {m : Mat3 R}

/-- Reading another link of a state in which a matrix was replaced. -/
theorem link_replaced (h : s.links.Fills s.lattice n) (hne : q.site n = p.site n → ν ≠ μ) :
    (s.replaced (p.site n) μ m).links.link s.lattice ⟨q, .along ν⟩ =
      s.links.link s.lattice ⟨q, .along ν⟩ := by
  rw [h.link_eq, (fills_replaced h (p.site n) μ m).link_eq, configuration_replaced h]
  by_cases hq : q.site n = p.site n
  · rw [Configuration.set_of_dir_ne (hne hq)]
  · rw [Configuration.set_of_site_ne hq]

/-- Replacing a matrix and putting it back. -/
theorem replaced_replaced (h : s.links.Fills s.lattice n) (x : Site n) (μ : Fin 4) (m : Mat3 R) :
    (s.replaced x μ m).replaced x μ (s.links.configuration n x μ) = s := by
  obtain ⟨lattice, beta, ⟨data⟩⟩ := s
  obtain ⟨hlt, hget⟩ := Array.getElem?_eq_some_iff.1 (h.getElem?_eq x μ)
  simp only [replaced, Array.setIfInBounds_setIfInBounds]
  rw [← hget, Array.setIfInBounds, dif_pos hlt, Array.set_getElem_self]

omit [Zero R] in
theorem setLink_eq (h : s.links.Fills s.lattice n) (p : Point) (μ : Fin 4) (m : Mat3 R) :
    s.setLink ⟨p, .along μ⟩ m = .ok (s.replaced (p.site n) μ m) := by
  rw [setLink, h.numbered.linkIndex_eq, Checked.ok_bind, Checked.pure_eq]
  rfl

end

section

variable {R : Type} {n : ℕ} [NeZero n] [CommRing R] {s : LatticeState R}

/-- With at least two points the staple of a link does not depend on its matrix, at whatever point
it is computed. -/
theorem staple_replaced (h : s.links.Fills s.lattice n) (hn : 2 ≤ n) (p : Point) (μ : Fin 4)
    (m : Mat3 R) :
    (s.replaced (p.site n) μ m).staple ⟨p, .along μ⟩ = s.staple ⟨p, .along μ⟩ := by
  have hlattice : (s.replaced (p.site n) μ m).lattice = s.lattice := rfl
  refine staple_eq_of_neighbours hlattice fun j hj => ?_
  obtain ⟨q, ν, hνμ, rfl | ⟨rfl, hq⟩⟩ := Link.neighbours_cases n hj
  · exact link_replaced h fun _ => hνμ
  · -- a step ahead and a step behind lead elsewhere
    refine link_replaced h fun hsite => absurd hsite ?_
    rcases hq with hq | hq
    · rw [hq]
      exact Configuration.add_step_ne hn _ ν
    · rw [hq]
      exact Configuration.sub_step_ne hn _ ν

end

end LatticeState

/-! ### The local action -/

variable {F : Type} [Field F] {n : ℕ} [NeZero n]

omit [NeZero n] in
/-- The plaquettes of a link add up to the trace of its matrix times its staple. -/
theorem Configuration.plaquetteSum_eq_trace (U : Configuration F n) (x : Site n) (μ : Fin 4) :
    U.plaquetteSum x μ = (U x μ * U.staple x μ).reTrace / ((3 : ℕ) : F) := by
  have hsquares : ∀ ν ∈ Direction.others μ,
      LinkField.meanTrace (U.plaquetteMatrix x μ ν) +
          LinkField.meanTrace (U.plaquetteMatrix (x - Site.step n ν) μ ν) =
        (U x μ * (U.stapleAhead x μ ν + U.stapleBehind x μ ν)).reTrace * ((3 : ℕ) : F)⁻¹ := by
    intro ν _
    rw [LinkField.meanTrace, LinkField.meanTrace, ← Mat3.reTrace_apply, ← Mat3.reTrace_apply,
      plaquetteMatrix_eq_mul_stapleAhead, reTrace_plaquetteMatrix_behind, ← add_div, ← map_add,
      ← mul_add, div_eq_mul_inv]
  rw [plaquetteSum, List.map_congr_left hsquares, realSum_eq_sum, List.sum_map_mul_right,
    ← reTrace_mul_staple, div_eq_mul_inv]

namespace LatticeState

variable {s : LatticeState F}

/-- The local action is computed from the staple as well. -/
theorem localAction_eq_stapleAction (h : s.links.Fills s.lattice n) {p : Point} {μ : Fin 4}
    (hp : p.Clear μ) :
    s.localAction ⟨p, .along μ⟩ = .ok (s.stapleAction (s.links.configuration n (p.site n) μ)
      ((s.links.configuration n).staple (p.site n) μ)) := by
  rw [localAction_eq h hp, Configuration.plaquetteSum_eq_trace, stapleAction, mul_div_assoc,
    Mat3.reTrace_apply]

omit [NeZero n] in
/-- **The staple gives the change of the action.**  With at least two points in each direction, let
the matrix of a link be replaced by any other one.  The staple of the link stays as it is.  With the
new matrix it gives the local action of the new state, which is also what the old state computes on
a copy of its field, and the difference between the new and the old matrix is the change of the
action of the whole lattice. -/
theorem Complete.stapleAction_sub (h : s.Complete) (hdim : 2 ≤ s.lattice.dim.toNat) {p : Point}
    {μ : Fin 4} (hp : p.Clear μ) (m : Mat3 F) :
    ∃ t old staple before after,
      s.setLink ⟨p, .along μ⟩ m = .ok t ∧ s.links.link s.lattice ⟨p, .along μ⟩ = .ok old ∧
      s.staple ⟨p, .along μ⟩ = .ok staple ∧ t.staple ⟨p, .along μ⟩ = .ok staple ∧
      t.localAction ⟨p, .along μ⟩ = .ok (s.stapleAction m staple) ∧
      s.localActionReplacing ⟨p, .along μ⟩ m = .ok (s.stapleAction m staple) ∧
      s.wilsonAction = .ok before ∧ t.wilsonAction = .ok after ∧
      s.stapleAction m staple - s.stapleAction old staple = after - before ∧
      s.actionChange ⟨p, .along μ⟩ old m = .ok (after - before) := by
  have : NeZero s.lattice.dim.toNat := ⟨h.dim_pos.ne'⟩
  set n := s.lattice.dim.toNat
  set x := p.site n
  set staple := (s.links.configuration n).staple x μ
  have hfills := fills_replaced h.fills x μ m
  have hconf := configuration_replaced h.fills x μ m
  have hstaple : s.staple ⟨p, .along μ⟩ = .ok staple := staple_eq_of_clear h.fills hp
  have hstaple' : (s.replaced x μ m).staple ⟨p, .along μ⟩ = .ok staple :=
    (staple_replaced h.fills hdim p μ m).trans hstaple
  -- the new state has the new matrix and the old staple
  have hlocal : (s.replaced x μ m).localAction ⟨p, .along μ⟩ = .ok (s.stapleAction m staple) := by
    have hkept : ((s.replaced x μ m).links.configuration n).staple x μ = staple := by
      rw [staple_eq_of_clear hfills hp, Except.ok.injEq] at hstaple'
      exact hstaple'
    rw [localAction_eq_stapleAction hfills hp, hkept, hconf, Configuration.set_self]
    rfl
  have henergy := energy_sub (s := s) (t := s.replaced x μ m) hdim rfl hconf
  refine ⟨_, _, staple, _, _, setLink_eq h.fills p μ m, h.fills.link_eq p μ, hstaple, hstaple',
    hlocal, (localActionReplacing_eq_localAction h.fills p μ m).trans hlocal,
    wilsonAction_eq h.fills, wilsonAction_eq hfills, henergy.symm, ?_⟩
  have hone : n ≠ 1 := by omega
  rw [actionChange_eq h.fills hp, changeAt, if_neg hone, henergy]

/-- A state whose matrices are all different. -/
def gradedState : LatticeState ℚ :=
  ⟨⟨2⟩, 5, ⟨((List.range 64).map fun i => .diagonal ⟨⟨(i : ℚ), 1⟩, ⟨0, i⟩, 2⟩).toArray⟩⟩

theorem stapleAction_sub_gradedState :
    ∃ t old staple before after,
      gradedState.setLink ⟨⟨#v[.minValue, 7, -3, 2]⟩, .along 0⟩ 1 = .ok t ∧
      gradedState.links.link gradedState.lattice ⟨⟨#v[.minValue, 7, -3, 2]⟩, .along 0⟩ = .ok old ∧
      gradedState.staple ⟨⟨#v[.minValue, 7, -3, 2]⟩, .along 0⟩ = .ok staple ∧
      gradedState.wilsonAction = .ok before ∧ t.wilsonAction = .ok after ∧
      gradedState.stapleAction 1 staple - gradedState.stapleAction old staple = after - before := by
  have hcomplete : gradedState.Complete := ⟨by decide, by decide, by decide⟩
  obtain ⟨t, old, staple, before, after, hset, hold, hstaple, -, -, -, hbefore, hafter, hsub, -⟩ :=
    hcomplete.stapleAction_sub (by decide) (p := ⟨#v[.minValue, 7, -3, 2]⟩) (μ := 0) (by decide) 1
  exact ⟨t, old, staple, before, after, hset, hold, hstaple, hbefore, hafter, hsub⟩

end LatticeState

end PureGauge
