/-
**The change of the action, read on sites.**

A proposal tells by how much it would change the action.  With more than one point in each direction
the change is computed from the staple of the link, with a single point from the plaquettes that
contain the link, once with the old matrix and once with the new one in its place.  Both ways read
the configuration only, and at a point that can be moved along the squares of the link neither stops
with a fault.

Main definitions:

* `PureGauge.Configuration.plaquetteSum` — the sum of the values of the squares that contain a link;
* `PureGauge.LatticeState.changeAt` — the change of the action as a function of the configuration.

Main results:

* `PureGauge.LinkField.Fills.plaquetteSum_eq` — the sum of plaquettes is that of the configuration;
* `PureGauge.LatticeState.actionChange_eq` — so is the change of the action.
-/
import PureGauge.Sweep.Proposal
import PureGauge.Proofs.State.Sites

namespace PureGauge

variable {R : Type} {n : ℕ} [NeZero n] [Zero R] [One R] [Add R] [Sub R] [Mul R] [Neg R] [Div R]
  [NatCast R]

/-! ### Plaquettes of a link -/

/-- The sum of the values of the six squares that contain a link: for each orthogonal direction the
one at its site and the one a step behind. -/
def Configuration.plaquetteSum (U : Configuration R n) (x : Site n) (μ : Fin 4) : R :=
  realSum ((Direction.others μ).map fun ν =>
    LinkField.meanTrace (U.plaquetteMatrix x μ ν) +
      LinkField.meanTrace (U.plaquetteMatrix (x - Site.step n ν) μ ν))

namespace LinkField.Fills

variable {f : LinkField R} {l : Lattice}

/-- The value of the square a step behind a link. -/
theorem plaquette_behind_eq (h : f.Fills l n) {p : Point} {μ ν : Fin 4} (hp : p.Clear μ)
    (hν : ν ≠ μ) :
    f.plaquette l (p.moved ν (-1)) (.along μ) (.along ν) =
      .ok (meanTrace ((f.configuration n).plaquetteMatrix (p.site n - Site.step n ν) μ ν)) := by
  rw [h.plaquette_eq hν.symm (hp.shift_behind hν).1 (hp.shift_behind hν).2,
    Point.site_of_shift_neg_one (Point.shift_neg_one (hp.2 ν hν).1)]

theorem plaquetteSum_eq (h : f.Fills l n) {p : Point} {μ : Fin 4} (hp : p.Clear μ) :
    f.plaquetteSum l ⟨p, .along μ⟩ = .ok ((f.configuration n).plaquetteSum (p.site n) μ) := by
  have hvalue : ∀ ν ∈ Direction.others μ,
      (do
        let ahead ← f.plaquette l p (.along μ) (.along ν)
        let behind ← f.plaquette l (← p.shift (.along ν) (-1)) (.along μ) (.along ν)
        return ahead + behind : Checked R) =
        .ok (meanTrace ((f.configuration n).plaquetteMatrix (p.site n) μ ν) +
          meanTrace ((f.configuration n).plaquetteMatrix (p.site n - Site.step n ν) μ ν)) := by
    intro ν hν
    have hνμ : ν ≠ μ := Direction.mem_others.1 hν
    rw [h.plaquette_eq hνμ.symm (hp.shift_ahead hνμ).1 (hp.shift_ahead hνμ).2, Checked.ok_bind,
      Point.shift_neg_one (hp.2 ν hνμ).1, Checked.ok_bind, h.plaquette_behind_eq hp hνμ,
      Checked.ok_bind, Checked.pure_eq]
  rw [plaquetteSum, Direction.orthogonal_along, Checked.ok_bind, List.mapM_map, Function.comp_def,
    Checked.mapM_eq_ok hvalue, Checked.ok_bind, Checked.pure_eq, Configuration.plaquetteSum]

end LinkField.Fills

/-! ### The change of the action -/

namespace LatticeState

variable {s : LatticeState R}

/-- The change of the action when the matrix `old` of a link becomes `new`, as a function of the
configuration. -/
def changeAt (s : LatticeState R) (x : Site n) (μ : Fin 4) (old new : Mat3 R) : R :=
  let U := s.links.configuration n
  if n = 1 then -s.beta * (U.set x μ new).plaquetteSum x μ - -s.beta * U.plaquetteSum x μ
  else s.stapleAction new (U.staple x μ) - s.stapleAction old (U.staple x μ)

/-- The state with the matrix of one link replaced. -/
def replaced (s : LatticeState R) (x : Site n) (μ : Fin 4) (m : Mat3 R) : LatticeState R :=
  { s with links := ⟨s.links.data.setIfInBounds (x.linkNumber μ) m⟩ }

omit [NeZero n] [Zero R] [One R] [Add R] [Sub R] [Mul R] [Neg R] [Div R] [NatCast R] in
theorem fills_replaced (h : s.links.Fills s.lattice n) (x : Site n) (μ : Fin 4) (m : Mat3 R) :
    (s.replaced x μ m).links.Fills s.lattice n :=
  ⟨h.numbered, (Array.size_setIfInBounds ..).trans h.size_eq⟩

omit [One R] [Add R] [Sub R] [Mul R] [Neg R] [Div R] [NatCast R] in
theorem configuration_replaced (h : s.links.Fills s.lattice n) (x : Site n) (μ : Fin 4)
    (m : Mat3 R) :
    (s.replaced x μ m).links.configuration n = (s.links.configuration n).set x μ m := by
  have hlt := h.linkNumber_lt x μ
  rw [← LinkField.configuration_set hlt m]
  simp only [replaced, Array.setIfInBounds, dif_pos hlt]

theorem localAction_eq (h : s.links.Fills s.lattice n) {p : Point} {μ : Fin 4} (hp : p.Clear μ) :
    s.localAction ⟨p, .along μ⟩ =
      .ok (-s.beta * (s.links.configuration n).plaquetteSum (p.site n) μ) := by
  rw [localAction, h.plaquetteSum_eq hp, Checked.ok_bind, Checked.pure_eq]

/-- The local action with another matrix is that of the state in which the matrix was replaced. -/
theorem localActionReplacing_eq_localAction (h : s.links.Fills s.lattice n) (p : Point) (μ : Fin 4)
    (m : Mat3 R) :
    s.localActionReplacing ⟨p, .along μ⟩ m =
      (s.replaced (p.site n) μ m).localAction ⟨p, .along μ⟩ := by
  have hlt := h.linkNumber_lt (p.site n) μ
  have hset : s.links.setAt ((p.site n).linkNumber μ) m =
      .ok (s.replaced (p.site n) μ m).links := by
    simp only [LinkField.setAt, replaced, Array.setIfInBounds, dif_pos hlt]
  rw [localActionReplacing, h.numbered.linkIndex_eq, Checked.ok_bind, hset, Checked.ok_bind,
    localAction]
  rfl

theorem localActionReplacing_eq (h : s.links.Fills s.lattice n) {p : Point} {μ : Fin 4}
    (hp : p.Clear μ) (m : Mat3 R) :
    s.localActionReplacing ⟨p, .along μ⟩ m =
      .ok (-s.beta *
        ((s.links.configuration n).set (p.site n) μ m).plaquetteSum (p.site n) μ) := by
  rw [localActionReplacing_eq_localAction h, localAction_eq (fills_replaced h (p.site n) μ m) hp,
    configuration_replaced h]
  rfl

/-- The change of the action is that of the configuration. -/
theorem actionChange_eq (h : s.links.Fills s.lattice n) {p : Point} {μ : Fin 4} (hp : p.Clear μ)
    (old new : Mat3 R) :
    s.actionChange ⟨p, .along μ⟩ old new = .ok (s.changeAt (p.site n) μ old new) := by
  have hdim : s.lattice.dim = 1 ↔ n = 1 := by
    rw [← h.numbered.dim_eq, ← UInt64.toNat_inj]
    rfl
  rw [actionChange, changeAt]
  by_cases hn : n = 1
  · rw [if_pos (hdim.2 hn), if_pos hn, localActionReplacing_eq h hp, Checked.ok_bind,
      localAction_eq h hp, Checked.ok_bind, Checked.pure_eq]
  · rw [if_neg (hn ∘ hdim.1), if_neg hn, staple_eq_of_clear h hp, Checked.ok_bind, Checked.pure_eq]

end LatticeState

end PureGauge
