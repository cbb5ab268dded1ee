/-
**Congruent points give access to the same links.**

Coordinates are wrapped when a link is looked up, and not before: what is done at a point moves it
first, in one direction or in two.  Moved by the same steps, points with congruent coordinates stay
congruent, so that the links that are looked up are the same, whichever point stands for the site.
Whatever is asked of a state at two such points has the same answer, and what is written there goes
to the same place.

Main definitions:

* `PureGauge.LatticeState.SameAccess` — what is read and written at two points is the same;
* `PureGauge.LatticeState.Accessible` — what is asked for at a point has an answer;
* `PureGauge.LatticeState.StoredAt` — a link has one place, and nothing else is changed when it is
  written.

Main results:

* `PureGauge.Lattice.Numbered.linkIndex_congr`, `PureGauge.LinkField.plaquetteMatrix_congr` — the
  number of a link, and the product around a square;
* `PureGauge.LatticeState.propose_congr` — the proposal for a link;
* `PureGauge.LatticeState.Complete.access_periodic` — access is periodic.
-/
import PureGauge.Proofs.Chain.Stages
import PureGauge.Proofs.Lattice.Congruence
import PureGauge.Proofs.State.Replacement

namespace PureGauge

/-! ### Steps -/

theorem Direction.orthogonal_of_le {d : Direction} (h : count ≤ d.index.toNat) :
    d.orthogonal = .error (.outsideBuffer 3 3) := by
  have hall : all.filter (· ≠ d) = all := by
    refine List.filter_eq_self.2 fun e he => decide_eq_true ?_
    rw [all_eq] at he
    obtain ⟨μ, -, rfl⟩ := List.mem_map.1 he
    rintro rfl
    rw [toNat_index_along] at h
    exact absurd μ.2 h.not_gt
  rw [orthogonal, hall]
  rfl

namespace Point

variable {n : ℕ} {x y : Point}

theorem shift_of_le {d : Direction} (h : Direction.count ≤ d.index.toNat) (p : Point) (k : Int64) :
    p.shift d k = .error .noSuchCoordinate := by
  rw [shift, coordinate, dif_neg (show ¬ d.index.toNat < 4 from h.not_gt), Checked.error_bind]

/-- Points of one site that can be moved by one are moved to points of one site.  There is no
coordinate for a direction outside the four. -/
theorem shift_one_congr (hx : x.Inner) (hy : y.Inner) (hxy : x.site n = y.site n) (d : Direction) :
    (∃ x' y', x.shift d 1 = .ok x' ∧ y.shift d 1 = .ok y' ∧ x'.site n = y'.site n) ∨
      x.shift d 1 = .error .noSuchCoordinate ∧ y.shift d 1 = .error .noSuchCoordinate := by
  rcases lt_or_ge d.index.toNat Direction.count with hd | hd
  · obtain ⟨μ, rfl⟩ := Direction.exists_along hd
    refine Or.inl ⟨_, _, hx.shift_one μ, hy.shift_one μ, ?_⟩
    rw [site_of_shift_one (hx.shift_one μ), site_of_shift_one (hy.shift_one μ), hxy]
  · exact Or.inr ⟨shift_of_le hd x 1, shift_of_le hd y 1⟩

end Point

/-! ### Links and squares -/

variable {R : Type} {l : Lattice} {n : ℕ} [NeZero n] {x y : Point}

/-- Links of one site have the same number, whatever their direction is. -/
theorem Lattice.Numbered.linkIndex_congr (h : l.Numbered n) (hxy : x.site n = y.site n)
    (d : Direction) :
    l.linkIndex ⟨x, d⟩ = l.linkIndex ⟨y, d⟩ := by
  rw [linkIndex, linkIndex, h.pointIndex_eq, h.pointIndex_eq, hxy]

namespace LinkField

variable {f : LinkField R}

theorem link_congr (h : l.Numbered n) (hxy : x.site n = y.site n) (f : LinkField R)
    (d : Direction) :
    f.link l ⟨x, d⟩ = f.link l ⟨y, d⟩ := by
  rw [link, link, h.linkIndex_congr hxy]

omit [NeZero n] in
/-- A field in which a matrix was replaced has as many matrices as before. -/
theorem Fills.of_setAt {f' : LinkField R} {i : ℕ} {m : Mat3 R} (h : f.Fills l n)
    (hf' : f.setAt i m = .ok f') :
    f'.Fills l n := by
  obtain ⟨-, rfl⟩ := setAt_eq_ok_iff.1 hf'
  exact ⟨h.numbered, (Array.size_setIfInBounds ..).trans h.size_eq⟩

variable [Zero R] [One R] [Add R] [Sub R] [Mul R] [Neg R]

/-- The products around the squares at points of one site are the same, in a field of any size. -/
theorem plaquetteMatrix_congr (h : l.Numbered n) (hx : x.Inner) (hy : y.Inner)
    (hxy : x.site n = y.site n) (f : LinkField R) (μ ν : Direction) :
    f.plaquetteMatrix l x μ ν = f.plaquetteMatrix l y μ ν := by
  rw [plaquetteMatrix, plaquetteMatrix, link_congr h hxy f μ]
  split
  case isTrue => rfl
  case isFalse =>
    refine Checked.bind_congr fun a _ => ?_
    rcases Point.shift_one_congr hx hy hxy μ with ⟨x₁, y₁, hx₁, hy₁, h₁⟩ | ⟨hx₁, hy₁⟩
    · rw [hx₁, hy₁, Checked.ok_bind, Checked.ok_bind, link_congr h h₁ f ν]
      refine Checked.bind_congr fun b _ => ?_
      rcases Point.shift_one_congr hx hy hxy ν with ⟨x₂, y₂, hx₂, hy₂, h₂⟩ | ⟨hx₂, hy₂⟩
      · rw [hx₂, hy₂, Checked.ok_bind, Checked.ok_bind, link_congr h h₂ f μ, link_congr h hxy f ν]
      · rw [hx₂, hy₂, Checked.error_bind, Checked.error_bind]
    · rw [hx₁, hy₁, Checked.error_bind, Checked.error_bind]

variable [Div R] [NatCast R]

/-- The squares that contain a link are found from all points of its site. -/
theorem Fills.plaquetteSum_congr (h : f.Fills l n) (hx : x.Inner) (hy : y.Inner)
    (hxy : x.site n = y.site n) (d : Direction) :
    f.plaquetteSum l ⟨x, d⟩ = f.plaquetteSum l ⟨y, d⟩ := by
  rcases lt_or_ge d.index.toNat Direction.count with hd | hd
  · obtain ⟨μ, rfl⟩ := Direction.exists_along hd
    rw [h.plaquetteSum_eq (hx.clear μ), h.plaquetteSum_eq (hy.clear μ), hxy]
  · rw [plaquetteSum, plaquetteSum, Direction.orthogonal_of_le hd, Checked.error_bind,
      Checked.error_bind]

end LinkField

/-! ### States -/

namespace LatticeState

variable {G : Type} [Zero R] [One R] [Add R] [Sub R] [Mul R] [Neg R] [Div R] [NatCast R]
  {s : LatticeState R}

section

variable (h : s.links.Fills s.lattice n) (hx : x.Inner) (hy : y.Inner) (hxy : x.site n = y.site n)

include h hx hy hxy

theorem localAction_congr (d : Direction) : s.localAction ⟨x, d⟩ = s.localAction ⟨y, d⟩ := by
  rw [localAction, localAction, h.plaquetteSum_congr hx hy hxy]

omit [Div R] [NatCast R] in
theorem staple_congr (d : Direction) : s.staple ⟨x, d⟩ = s.staple ⟨y, d⟩ := by
  rcases lt_or_ge d.index.toNat Direction.count with hd | hd
  · obtain ⟨μ, rfl⟩ := Direction.exists_along hd
    rw [staple_eq h hx, staple_eq h hy, hxy]
  · rw [staple, staple, Direction.orthogonal_of_le hd, Checked.error_bind, Checked.error_bind]

theorem localActionReplacing_congr (d : Direction) (m : Mat3 R) :
    s.localActionReplacing ⟨x, d⟩ m = s.localActionReplacing ⟨y, d⟩ m := by
  rw [localActionReplacing, localActionReplacing, h.numbered.linkIndex_congr hxy]
  refine Checked.bind_congr fun i _ => Checked.bind_congr fun f' hf' => ?_
  rw [(h.of_setAt hf').plaquetteSum_congr hx hy hxy]

theorem actionChange_congr (d : Direction) (old new : Mat3 R) :
    s.actionChange ⟨x, d⟩ old new = s.actionChange ⟨y, d⟩ old new := by
  rw [actionChange, actionChange, localActionReplacing_congr h hx hy hxy,
    localAction_congr h hx hy hxy, staple_congr h hx hy hxy]

/-- Links of one site are proposed the same update, and the source is left the same. -/
theorem propose_congr [WordSource G] [Acceptance R] (pool : Pool R) (d : Direction) :
    (propose pool s ⟨x, d⟩ : Draw G (LinkUpdate R)) = propose pool s ⟨y, d⟩ := by
  simp only [propose, LinkField.link_congr h.numbered hxy s.links d, actionChange_congr h hx hy hxy]

end

variable [WordSource G] [Acceptance R]

/-! ### Access -/

/-- What is read and written at two points is the same, in all directions, faults included. -/
structure SameAccess (G : Type) [WordSource G] (s : LatticeState R) (x y : Point) : Prop where
  matrix? : ∀ d, s.links.matrix? s.lattice ⟨x, d⟩ = s.links.matrix? s.lattice ⟨y, d⟩
  plaquetteMatrix : ∀ μ ν,
    s.links.plaquetteMatrix s.lattice x μ ν = s.links.plaquetteMatrix s.lattice y μ ν
  plaquette : ∀ μ ν, s.links.plaquette s.lattice x μ ν = s.links.plaquette s.lattice y μ ν
  plaquetteSum : ∀ d, s.links.plaquetteSum s.lattice ⟨x, d⟩ = s.links.plaquetteSum s.lattice ⟨y, d⟩
  localAction : ∀ d, s.localAction ⟨x, d⟩ = s.localAction ⟨y, d⟩
  staple : ∀ d, s.staple ⟨x, d⟩ = s.staple ⟨y, d⟩
  localActionReplacing : ∀ d m, s.localActionReplacing ⟨x, d⟩ m = s.localActionReplacing ⟨y, d⟩ m
  /-- With the same pool and the same source the same update is proposed, and the same source is
  left. -/
  propose : ∀ (pool : Pool R) (source : G) d,
    PureGauge.propose pool s ⟨x, d⟩ source = PureGauge.propose pool s ⟨y, d⟩ source
  set? : ∀ d m, s.links.set? s.lattice ⟨x, d⟩ m = s.links.set? s.lattice ⟨y, d⟩ m
  /-- The update of a link is the same, and so is the chain that it leaves. -/
  updateLink : ∀ (c : Chain R G) d,
    c.state = s → Chain.updateLink ⟨x, d⟩ c = Chain.updateLink ⟨y, d⟩ c

/-- What can be asked for at a point in the four directions has an answer. -/
structure Accessible (s : LatticeState R) (x : Point) : Prop where
  plaquetteMatrix : ∀ μ ν : Fin 4,
    μ ≠ ν → ∃ m, s.links.plaquetteMatrix s.lattice x (.along μ) (.along ν) = .ok m
  plaquette : ∀ μ ν : Fin 4,
    μ ≠ ν → ∃ r, s.links.plaquette s.lattice x (.along μ) (.along ν) = .ok r
  plaquetteSum : ∀ μ : Fin 4, ∃ r, s.links.plaquetteSum s.lattice ⟨x, .along μ⟩ = .ok r
  localAction : ∀ μ : Fin 4, ∃ r, s.localAction ⟨x, .along μ⟩ = .ok r
  staple : ∀ μ : Fin 4, ∃ m, s.staple ⟨x, .along μ⟩ = .ok m
  localActionReplacing : ∀ (μ : Fin 4) m, ∃ r, s.localActionReplacing ⟨x, .along μ⟩ m = .ok r

/-- The matrix of a link is the one with a certain number.  It is this one that is given back when
the link is written, no other one is changed, and an update changes it only if it is accepted. -/
structure StoredAt (G : Type) [WordSource G] (s : LatticeState R) (k : Link) (i : ℕ) : Prop where
  linkIndex : s.lattice.linkIndex k = .ok i
  set? : ∀ m, ∃ old, s.links.data[i]? = some old ∧
    s.links.set? s.lattice k m = .ok (some old, ⟨s.links.data.setIfInBounds i m⟩)
  updateLink : ∀ (c d : Chain R G) update, c.state = s → Chain.updateLink k c = .ok update d →
    d.state = if update.accepted then
      { s with links := ⟨s.links.data.setIfInBounds i update.proposed⟩ } else s

theorem sameAccess (h : s.links.Fills s.lattice n) (hx : x.Inner) (hy : y.Inner)
    (hxy : x.site n = y.site n) :
    s.SameAccess G x y where
  matrix? d := by rw [LinkField.matrix?, LinkField.matrix?, h.numbered.linkIndex_congr hxy]
  plaquetteMatrix μ ν := LinkField.plaquetteMatrix_congr h.numbered hx hy hxy s.links μ ν
  plaquette μ ν := by
    rw [LinkField.plaquette, LinkField.plaquette,
      LinkField.plaquetteMatrix_congr h.numbered hx hy hxy]
  plaquetteSum := h.plaquetteSum_congr hx hy hxy
  localAction := localAction_congr h hx hy hxy
  staple := staple_congr h hx hy hxy
  localActionReplacing := localActionReplacing_congr h hx hy hxy
  propose pool source d := by rw [propose_congr h hx hy hxy]
  set? d m := by rw [LinkField.set?, LinkField.set?, h.numbered.linkIndex_congr hxy]
  updateLink c d hc := by
    subst hc
    rw [Chain.updateLink_apply, Chain.updateLink_apply, propose_congr h hx hy hxy]
    simp only [setLink, h.numbered.linkIndex_congr hxy]

omit [WordSource G] [Acceptance R] in
theorem accessible (h : s.links.Fills s.lattice n) (hx : x.Inner) : s.Accessible x where
  plaquetteMatrix μ ν hμν := ⟨_, h.plaquetteMatrix_eq hμν (hx.shift_one μ) (hx.shift_one ν)⟩
  plaquette μ ν hμν := ⟨_, h.plaquette_eq hμν (hx.shift_one μ) (hx.shift_one ν)⟩
  plaquetteSum μ := ⟨_, h.plaquetteSum_eq (hx.clear μ)⟩
  localAction μ := ⟨_, localAction_eq h (hx.clear μ)⟩
  staple μ := ⟨_, staple_eq h hx μ⟩
  localActionReplacing μ m := ⟨_, localActionReplacing_eq h (hx.clear μ) m⟩

/-- A link is stored at the place that the number of its site and its direction give. -/
theorem storedAt (h : s.links.Fills s.lattice n) (x : Point) (μ : Fin 4) :
    s.StoredAt G ⟨x, .along μ⟩ ((x.site n).linkNumber μ) where
  linkIndex := h.numbered.linkIndex_eq x μ
  set? m := by
    have hold := h.getElem?_eq (x.site n) μ
    obtain ⟨hlt, hget⟩ := Array.getElem?_eq_some_iff.1 hold
    refine ⟨_, hold, ?_⟩
    rw [LinkField.set?, h.numbered.linkIndex_eq, Checked.ok_bind, dif_pos hlt, hget,
      Checked.pure_eq, Array.setIfInBounds, dif_pos hlt]
  updateLink c d update hc hd := by
    subst hc
    rw [Chain.updateLink_apply] at hd
    cases hpropose : PureGauge.propose c.engine.pool c.state ⟨x, .along μ⟩ c.engine.source with
    | error fault source =>
        rw [hpropose] at hd
        cases hd
    | ok u source =>
        simp only [hpropose, setLink_eq h] at hd
        cases haccepted : u.accepted with
        | false =>
            simp only [haccepted] at hd
            cases hd
            simp [haccepted]
        | true =>
            simp only [haccepted] at hd
            cases hd
            simp [haccepted, replaced]

omit [NeZero n] in
/-- **Access is periodic.**  On a state that has one matrix for each link of its lattice, let the
coordinates of two points be congruent, none of them the least or the greatest signed word.
Whatever is read at one of the points is what is read at the other one, and nothing that is asked
for in the four directions stops with a fault.  The same update is proposed at both of them with the
same source, and carried out with the same result.  Each link of the one point has its place in
common with the link of the other one, and this place is the only one that is written. -/
theorem Complete.access_periodic (h : s.Complete) {x y : Point} (hx : x.Inner) (hy : y.Inner)
    (hxy : x.Congruent s.lattice.dim.toNat y) :
    s.SameAccess G x y ∧ s.Accessible x ∧
      ∀ μ : Fin 4, ∃ i, s.StoredAt G ⟨x, .along μ⟩ i ∧ s.StoredAt G ⟨y, .along μ⟩ i := by
  have : NeZero s.lattice.dim.toNat := ⟨h.dim_pos.ne'⟩
  have hsite : x.site s.lattice.dim.toNat = y.site s.lattice.dim.toNat := Point.site_eq_iff.2 hxy
  refine ⟨sameAccess h.fills hx hy hsite, accessible h.fills hx,
    fun μ => ⟨_, storedAt h.fills x μ, ?_⟩⟩
  rw [hsite]
  exact storedAt h.fills y μ

/-- A state in which one matrix differs from all others. -/
def markedState : LatticeState Float := ⟨⟨2⟩, 5, ⟨(Array.replicate 64 1).setIfInBounds 3 0⟩⟩

/-- Two names of one point, the second one near the edge of the signed words. -/
theorem access_periodic_markedState :
    markedState.SameAccess Xoshiro ⟨#v[0, 1, -1, 5]⟩ ⟨#v[-4, 9223372036854775805, 7, -3]⟩ ∧
      markedState.Accessible ⟨#v[0, 1, -1, 5]⟩ ∧
      ∃ i, markedState.StoredAt Xoshiro ⟨⟨#v[0, 1, -1, 5]⟩, .along 2⟩ i ∧
        markedState.StoredAt Xoshiro ⟨⟨#v[-4, 9223372036854775805, 7, -3]⟩, .along 2⟩ i := by
  have hcomplete : markedState.Complete := ⟨by decide, by decide, by decide⟩
  obtain ⟨hsame, hanswers, hstored⟩ := hcomplete.access_periodic (G := Xoshiro)
    (x := ⟨#v[0, 1, -1, 5]⟩) (y := ⟨#v[-4, 9223372036854775805, 7, -3]⟩)
    (by decide) (by decide) (by decide)
  exact ⟨hsame, hanswers, hstored 2⟩

end LatticeState

end PureGauge
