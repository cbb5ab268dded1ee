/-
**What a symmetry of the lattice keeps.**

The directions of the lattice may be permuted and the lattice may be translated, where positions
count modulo the number of points.  A field that is carried along has one matrix for each link
again, and what is measured at a point, a link or in the mean is what was measured before at the
place that was taken there.

Main definitions:

* `PureGauge.LatticeSymmetry.Takes` — a point is taken to another one, up to multiples of the size;
* `PureGauge.LinkField.Moved` — a field that was carried along.

Main results:

* `PureGauge.LinkField.exists_moved` — every field can be carried along;
* `PureGauge.Configuration.Moved.plaquetteSum_eq` — the plaquettes of a link have the same sum;
* `PureGauge.LatticeState.Complete.symmetric` — everything that a symmetry keeps.
-/
import PureGauge.Proofs.Field.Symmetry
import PureGauge.Proofs.State.Queries
import PureGauge.Proofs.State.Replacement

namespace PureGauge

/-! ### Points -/

namespace LatticeSymmetry

/-- A symmetry takes the point `p` to `q`, on a lattice with `n` points in each direction: the
coordinate of `p` in a direction, translated, is that of `q` in the image of the direction, up to a
multiple of `n`. -/
def Takes (g : LatticeSymmetry) (n : ℕ) (p q : Point) : Prop :=
  ∀ μ : Fin 4, (q.coords.get (g.perm μ)).toInt ≡
    (p.coords.get μ).toInt + g.shift (g.perm μ) [ZMOD n]

variable {g : LatticeSymmetry} {n : ℕ} {p q : Point}

/-- A point is taken to another one if its site is. -/
theorem takes_iff : g.Takes n p q ↔ q.site n = g.site n (p.site n) := by
  rw [funext_iff, ← g.perm.forall_congr_right]
  refine forall_congr' fun μ => ?_
  rw [← ZMod.intCast_eq_intCast_iff, Int.cast_add, site_apply]
  rfl

/-- Each point of the lattice is taken to one. -/
theorem exists_takes [NeZero n] (hn : n < 2 ^ 63) (g : LatticeSymmetry) (p : Point) :
    g.Takes n p (g.site n (p.site n)).point :=
  takes_iff.2 (Site.site_point hn _)

end LatticeSymmetry

/-! ### Fields -/

namespace LinkField

/-- The second field has as many matrices as the first one, and at the image of each link the matrix
that the first one has there. -/
structure Moved {R : Type} (g : LatticeSymmetry) (l : Lattice) (f f' : LinkField R) : Prop where
  size_eq : f'.size = f.size
  link_eq : ∀ p q μ, g.Takes l.dim.toNat p q →
    f'.link l ⟨q, .along (g.perm μ)⟩ = f.link l ⟨p, .along μ⟩

variable {R : Type} [Zero R] {g : LatticeSymmetry} {l : Lattice} {n : ℕ} [NeZero n]
  {f f' : LinkField R}

omit [Zero R] [NeZero n] in
theorem Moved.fills (h : f.Fills l n) (hf' : f.Moved g l f') : f'.Fills l n :=
  ⟨h.numbered, hf'.size_eq.trans h.size_eq⟩

theorem Moved.configuration (h : f.Fills l n) (hf' : f.Moved g l f') :
    (f.configuration n).Moved g (f'.configuration n) := by
  intro x μ
  have hlt := h.numbered.periodic.lt
  have htakes : g.Takes l.dim.toNat x.point (g.site n x).point := by
    rw [h.numbered.dim_eq, LatticeSymmetry.takes_iff, Site.site_point hlt, Site.site_point hlt]
  have hlink := hf'.link_eq _ _ μ htakes
  rw [(hf'.fills h).link_eq, h.link_eq, Site.site_point hlt, Site.site_point hlt,
    Except.ok.injEq] at hlink
  exact hlink

/-- Every field can be carried along. -/
theorem exists_moved (h : f.Fills l n) (g : LatticeSymmetry) : ∃ f', f.Moved g l f' := by
  have hfills := fills_ofConfiguration h.numbered fun y ν =>
    f.configuration n ((g.site n).symm y) (g.perm.symm ν)
  refine ⟨_, hfills.size_eq.trans h.size_eq.symm, fun p q μ hpq => ?_⟩
  rw [h.numbered.dim_eq, LatticeSymmetry.takes_iff] at hpq
  rw [hfills.link_eq, h.link_eq, configuration_ofConfiguration, hpq, Equiv.symm_apply_apply,
    Equiv.symm_apply_apply]

end LinkField

/-! ### States -/

variable {F : Type} [Field F] {n : ℕ} [NeZero n]

omit [NeZero n] in
/-- The plaquettes of a link have the same sum as those of its image. -/
theorem Configuration.Moved.plaquetteSum_eq {g : LatticeSymmetry} {U V : Configuration F n}
    (h : Moved g U V) (x : Site n) (μ : Fin 4) :
    V.plaquetteSum (g.site n x) (g.perm μ) = U.plaquetteSum x μ := by
  rw [plaquetteSum, plaquetteSum, realSum_eq_sum, realSum_eq_sum,
    ((Direction.perm_others g.perm μ).map _).sum_eq, List.map_map]
  refine congrArg List.sum (List.map_congr_left fun ν _ => ?_)
  rw [Function.comp_apply, ← g.site_sub_step, h.plaquetteMatrix_eq, h.plaquetteMatrix_eq]

namespace LatticeState

variable {s : LatticeState F} {f : LinkField F} {g : LatticeSymmetry}

omit [NeZero n] in
/-- **Symmetry.**  Let the directions be permuted and the points of the lattice translated.  Every
field of the lattice can be carried along.  However that was done, the plaquettes of each link,
their sum and the local action are those of its image, at all points from which the squares of the
two links can be followed, and the points of the lattice are such points.  The average plaquette is
the same, though it goes through each pair of directions in one order only. -/
theorem Complete.symmetric (h : s.Complete) (g : LatticeSymmetry) :
    (∃ f, s.links.Moved g s.lattice f) ∧
      (∀ p, s.lattice.wrapPoint p = .ok p → ∃ q, s.lattice.wrapPoint q = .ok q ∧
        g.Takes s.lattice.dim.toNat p q ∧ ∀ μ, p.Clear μ ∧ q.Clear (g.perm μ)) ∧
      ∀ f, s.links.Moved g s.lattice f →
        (∀ p q μ, g.Takes s.lattice.dim.toNat p q → p.Clear μ → q.Clear (g.perm μ) →
          (∀ ν, ν ≠ μ → ∃ r, s.links.plaquette s.lattice p (.along μ) (.along ν) = .ok r ∧
            f.plaquette s.lattice q (.along (g.perm μ)) (.along (g.perm ν)) = .ok r) ∧
          (∃ r, s.links.plaquetteSum s.lattice ⟨p, .along μ⟩ = .ok r ∧
            f.plaquetteSum s.lattice ⟨q, .along (g.perm μ)⟩ = .ok r) ∧
          ∃ r, s.localAction ⟨p, .along μ⟩ = .ok r ∧
            { s with links := f }.localAction ⟨q, .along (g.perm μ)⟩ = .ok r) ∧
        { s with links := f }.averagePlaquette = s.averagePlaquette ∧
        (6 * s.lattice.dim.toNat ^ 4 < 2 ^ 64 → ∃ r, s.averagePlaquette = .ok r) := by
  have : NeZero s.lattice.dim.toNat := ⟨h.dim_pos.ne'⟩
  have hfills := h.fills
  have hlt := hfills.numbered.lt_65536
  have hinner : ∀ x : Site s.lattice.dim.toNat, x.point.Inner :=
    fun x => Site.point_inner (by omega) x
  refine ⟨LinkField.exists_moved hfills g, fun p hp => ?_, fun f hf => ?_⟩
  · have hperiodic := hfills.numbered.periodic
    have hpoint := hperiodic.eq_point_of_wrapPoint hp
    refine ⟨(g.site _ (p.site _)).point, ?_, LatticeSymmetry.exists_takes hperiodic.lt g p, fun μ =>
      ⟨?_, (hinner _).clear _⟩⟩
    · rw [hperiodic.wrapPoint_eq, Site.site_point hperiodic.lt]
    · rw [hpoint]
      exact (hinner _).clear μ
  · have hfills' : ({ s with links := f } : LatticeState F).links.Fills s.lattice _ :=
      hf.fills hfills
    have hmoved := hf.configuration hfills
    refine ⟨fun p q μ hpq hp hq => ?_, ?_, h.exists_average⟩
    · have hsite := LatticeSymmetry.takes_iff.1 hpq
      have hsum := hmoved.plaquetteSum_eq (p.site _) μ
      rw [← hsite] at hsum
      refine ⟨fun ν hν => ?_, ⟨_, hfills.plaquetteSum_eq hp, ?_⟩, ⟨_, localAction_eq hfills hp, ?_⟩⟩
      · have hne : g.perm ν ≠ g.perm μ := g.perm.injective.ne hν
        have hsquare := hfills.plaquetteMatrix_eq hν.symm (Point.shift_one hp.1)
          (Point.shift_one (hp.2 ν hν).2)
        have hsquare' := hfills'.plaquetteMatrix_eq hne.symm (Point.shift_one hq.1)
          (Point.shift_one (hq.2 _ hne).2)
        rw [hsite, hmoved.plaquetteMatrix_eq] at hsquare'
        rw [LinkField.plaquette, hsquare, Checked.ok_bind, LinkField.plaquette, hsquare',
          Checked.ok_bind]
        exact ⟨_, rfl, rfl⟩
      · rw [hfills'.plaquetteSum_eq hq, hsum]
      · rw [localAction_eq hfills' hq, hsum]
    · rw [averagePlaquette_eq hfills', averagePlaquette_eq hfills, hmoved.total_eq]

/-- The directions in the other order, and a translation that leads out of the lattice. -/
def turnedAround : LatticeSymmetry := ⟨Fin.revPerm, ![5, -7, 1, 0]⟩

theorem symmetric_gradedState :
    ∃ f r, gradedState.links.Moved turnedAround gradedState.lattice f ∧
      gradedState.averagePlaquette = .ok r ∧
        { gradedState with links := f }.averagePlaquette = .ok r := by
  have hcomplete : gradedState.Complete := ⟨by decide, by decide, by decide⟩
  obtain ⟨⟨f, hf⟩, -, hkeeps⟩ := hcomplete.symmetric turnedAround
  obtain ⟨-, hequal, haverage⟩ := hkeeps f hf
  obtain ⟨r, hr⟩ := haverage (by decide)
  exact ⟨f, r, hf, hr, hequal.trans hr⟩

end LatticeState

end PureGauge
