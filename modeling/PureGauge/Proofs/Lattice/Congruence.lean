/-
**Coordinates modulo the size.**

A lattice looks at the coordinates of a point modulo its size only.  Points whose coordinates are
congruent have the same site, and among the points that have a site one lies inside the lattice: the
one that wrapping leads to.

Main definitions:

* `PureGauge.Point.Inside`, `PureGauge.Point.Congruent` — points inside a lattice, and points whose
  coordinates differ by multiples of its size.

Main results:

* `PureGauge.Point.site_eq_iff` — congruent points are those with the same site;
* `PureGauge.Site.inside_point`, `PureGauge.Site.ints_point_modEq` — the point of a site lies inside
  the lattice, and its coordinates are the residues;
* `PureGauge.Point.Inside.point_site` — a point inside the lattice is that of its site.
-/
import PureGauge.Proofs.Lattice.Numbering

namespace PureGauge

namespace Point

variable {n : ℕ} {p q : Point}

/-- The coordinates are at least zero and below `n`. -/
def Inside (n : ℕ) (p : Point) : Prop := ∀ μ, 0 ≤ p.ints μ ∧ p.ints μ < n

instance (n : ℕ) (p : Point) : Decidable (p.Inside n) :=
  inferInstanceAs (Decidable (∀ μ, 0 ≤ p.ints μ ∧ p.ints μ < n))

/-- The coordinates differ by multiples of `n`. -/
def Congruent (n : ℕ) (p q : Point) : Prop := ∀ μ, p.ints μ ≡ q.ints μ [ZMOD n]

instance (n : ℕ) (p q : Point) : Decidable (p.Congruent n q) :=
  inferInstanceAs (Decidable (∀ μ, p.ints μ % n = q.ints μ % n))

theorem site_apply (p : Point) (μ : Fin 4) : p.site n μ = (p.ints μ : ZMod n) := rfl

/-- Congruent points are those with the same site. -/
theorem site_eq_iff : p.site n = q.site n ↔ p.Congruent n q := by
  rw [funext_iff]
  exact forall_congr' fun μ => ZMod.intCast_eq_intCast_iff ..

end Point

namespace Site

variable {n : ℕ} [NeZero n]

theorem ints_point (h : n < 2 ^ 63) (x : Site n) (μ : Fin 4) : x.point.ints μ = (x μ).val :=
  toInt_coord_point h x μ

/-- The point of a site lies inside the lattice. -/
theorem inside_point (h : n < 2 ^ 63) (x : Site n) : x.point.Inside n := by
  intro μ
  have hval := ZMod.val_lt (x μ)
  rw [ints_point h]
  omega

/-- The coordinates of the point of a site are congruent to whatever is cast to the residues. -/
theorem ints_point_modEq (h : n < 2 ^ 63) {x : Site n} {μ : Fin 4} {a : ℤ} (ha : x μ = a) :
    x.point.ints μ ≡ a [ZMOD n] := by
  rw [← ZMod.intCast_eq_intCast_iff, ints_point h, Int.cast_natCast, ZMod.natCast_zmod_val, ha]

end Site

/-! ### Wrapped coordinates -/

/-- What is not negative and less than the size is its own residue. -/
theorem val_intCast_of_lt {n : ℕ} [NeZero n] {a : ℤ} (h : 0 ≤ a ∧ a < n) :
    ((a : ZMod n).val : ℤ) = a := by
  rw [ZMod.val_intCast, Int.emod_eq_of_lt h.1 h.2]

/-- A point inside the lattice is the point of its site. -/
theorem Point.Inside.point_site {n : ℕ} [NeZero n] {p : Point} (h : n < 2 ^ 63) (hp : p.Inside n) :
    (p.site n).point = p := by
  have hcoord : ∀ μ : Fin 4, (p.site n).point.coords[μ.val] = p.coords[μ.val] := by
    intro μ
    rw [← Int64.toInt_inj, Site.toInt_coord_point h, site_apply, val_intCast_of_lt (hp μ), ints]
  exact congrArg Point.mk (Vector.ext fun i hi => hcoord ⟨i, hi⟩)

end PureGauge
