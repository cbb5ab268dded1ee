/-
**Two checks of special unitarity.**

A matrix is checked against a tolerance in two ways, which differ in how far the determinant may be
from one.  The first check, `isSpecialUnitary`, compares the square of the distance with the
tolerance, which is to compare the distance with the root of the tolerance.  The second one,
`defect?`, compares the distance itself.  So below one the first check lets more matrices pass, and
above one it lets fewer pass; the two of them agree on all matrices if the tolerance is one, and
also if it is not positive, because then nothing passes.

The matrices on which the checks differ are found among those that change the first coordinate only.
For a tolerance below one there is a turn that moves the number one, along the unit circle, by
exactly the tolerance.  Above one this may be farther than the circle is wide, and the first
coordinate is stretched instead, by a number whose distance from one is the root of the tolerance.

Main results:

* `PureGauge.ExactPolar.modulus_lt_iff`, `PureGauge.ExactPolar.normSq_lt_iff` — a distance and its
  square;
* `PureGauge.Mat3.isSpecialUnitary_iff`, `PureGauge.Mat3.defect?_eq_none_iff` — what the checks
  mean;
* `PureGauge.Mat3.exists_checks_differ_of_lt_one`, `PureGauge.Mat3.exists_checks_differ_of_one_lt` —
  matrices on which they differ;
* `PureGauge.Mat3.checks_agree_iff` — where they agree.
-/
import PureGauge.Proofs.SU3.Factors

namespace PureGauge

namespace Mat3

/-! ### Matrices that change the first coordinate only -/

section

variable {R : Type} [CommRing R]

theorem diagonal_mul_diagonal (v w : Vec3 R) :
    diagonal v * diagonal w = diagonal ⟨v.x * w.x, v.y * w.y, v.z * w.z⟩ := by
  rw [mul_diagonal]
  simp only [diagonal, Vec3.smul, Vec3.map, zero_mul]

theorem diagonal_sub_one (v : Vec3 R) : diagonal v - 1 = diagonal ⟨v.x - 1, v.y - 1, v.z - 1⟩ := by
  change (⟨⟨v.x - 1, 0 - 0, 0 - 0⟩, ⟨0 - 0, v.y - 1, 0 - 0⟩, ⟨0 - 0, 0 - 0, v.z - 1⟩⟩ : Mat3 R) = _
  rw [sub_zero]
  rfl

theorem adjoint_diagonal (v : Vec3 R) : (diagonal v).adjoint = diagonal v.conj := by
  simp only [adjoint, diagonal, ofRows, Vec3.conj, Vec3.map, Cplx.conj_zero]

theorem normSq_diagonal (v : Vec3 R) :
    (diagonal v).normSq = v.x.normSq + v.y.normSq + v.z.normSq := by
  have hzero : (0 : Cplx R).normSq = 0 := Cplx.normSq_ofReal 0 |>.trans (mul_zero 0)
  simp only [normSq, diagonal, Vec3.normSq, hzero, add_zero, zero_add]

theorem det_diagonal_first (z : Cplx R) : (diagonal ⟨z, 1, 1⟩).det = z := by
  rw [det_diagonal, mul_one, mul_one]

/-- How far the matrix is from being unitary. -/
theorem normSq_diagonal_first (z : Cplx R) :
    (diagonal ⟨z, 1, 1⟩ * (diagonal ⟨z, 1, 1⟩).adjoint - 1).normSq =
      (z.normSq - 1) * (z.normSq - 1) := by
  have hfirst : z * z.conj - 1 = Cplx.ofReal (z.normSq - 1) := by
    rw [mul_comm, Cplx.conj_mul_self]
    ext <;> simp
  have hother : (1 : Cplx R) * (1 : Cplx R).conj - 1 = Cplx.ofReal 0 := by simp
  rw [adjoint_diagonal, diagonal_mul_diagonal, diagonal_sub_one, normSq_diagonal]
  change (z * z.conj - 1).normSq + (1 * (1 : Cplx R).conj - 1).normSq +
    (1 * (1 : Cplx R).conj - 1).normSq = _
  rw [hfirst, hother, Cplx.normSq_ofReal, Cplx.normSq_ofReal, mul_zero, add_zero, add_zero]

end

/-! ### What the checks mean -/

variable {F : Type} [Field F] [LinearOrder F] [RealFunctions F]

section

variable {m : Mat3 F} {r : F}

theorem isSpecialUnitary_iff :
    m.isSpecialUnitary r = true ↔ (m.det - 1).normSq < r ∧ (m * m.adjoint - 1).norm < r := by
  rw [isSpecialUnitary, Bool.and_eq_true, decide_eq_true_iff, decide_eq_true_iff]

theorem defect?_eq_none_iff :
    m.defect? r = none ↔ (m.det - 1).modulus < r ∧ (m * m.adjoint - 1).norm < r := by
  rw [defect?]
  by_cases hdet : (m.det - 1).modulus < r
  · by_cases hnorm : (m * m.adjoint - 1).norm < r <;> simp [hdet, hnorm]
  · simp [hdet]

theorem defect?_eq_determinant_iff : m.defect? r = some .determinant ↔ r ≤ (m.det - 1).modulus := by
  rw [defect?]
  by_cases hdet : (m.det - 1).modulus < r
  · by_cases hnorm : (m * m.adjoint - 1).norm < r <;> simp [hdet, hnorm]
  · simp [hdet, not_lt.1 hdet]

end

end Mat3

/-! ### Distances and their squares -/

variable {F : Type} [Field F] [LinearOrder F] [RealFunctions F] [IsStrictOrderedRing F]

namespace ExactRoots

variable (hF : ExactRoots F)

include hF

theorem matNorm_nonneg (m : Mat3 F) : 0 ≤ m.norm := hF.sqrt_nonneg _ m.normSq_nonneg

theorem matNorm_mul_self (m : Mat3 F) : m.norm * m.norm = m.normSq :=
  hF.sqrt_mul_self _ m.normSq_nonneg

end ExactRoots

namespace ExactPolar

variable (hF : ExactPolar F)

include hF

theorem modulus_lt_iff (z : Cplx F) {r : F} (hr : 0 ≤ r) : z.modulus < r ↔ z.normSq < r * r := by
  rw [← hF.modulus_mul_self, mul_self_lt_mul_self_iff (hF.modulus_nonneg z) hr]

theorem normSq_lt_iff (z : Cplx F) {r : F} (hr : 0 ≤ r) :
    z.normSq < r ↔ z.modulus < RealFunctions.sqrt r := by
  rw [hF.modulus_lt_iff z (hF.sqrt_nonneg r hr), hF.sqrt_mul_self r hr]

end ExactPolar

namespace Mat3

/-! ### Where the checks agree -/

theorem norm_diagonal_first (hF : ExactRoots F) (z : Cplx F) :
    (diagonal ⟨z, 1, 1⟩ * (diagonal ⟨z, 1, 1⟩).adjoint - 1).norm = |z.normSq - 1| := by
  rw [← mul_self_inj (hF.matNorm_nonneg _) (abs_nonneg _), hF.matNorm_mul_self,
    normSq_diagonal_first, abs_mul_abs_self]

variable (hF : ExactPolar F)

include hF

/-- The first check compares the distance of the determinant from one with the root of the
tolerance. -/
theorem isSpecialUnitary_iff_modulus (m : Mat3 F) (r : F) :
    m.isSpecialUnitary r = true ↔
      (m.det - 1).modulus < RealFunctions.sqrt r ∧ (m * m.adjoint - 1).norm < r := by
  rw [isSpecialUnitary_iff]
  refine and_congr_left fun hnorm => hF.normSq_lt_iff _ ?_
  exact (hF.matNorm_nonneg _).trans hnorm.le

theorem isSpecialUnitary_of_le_one {r : F} (hr : r ≤ 1) {m : Mat3 F} (h : m.defect? r = none) :
    m.isSpecialUnitary r = true := by
  obtain ⟨hdet, hnorm⟩ := defect?_eq_none_iff.1 h
  have hnonneg : 0 ≤ r := (hF.matNorm_nonneg _).trans hnorm.le
  refine isSpecialUnitary_iff.2 ⟨?_, hnorm⟩
  calc (m.det - 1).normSq < r * r := (hF.modulus_lt_iff _ hnonneg).1 hdet
    _ ≤ r := mul_le_of_le_one_left hnonneg hr

theorem defect?_eq_none_of_one_le {r : F} (hr : 1 ≤ r) {m : Mat3 F}
    (h : m.isSpecialUnitary r = true) :
    m.defect? r = none := by
  obtain ⟨hdet, hnorm⟩ := isSpecialUnitary_iff.1 h
  have hnonneg : 0 ≤ r := zero_le_one.trans hr
  refine defect?_eq_none_iff.2 ⟨(hF.modulus_lt_iff _ hnonneg).2 ?_, hnorm⟩
  calc (m.det - 1).normSq < r := hdet
    _ ≤ r * r := le_mul_of_one_le_left hnonneg hr

/-- Below one there is a turn of the first coordinate that only the first check lets pass. -/
theorem exists_checks_differ_of_lt_one {r : F} (hpos : 0 < r) (hr : r < 1) :
    ∃ m : Mat3 F, m.isSpecialUnitary r = true ∧ m.defect? r = some .determinant := by
  -- the point of the unit circle at distance `r` from one
  have hsquare : r * r < r := mul_lt_of_lt_one_left hpos hr
  have hheight : 0 ≤ r * r - r * r * (r * r) / 4 := by
    calc 0 ≤ r * r * (1 - r * r / 4) := mul_nonneg (mul_self_nonneg r) (by linarith)
      _ = r * r - r * r * (r * r) / 4 := by ring
  set y := RealFunctions.sqrt (r * r - r * r * (r * r) / 4) with hy
  have hyy : y * y = r * r - r * r * (r * r) / 4 := hF.sqrt_mul_self _ hheight
  have hcircle : (⟨1 - r * r / 2, y⟩ : Cplx F).normSq = 1 := by
    rw [Cplx.normSq, hyy]
    ring
  have hdistance : ((⟨1 - r * r / 2, y⟩ : Cplx F) - 1).normSq = r * r := by
    rw [Cplx.normSq, Cplx.re_sub, Cplx.im_sub, Cplx.re_one, Cplx.im_one, sub_zero, hyy]
    ring
  refine ⟨diagonal ⟨⟨1 - r * r / 2, y⟩, 1, 1⟩, ?_, ?_⟩
  · rw [isSpecialUnitary_iff, det_diagonal_first, norm_diagonal_first hF.toExactRoots, hdistance,
      hcircle, sub_self, abs_zero]
    exact ⟨hsquare, hpos⟩
  · rw [defect?_eq_determinant_iff, det_diagonal_first, ← not_lt, hF.modulus_lt_iff _ hpos.le,
      hdistance]
    exact lt_irrefl _

/-- Above one there is a stretching of the first coordinate that only the second check lets pass. -/
theorem exists_checks_differ_of_one_lt {r : F} (hr : 1 < r) :
    ∃ m : Mat3 F, m.isSpecialUnitary r = false ∧ m.defect? r = none := by
  have hpos : 0 < r := one_pos.trans hr
  set d := RealFunctions.sqrt r with hd
  have hdd : d * d = r := hF.sqrt_mul_self r hpos.le
  have hdlt : d < r := by
    refine lt_of_mul_self_lt_mul_self₀ hpos.le ?_
    rw [hdd]
    exact lt_mul_of_one_lt_left hpos hr
  have hdistance : (Cplx.ofReal (1 - d) - 1).normSq = r := by
    rw [← hdd, Cplx.normSq, Cplx.re_sub, Cplx.im_sub, Cplx.re_one, Cplx.im_one, Cplx.re_ofReal,
      Cplx.im_ofReal]
    ring
  have hstretch : (Cplx.ofReal (1 - d)).normSq - 1 = r - 2 * d := by
    rw [← hdd, Cplx.normSq_ofReal]
    ring
  have hdpos : 0 < d := by
    refine (hF.sqrt_nonneg r hpos.le).lt_of_ne fun hzero => hpos.ne ?_
    rw [← hdd, hd, ← hzero, zero_mul]
  refine ⟨diagonal ⟨Cplx.ofReal (1 - d), 1, 1⟩, ?_, ?_⟩
  · rw [← Bool.not_eq_true, isSpecialUnitary_iff, det_diagonal_first, hdistance]
    exact fun h => lt_irrefl _ h.1
  · rw [defect?_eq_none_iff, det_diagonal_first, norm_diagonal_first hF.toExactRoots, hstretch,
      hF.modulus_lt_iff _ hpos.le, hdistance, abs_lt]
    exact ⟨lt_mul_of_one_lt_left hpos hr, by linarith, by linarith⟩

/-- **Where the two checks agree.**  Let roots and distances be exact.  A matrix passes the second
check if and only if the distance of the determinant from one and the norm of `m m† - 1` are below
the tolerance.  It passes the first check if and only if the distance of the determinant is below
the root of the tolerance and the norm is below the tolerance.  Up to the tolerance one, what passes
the second check passes the first one, and from there on it is the other way round.  So the checks
agree on all matrices if and only if the tolerance is one, or is not positive, when nothing
passes. -/
theorem checks_agree_iff :
    (∀ (m : Mat3 F) (r : F),
      (m.defect? r = none ↔ (m.det - 1).modulus < r ∧ (m * m.adjoint - 1).norm < r) ∧
        (m.isSpecialUnitary r = true ↔
          (m.det - 1).modulus < RealFunctions.sqrt r ∧ (m * m.adjoint - 1).norm < r)) ∧
      (∀ r : F, r ≤ 1 → ∀ m : Mat3 F, m.defect? r = none → m.isSpecialUnitary r = true) ∧
      (∀ r : F, 1 ≤ r → ∀ m : Mat3 F, m.isSpecialUnitary r = true → m.defect? r = none) ∧
      ∀ r : F, (∀ m : Mat3 F, m.isSpecialUnitary r = true ↔ m.defect? r = none) ↔
        r ≤ 0 ∨ r = 1 := by
  refine ⟨fun m r => ⟨defect?_eq_none_iff, isSpecialUnitary_iff_modulus hF m r⟩,
    fun r hr m => isSpecialUnitary_of_le_one hF hr, fun r hr m => defect?_eq_none_of_one_le hF hr,
    fun r => ⟨fun h => ?_, ?_⟩⟩
  · by_contra hother
    rw [not_or, not_le] at hother
    obtain ⟨hpos, hne⟩ := hother
    rcases lt_or_gt_of_ne hne with hlt | hgt
    · obtain ⟨m, hpass, hdefect⟩ := exists_checks_differ_of_lt_one hF hpos hlt
      rw [(h m).1 hpass] at hdefect
      cases hdefect
    · obtain ⟨m, hfail, hnone⟩ := exists_checks_differ_of_one_lt hF hgt
      rw [(h m).2 hnone] at hfail
      cases hfail
  · rintro (hr | rfl) m
    · -- no norm is below the tolerance
      have hnorm : ¬ (m * m.adjoint - 1).norm < r := not_lt.2 (hr.trans (hF.matNorm_nonneg _))
      rw [isSpecialUnitary_iff, defect?_eq_none_iff]
      exact iff_of_false (fun h => hnorm h.2) fun h => hnorm h.2
    · exact ⟨defect?_eq_none_of_one_le hF le_rfl, isSpecialUnitary_of_le_one hF le_rfl⟩

end Mat3

/-! ### Matrices over the real numbers -/

/-- At one half the checks differ over the real numbers, and at one they agree. -/
theorem checks_agree_real :
    (∀ m : Mat3 ℝ, m.isSpecialUnitary 1 = true ↔ m.defect? 1 = none) ∧
      ¬ ∀ m : Mat3 ℝ, m.isSpecialUnitary (1 / 2) = true ↔ m.defect? (1 / 2) = none := by
  obtain ⟨-, -, -, hagree⟩ := Mat3.checks_agree_iff exactPolar_real
  refine ⟨(hagree 1).2 (Or.inr rfl), fun h => ?_⟩
  rcases (hagree (1 / 2)).1 h with hle | heq
  · norm_num at hle
  · norm_num at heq

/-- The square of the distance of this determinant from one is `13/16`, which is below `7/8`; the
distance is not. -/
theorem checks_differ_at_diagonal :
    (Mat3.diagonal ⟨⟨1 / 2, 3 / 4⟩, 1, 1⟩ : Mat3 ℝ).isSpecialUnitary (7 / 8) = true ∧
      (Mat3.diagonal ⟨⟨1 / 2, 3 / 4⟩, 1, 1⟩ : Mat3 ℝ).defect? (7 / 8) = some .determinant := by
  have hsquare : (⟨1 / 2, 3 / 4⟩ : Cplx ℝ).normSq = 13 / 16 := by norm_num [Cplx.normSq]
  have hdistance : ((⟨1 / 2, 3 / 4⟩ : Cplx ℝ) - 1).normSq = 13 / 16 := by norm_num [Cplx.normSq]
  constructor
  · rw [Mat3.isSpecialUnitary_iff, Mat3.det_diagonal_first,
      Mat3.norm_diagonal_first exactPolar_real.toExactRoots, hdistance, hsquare, abs_lt]
    norm_num
  · rw [Mat3.defect?_eq_determinant_iff, Mat3.det_diagonal_first, ← not_lt,
      exactPolar_real.modulus_lt_iff _ (by norm_num), hdistance]
    norm_num

end PureGauge
