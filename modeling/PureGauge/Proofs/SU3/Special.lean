/-
**Special unitary matrices over exact scalars.**

A matrix is special unitary if its adjoint is an inverse and its determinant is one.  Products of
such matrices are special unitary again.  Their first two columns are orthonormal already, and since
the adjoint of such a matrix is its adjugate, the third column is the conjugate of the vector
product of the other two.  So projecting the matrix onto the special unitary ones leaves it as it
is, whatever the threshold is below which a vector counts as too short.

Main definitions:

* `PureGauge.Mat3.IsSpecialUnitary` — unitary, with determinant one.

Main results:

* `PureGauge.Mat3.IsSpecialUnitary.mul` — products;
* `PureGauge.Mat3.IsSpecialUnitary.col2_eq` — the third column is determined by the other two;
* `PureGauge.Mat3.IsSpecialUnitary.orthonormalised_eq` — the projection leaves the matrix as it is.
-/
import Mathlib.Algebra.Field.Basic
import Mathlib.LinearAlgebra.Matrix.Adjugate
import PureGauge.Proofs.Scalar.Ring
import PureGauge.SU3.Orthonormal

namespace PureGauge

variable {R : Type} [CommRing R]

@[simp] theorem Cplx.conj_conj (z : Cplx R) : z.conj.conj = z := by ext <;> simp

/-- The conjugate of a minor. -/
theorem Cplx.conj_cross (a b c d : Cplx R) :
    a.conj * b.conj - c.conj * d.conj = (a * b - d * c).conj := by
  ext
  · simp only [re_sub, re_mul, re_conj, im_conj]
    ring
  · simp only [im_sub, im_mul, re_conj, im_conj]
    ring

/-- The square of the length is the inner product of a vector with itself. -/
theorem Vec3.normSq_eq_one {v : Vec3 R} (h : v.dot v = 1) : v.normSq = 1 := by
  have hre := congrArg Cplx.re h
  simp only [dot, Cplx.re_add, Cplx.re_mul, Cplx.re_conj, Cplx.im_conj, Cplx.re_one] at hre
  rw [← hre, normSq, Cplx.normSq, Cplx.normSq, Cplx.normSq]
  ring

theorem Vec3.sub_smul_zero (v w : Vec3 R) : v - w.smul 0 = v := by
  have hzero : w.smul 0 = ⟨0, 0, 0⟩ := by simp only [smul, map, mul_zero]
  rw [hzero]
  exact Vec3.ext (sub_zero _) (sub_zero _) (sub_zero _)

namespace Mat3

/-! ### Determinants -/

theorem det_eq (m : Mat3 R) : m.det = (toMatrix m).det := by
  rw [Matrix.det_fin_three, det]
  change _ = m.col0.x * m.col1.y * m.col2.z - m.col0.x * m.col2.y * m.col1.z -
    m.col1.x * m.col0.y * m.col2.z + m.col1.x * m.col2.y * m.col0.z +
    m.col2.x * m.col0.y * m.col1.z - m.col2.x * m.col1.y * m.col0.z
  ring

theorem det_mul (m k : Mat3 R) : (m * k).det = m.det * k.det := by
  rw [det_eq, det_eq, det_eq, toMatrix_mul, Matrix.det_mul]

/-- A unitary matrix with determinant one. -/
structure IsSpecialUnitary (m : Mat3 R) : Prop where
  unitary : m.IsUnitary
  det_eq_one : m.det = 1

instance [DecidableEq R] (m : Mat3 R) : Decidable m.IsSpecialUnitary :=
  decidable_of_iff (m * m.adjoint = 1 ∧ m.det = 1)
    ⟨fun h => ⟨h.1, h.2⟩, fun h => ⟨h.unitary, h.det_eq_one⟩⟩

theorem IsUnitary.mul {m k : Mat3 R} (hm : m.IsUnitary) (hk : k.IsUnitary) : (m * k).IsUnitary := by
  have hinner : k * k.adjoint = 1 := hk
  rw [IsUnitary, adjoint_mul, mul_assoc, ← mul_assoc k, hinner, one_mul]
  exact hm

/-! ### Columns -/

/-- The inner products of the columns are the entries of the product with the adjoint. -/
theorem adjoint_mul_eq (m k : Mat3 R) :
    m.adjoint * k = ⟨⟨m.col0.dot k.col0, m.col1.dot k.col0, m.col2.dot k.col0⟩,
      ⟨m.col0.dot k.col1, m.col1.dot k.col1, m.col2.dot k.col1⟩,
      ⟨m.col0.dot k.col2, m.col1.dot k.col2, m.col2.dot k.col2⟩⟩ := by
  ext1 <;> ext1
  all_goals exact rowTimes_eq ..

/-- The first two columns of a unitary matrix are orthonormal. -/
theorem IsUnitary.dot_col {m : Mat3 R} (h : m.IsUnitary) :
    m.col0.dot m.col0 = 1 ∧ m.col0.dot m.col1 = 0 ∧ m.col1.dot m.col1 = 1 := by
  have hgram := h.adjoint_mul_self
  rw [adjoint_mul_eq] at hgram
  exact ⟨congrArg (fun m => m.col0.x) hgram, congrArg (fun m => m.col1.x) hgram,
    congrArg (fun m => m.col1.y) hgram⟩

/-- The third column of a unitary matrix has length one and is orthogonal to the others. -/
theorem IsUnitary.dot_col2 {m : Mat3 R} (h : m.IsUnitary) :
    m.col0.dot m.col2 = 0 ∧ m.col1.dot m.col2 = 0 ∧ m.col2.dot m.col2 = 1 := by
  have hgram := h.adjoint_mul_self
  rw [adjoint_mul_eq] at hgram
  exact ⟨congrArg (fun m => m.col2.x) hgram, congrArg (fun m => m.col2.y) hgram,
    congrArg (fun m => m.col2.z) hgram⟩

namespace IsSpecialUnitary

variable {m k : Mat3 R}

theorem mul (hm : m.IsSpecialUnitary) (hk : k.IsSpecialUnitary) : (m * k).IsSpecialUnitary :=
  ⟨hm.unitary.mul hk.unitary, by rw [det_mul, hm.det_eq_one, hk.det_eq_one, one_mul]⟩

/-- The adjoint is the adjugate. -/
theorem adjugate_eq (h : m.IsSpecialUnitary) : (toMatrix m).adjugate = toMatrix m.adjoint := by
  have hleft : toMatrix m.adjoint * toMatrix m = 1 := by
    rw [← toMatrix_mul, h.unitary.adjoint_mul_self, toMatrix_one]
  have hdet : (toMatrix m).det = 1 := by rw [← det_eq, h.det_eq_one]
  calc (toMatrix m).adjugate
      = toMatrix m.adjoint * toMatrix m * (toMatrix m).adjugate := by rw [hleft, one_mul]
    _ = toMatrix m.adjoint * (toMatrix m * (toMatrix m).adjugate) := mul_assoc ..
    _ = toMatrix m.adjoint := by rw [Matrix.mul_adjugate, hdet, one_smul, mul_one]

/-- The third column is the conjugate of the vector product of the other two. -/
theorem col2_eq (h : m.IsSpecialUnitary) : m.col0.conj.cross m.col1.conj = m.col2 := by
  have hadjugate := h.adjugate_eq
  rw [Matrix.adjugate_fin_three] at hadjugate
  -- the last row of the adjugate is the vector product, and that of the adjoint the third column
  have hx : m.col0.y * m.col1.z - m.col1.y * m.col0.z = m.col2.x.conj := congrFun₂ hadjugate 2 0
  have hy : m.col0.z * m.col1.x - m.col1.z * m.col0.x = m.col2.y.conj := by
    have hentry : -(m.col0.x * m.col1.z) + m.col1.x * m.col0.z = m.col2.y.conj :=
      congrFun₂ hadjugate 2 1
    rw [← hentry]
    ring
  have hz : m.col0.x * m.col1.y - m.col1.x * m.col0.y = m.col2.z.conj := congrFun₂ hadjugate 2 2
  ext1
  · rw [← Cplx.conj_conj m.col2.x, ← hx]
    exact Cplx.conj_cross ..
  · rw [← Cplx.conj_conj m.col2.y, ← hy]
    exact Cplx.conj_cross ..
  · rw [← Cplx.conj_conj m.col2.z, ← hz]
    exact Cplx.conj_cross ..

end IsSpecialUnitary

end Mat3

/-! ### Projections -/

section

variable {F : Type} [Field F] [LE F] [DecidableLE F] [RealFunctions F]

/-- A vector of length one is its own direction, also if it counts as too short to have one. -/
theorem Vec3.normalised_eq (hroot : RealFunctions.sqrt (1 : F) = 1) {v : Vec3 F} (h : v.dot v = 1) :
    v.normalised = v := by
  have hunscale : ∀ z : Cplx F, z.unscale 1 = z := by
    intro z
    rw [Cplx.unscale, div_one, div_one]
  rw [normalised, norm, normSq_eq_one h, hroot]
  split
  · rfl
  · simp only [map, hunscale]

/-- **Projecting a special unitary matrix leaves it as it is**, whatever the threshold is. -/
theorem Mat3.IsSpecialUnitary.orthonormalised_eq (hroot : RealFunctions.sqrt (1 : F) = 1)
    {m : Mat3 F} (h : m.IsSpecialUnitary) : m.orthonormalised = m := by
  obtain ⟨h00, h01, h11⟩ := h.unitary.dot_col
  rw [orthonormalised, ofTwoVectors, Vec3.normalised_eq hroot h00, h01, Vec3.sub_smul_zero,
    Vec3.normalised_eq hroot h11, h.col2_eq]

end

end PureGauge
