/-
**The unitary factor does not depend on how a matrix was factored.**

A matrix is the product of a unitary and an upper triangular matrix in many ways, since every column
of the unitary factor may be turned if the row of the triangular one is turned back.  If the
diagonal has no zeros, there are no other ways: what takes one unitary factor to another one is
itself unitary and upper triangular, and therefore diagonal.  So turning the columns by the
directions of the diagonal makes the unitary factors equal.

Dividing a unitary matrix by a cube root of its determinant makes it special unitary.

Main definitions:

* `PureGauge.Mat3.IsUpper`, `PureGauge.Mat3.diagonalPart` — upper triangular matrices and their
  diagonal;
* `PureGauge.Mat3.Factors` — a matrix as the product of a unitary and an upper triangular one;
* `PureGauge.Mat3.HasLongDiagonal` — the diagonal is above the threshold.

Main results:

* `PureGauge.Mat3.exists_phases` — two unitary factors differ by a phase for each column;
* `PureGauge.Mat3.isSpecialUnitary_ofFactors` — the matrix made from a unitary factor is special
  unitary;
* `PureGauge.Mat3.ofFactors_eq` — it is the same for all factorisations.
-/
import PureGauge.Proofs.Scalar.Exact

namespace PureGauge

namespace Mat3

section

variable {R : Type} [CommRing R]

/-! ### Diagonal matrices -/

@[simp] theorem apply_eq (m : Mat3 R) (v : Vec3 R) :
    m.apply v = ⟨m.col0.x * v.x + m.col1.x * v.y + m.col2.x * v.z,
      m.col0.y * v.x + m.col1.y * v.y + m.col2.y * v.z,
      m.col0.z * v.x + m.col1.z * v.y + m.col2.z * v.z⟩ := by
  simp only [apply, rowTimes_eq]

theorem mul_eq (m k : Mat3 R) : m * k = ⟨m.apply k.col0, m.apply k.col1, m.apply k.col2⟩ := rfl

/-- The columns of a matrix turned by the diagonal of the second factor. -/
theorem mul_diagonal (m : Mat3 R) (v : Vec3 R) :
    m * diagonal v = ⟨m.col0.smul v.x, m.col1.smul v.y, m.col2.smul v.z⟩ := by
  simp only [mul_eq, apply_eq, diagonal, Vec3.smul, Vec3.map, mul_zero, add_zero, zero_add]

theorem smul_eq_mul_diagonal (m : Mat3 R) (c : Cplx R) : m.smul c = m * diagonal ⟨c, c, c⟩ := by
  rw [mul_diagonal]
  rfl

theorem det_diagonal (v : Vec3 R) : (diagonal v).det = v.x * v.y * v.z := by
  simp only [det, diagonal]
  ring

theorem isUnitary_diagonal {v : Vec3 R} (hx : v.x.normSq = 1) (hy : v.y.normSq = 1)
    (hz : v.z.normSq = 1) :
    (diagonal v).IsUnitary := by
  refine isUnitary_of_adjoint_mul_self ?_
  rw [adjoint_mul_eq]
  simp only [diagonal, Vec3.dot, Cplx.conj_zero, zero_mul, mul_zero, add_zero, zero_add,
    Cplx.conj_mul_self_of_normSq hx, Cplx.conj_mul_self_of_normSq hy,
    Cplx.conj_mul_self_of_normSq hz]
  rfl

@[simp] theorem det_one : (1 : Mat3 R).det = 1 := by rw [det_eq, toMatrix_one, Matrix.det_one]

theorem det_adjoint (m : Mat3 R) : m.adjoint.det = m.det.conj := by
  rw [det_eq, toMatrix_adjoint, Matrix.det_conjTranspose, Cplx.star_eq_conj, ← det_eq]

/-- The determinant of a unitary matrix lies on the unit circle. -/
theorem IsUnitary.mul_conj_det {m : Mat3 R} (h : m.IsUnitary) : m.det * m.det.conj = 1 := by
  have hunitary : m * m.adjoint = 1 := h
  rw [← det_adjoint, ← det_mul, hunitary, det_one]

theorem IsUnitary.normSq_det {m : Mat3 R} (h : m.IsUnitary) : m.det.normSq = 1 := by
  refine Cplx.normSq_of_conj_mul_self ?_
  rw [mul_comm, h.mul_conj_det]

theorem IsSpecialUnitary.one : (1 : Mat3 R).IsSpecialUnitary := ⟨IsUnitary.one, det_one⟩

/-! ### Triangular matrices -/

/-- All entries below the diagonal are zero. -/
structure IsUpper (r : Mat3 R) : Prop where
  col0_y : r.col0.y = 0
  col0_z : r.col0.z = 0
  col1_z : r.col1.z = 0

/-- The entries on the diagonal. -/
def diagonalPart (r : Mat3 R) : Vec3 R := ⟨r.col0.x, r.col1.y, r.col2.z⟩

/-- A matrix as the product of a unitary and an upper triangular one. -/
structure Factors (b q r : Mat3 R) : Prop where
  unitary : q.IsUnitary
  upper : r.IsUpper
  product : q * r = b

end

variable {F : Type} [Field F] [LinearOrder F] [IsStrictOrderedRing F]

/-- A unitary matrix that is upper triangular is diagonal, with numbers on the unit circle. -/
theorem IsUpper.eq_diagonal {w : Mat3 F} (h : w.IsUpper) (hw : w.IsUnitary) :
    w = diagonal w.diagonalPart ∧ w.diagonalPart.x.normSq = 1 ∧ w.diagonalPart.y.normSq = 1 ∧
      w.diagonalPart.z.normSq = 1 := by
  obtain ⟨h0y, h0z, h1z⟩ := h
  obtain ⟨h00, h01, h11⟩ := hw.dot_col
  obtain ⟨h02, h12, h22⟩ := hw.dot_col2
  simp only [Vec3.dot, h0y, h0z, h1z, Cplx.conj_zero, zero_mul, add_zero] at h00 h01 h11 h02 h12 h22
  -- a column that is orthogonal to the ones before it has a zero where they have their only entry
  have h1x : w.col1.x = 0 := (mul_eq_zero.1 h01).resolve_left (left_ne_zero_of_mul_eq_one h00)
  have h2x : w.col2.x = 0 := (mul_eq_zero.1 h02).resolve_left (left_ne_zero_of_mul_eq_one h00)
  simp only [h1x, Cplx.conj_zero, zero_mul, zero_add] at h11 h12
  have h2y : w.col2.y = 0 := (mul_eq_zero.1 h12).resolve_left (left_ne_zero_of_mul_eq_one h11)
  simp only [h2x, h2y, Cplx.conj_zero, zero_mul, zero_add] at h22
  refine ⟨?_, Cplx.normSq_of_conj_mul_self h00, Cplx.normSq_of_conj_mul_self h11,
    Cplx.normSq_of_conj_mul_self h22⟩
  ext1 <;> ext1
  all_goals first | rfl | assumption

/-- What takes an upper triangular matrix without zeros on its diagonal to another upper triangular
one is itself upper triangular, and takes the diagonal to the other one. -/
theorem IsUpper.of_mul {w r r' : Mat3 F} (hr : r.IsUpper) (hr' : r'.IsUpper) (h : w * r = r')
    (hx : r.diagonalPart.x ≠ 0) (hy : r.diagonalPart.y ≠ 0) :
    w.IsUpper ∧ r'.diagonalPart =
      ⟨w.diagonalPart.x * r.diagonalPart.x, w.diagonalPart.y * r.diagonalPart.y,
      w.diagonalPart.z * r.diagonalPart.z⟩ := by
  obtain ⟨r0y, r0z, r1z⟩ := hr
  obtain ⟨r0y', r0z', r1z'⟩ := hr'
  subst h
  simp only [mul_eq, apply_eq, r0y, r0z, r1z, mul_zero, add_zero] at r0y' r0z' r1z'
  have w0y : w.col0.y = 0 := (mul_eq_zero.1 r0y').resolve_right hx
  have w0z : w.col0.z = 0 := (mul_eq_zero.1 r0z').resolve_right hx
  rw [w0z, zero_mul, zero_add] at r1z'
  have w1z : w.col1.z = 0 := (mul_eq_zero.1 r1z').resolve_right hy
  refine ⟨⟨w0y, w0z, w1z⟩, ?_⟩
  simp only [diagonalPart, mul_eq, apply_eq, r0y, r0z, r1z, w0y, w0z, w1z, mul_zero, zero_mul,
    add_zero, zero_add]

/-- **Two unitary factors of a matrix differ by a phase for each column**, if the diagonal of a
triangular factor has no zeros, and the diagonal of the other triangular factor is turned back by
these phases. -/
theorem Factors.exists_phases {b q r q' r' : Mat3 F} (h : Factors b q r) (h' : Factors b q' r')
    (hx : r.diagonalPart.x ≠ 0) (hy : r.diagonalPart.y ≠ 0) :
    ∃ w : Vec3 F, w.x.normSq = 1 ∧ w.y.normSq = 1 ∧ w.z.normSq = 1 ∧ q = q' * diagonal w ∧
      r'.diagonalPart = ⟨w.x * r.diagonalPart.x, w.y * r.diagonalPart.y,
        w.z * r.diagonalPart.z⟩ := by
  have hinverse : q' * q'.adjoint = 1 := h'.unitary
  -- the matrix that takes one unitary factor to the other takes the triangular
  -- factors to each other as well
  have hr : q'.adjoint * q * r = r' := by
    rw [mul_assoc, h.product, ← h'.product, ← mul_assoc, h'.unitary.adjoint_mul_self, one_mul]
  obtain ⟨hupper, hdiagonal⟩ := h.upper.of_mul h'.upper hr hx hy
  obtain ⟨heq, hphases⟩ := hupper.eq_diagonal (h'.unitary.adjoint.mul h.unitary)
  obtain ⟨hwx, hwy, hwz⟩ := hphases
  refine ⟨(q'.adjoint * q).diagonalPart, hwx, hwy, hwz, ?_, hdiagonal⟩
  rw [← heq, ← mul_assoc, hinverse, one_mul]

/-! ### The special unitary matrix of a factorisation -/

variable [RealFunctions F]

/-- All numbers on the diagonal are above the threshold. -/
structure HasLongDiagonal (r : Mat3 F) : Prop where
  x : RealFunctions.epsilon < r.diagonalPart.x.modulus
  y : RealFunctions.epsilon < r.diagonalPart.y.modulus
  z : RealFunctions.epsilon < r.diagonalPart.z.modulus

variable (hF : ExactPolar F)

include hF

omit [IsStrictOrderedRing F] in
theorem isUnitary_turned {q : Mat3 F} (hq : q.IsUnitary) (r : Vec3 F) :
    (q * diagonal (r.map Cplx.unitPhase)).IsUnitary :=
  hq.mul (isUnitary_diagonal (hF.normSq_unitPhase r.x) (hF.normSq_unitPhase r.y)
    (hF.normSq_unitPhase r.z))

/-- Dividing a unitary matrix by the cube root of its determinant makes it special unitary. -/
theorem IsUnitary.isSpecialUnitary_map_div {m : Mat3 F} (hm : m.IsUnitary) :
    (m.map (· / m.det.principalCubeRoot)).IsSpecialUnitary := by
  have hroot := hF.normSq_principalCubeRoot hm.normSq_det
  set c := m.det.principalCubeRoot.conj with hc
  have hcircle : c.normSq = 1 := by rw [hc, Cplx.normSq_conj, hroot]
  have hcube : c * c * c = m.det.conj := by
    rw [hc, ← Cplx.conj_mul, ← Cplx.conj_mul, hF.cube_principalCubeRoot]
  have heq : m.map (· / m.det.principalCubeRoot) = m * diagonal ⟨c, c, c⟩ := by
    rw [← smul_eq_mul_diagonal, smul]
    exact congrArg m.map (funext fun z => Cplx.div_eq_of_normSq z hroot)
  rw [heq]
  refine ⟨hm.mul (isUnitary_diagonal hcircle hcircle hcircle), ?_⟩
  rw [det_mul, det_diagonal, hcube, hm.mul_conj_det]

/-- The matrix that is made from a unitary factor is special unitary, whatever the diagonal is. -/
theorem isSpecialUnitary_ofFactors {q : Mat3 F} (hq : q.IsUnitary) (r : Vec3 F) :
    (ofFactors q r).IsSpecialUnitary :=
  (isUnitary_turned hF hq r).isSpecialUnitary_map_div hF

/-- **The matrix that is made from a factorisation does not depend on it**, if a diagonal is above
the threshold. -/
theorem Factors.ofFactors_eq {b q r q' r' : Mat3 F} (h : Factors b q r) (h' : Factors b q' r')
    (hlong : r.HasLongDiagonal) : ofFactors q r.diagonalPart = ofFactors q' r'.diagonalPart := by
  have hne : ∀ {z : Cplx F}, RealFunctions.epsilon < z.modulus → z ≠ 0 := fun hz h0 =>
    (hF.epsilon_nonneg.trans_lt hz).ne' (hF.modulus_eq_zero_iff.2 h0)
  obtain ⟨w, hwx, hwy, hwz, rfl, hdiagonal⟩ := h.exists_phases h' (hne hlong.x) (hne hlong.y)
  -- turning a column by the phase `w` and then by the old direction is turning
  -- it by the new direction
  have hturned : q' * diagonal w * diagonal (r.diagonalPart.map Cplx.unitPhase) =
      q' * diagonal (r'.diagonalPart.map Cplx.unitPhase) := by
    simp only [mul_diagonal, hdiagonal, Vec3.map, Vec3.smul_smul, hF.unitPhase_mul hwx hlong.x,
      hF.unitPhase_mul hwy hlong.y, hF.unitPhase_mul hwz hlong.z]
  simp only [ofFactors, hturned]

end Mat3

end PureGauge
