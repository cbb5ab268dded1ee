/-
**Conjugation and inner products over exact scalars.**

Over a commutative ring conjugation respects sums and products, a real number is its own conjugate,
and the squared modulus is the product of a number with its conjugate.  The inner product of two
vectors is linear in the second one and conjugate linear in the first one.  The conjugate of the
vector product of two vectors is orthogonal to both of them, and its length is given by their inner
products alone.

Main definitions:

* `PureGauge.Cplx.ofReal` — a real number as a complex one.

Main results:

* `PureGauge.Cplx.conj_mul_self`, `PureGauge.Cplx.normSq_mul` — squared moduli;
* `PureGauge.Vec3.dot_self` — the squared length is an inner product;
* `PureGauge.Vec3.dot_cross_left`, `PureGauge.Vec3.dot_cross_right`,
  `PureGauge.Vec3.dot_cross_cross` — the inner products with a vector product.
-/
import PureGauge.Proofs.SU3.Special

namespace PureGauge

variable {R : Type} [CommRing R]

/-! ### Conjugation -/

namespace Cplx

@[simp] theorem conj_add (z w : Cplx R) : (z + w).conj = z.conj + w.conj := by
  ext <;> simp [add_comm]

@[simp] theorem conj_sub (z w : Cplx R) : (z - w).conj = z.conj - w.conj := by
  ext
  · rfl
  · simp only [im_conj, im_sub]
    ring

@[simp] theorem conj_mul (z w : Cplx R) : (z * w).conj = z.conj * w.conj := by
  ext
  · simp only [re_conj, re_mul, im_conj]
    ring
  · simp only [im_conj, im_mul, re_conj]
    ring

@[simp] theorem conj_zero : (0 : Cplx R).conj = 0 := by ext <;> simp

@[simp] theorem conj_one : (1 : Cplx R).conj = 1 := by ext <;> simp

/-- A real number as a complex one. -/
def ofReal (r : R) : Cplx R := ⟨r, 0⟩

@[simp] theorem re_ofReal (r : R) : (ofReal r).re = r := rfl

@[simp] theorem im_ofReal (r : R) : (ofReal r).im = 0 := rfl

@[simp] theorem ofReal_one : ofReal (1 : R) = 1 := rfl

@[simp] theorem ofReal_zero : ofReal (0 : R) = 0 := rfl

@[simp] theorem conj_ofReal (r : R) : (ofReal r).conj = ofReal r := by ext <;> simp

theorem ofReal_mul (r s : R) : ofReal (r * s) = ofReal r * ofReal s := by ext <;> simp

theorem ofReal_add (r s : R) : ofReal (r + s) = ofReal r + ofReal s := by ext <;> simp

theorem scale_eq (z : Cplx R) (r : R) : z.scale r = z * ofReal r := by ext <;> simp [scale]

/-- The squared modulus is the product of a number with its conjugate. -/
theorem conj_mul_self (z : Cplx R) : z.conj * z = ofReal z.normSq := by
  ext
  · simp only [re_mul, re_conj, im_conj, re_ofReal, normSq]
    ring
  · simp only [im_mul, re_conj, im_conj, im_ofReal]
    ring

theorem normSq_mul (z w : Cplx R) : (z * w).normSq = z.normSq * w.normSq := by
  simp only [normSq, re_mul, im_mul]
  ring

@[simp] theorem normSq_conj (z : Cplx R) : z.conj.normSq = z.normSq := by
  simp only [normSq, re_conj, im_conj]
  ring

@[simp] theorem normSq_one : (1 : Cplx R).normSq = 1 := by simp [normSq]

theorem normSq_ofReal (r : R) : (ofReal r).normSq = r * r := by simp [normSq]

/-- A number on the unit circle has its conjugate as an inverse. -/
theorem conj_mul_self_of_normSq {z : Cplx R} (h : z.normSq = 1) : z.conj * z = 1 := by
  rw [conj_mul_self, h, ofReal_one]

theorem normSq_of_conj_mul_self {z : Cplx R} (h : z.conj * z = 1) : z.normSq = 1 := by
  rw [conj_mul_self] at h
  exact congrArg re h

end Cplx

/-! ### Inner products -/

namespace Vec3

@[simp] theorem x_sub (v w : Vec3 R) : (v - w).x = v.x - w.x := rfl

@[simp] theorem y_sub (v w : Vec3 R) : (v - w).y = v.y - w.y := rfl

@[simp] theorem z_sub (v w : Vec3 R) : (v - w).z = v.z - w.z := rfl

@[simp] theorem x_smul (v : Vec3 R) (c : Cplx R) : (v.smul c).x = v.x * c := rfl

@[simp] theorem y_smul (v : Vec3 R) (c : Cplx R) : (v.smul c).y = v.y * c := rfl

@[simp] theorem z_smul (v : Vec3 R) (c : Cplx R) : (v.smul c).z = v.z * c := rfl

theorem dot_sub (u v w : Vec3 R) : u.dot (v - w) = u.dot v - u.dot w := by
  simp only [dot, x_sub, y_sub, z_sub]
  ring

theorem dot_smul (v w : Vec3 R) (c : Cplx R) : v.dot (w.smul c) = v.dot w * c := by
  simp only [dot, x_smul, y_smul, z_smul]
  ring

theorem smul_dot (v w : Vec3 R) (c : Cplx R) : (v.smul c).dot w = c.conj * v.dot w := by
  simp only [dot, x_smul, y_smul, z_smul, Cplx.conj_mul]
  ring

theorem smul_smul (v : Vec3 R) (c d : Cplx R) : (v.smul c).smul d = v.smul (c * d) := by
  ext1
  all_goals exact mul_assoc ..

/-- Inner products the other way round are conjugates. -/
theorem conj_dot (v w : Vec3 R) : (v.dot w).conj = w.dot v := by
  simp only [dot, Cplx.conj_add, Cplx.conj_mul, Cplx.conj_conj]
  ring

/-- The squared length is the inner product of a vector with itself. -/
theorem dot_self (v : Vec3 R) : v.dot v = Cplx.ofReal v.normSq := by
  rw [dot, Cplx.conj_mul_self, Cplx.conj_mul_self, Cplx.conj_mul_self, normSq, Cplx.ofReal_add,
    Cplx.ofReal_add]

/-- The conjugate of a vector product is orthogonal to the first factor. -/
theorem dot_cross_left (v w : Vec3 R) : v.dot (v.conj.cross w.conj) = 0 := by
  simp only [dot, cross, conj, map]
  ring

theorem dot_cross_right (v w : Vec3 R) : w.dot (v.conj.cross w.conj) = 0 := by
  simp only [dot, cross, conj, map]
  ring

/-- The squared length of a vector product. -/
theorem dot_cross_cross (v w : Vec3 R) : (v.conj.cross w.conj).dot (v.conj.cross w.conj) =
    v.dot v * w.dot w - v.dot w * w.dot v := by
  simp only [dot, cross, conj, map, Cplx.conj_sub, Cplx.conj_mul, Cplx.conj_conj]
  ring

end Vec3

/-! ### Orthonormal columns -/

namespace Mat3

/-- A left inverse of the adjoint is enough for a matrix to be unitary. -/
theorem isUnitary_of_adjoint_mul_self {m : Mat3 R} (h : m.adjoint * m = 1) : m.IsUnitary := by
  have hleft : toMatrix m.adjoint * toMatrix m = 1 := by rw [← toMatrix_mul, h, toMatrix_one]
  refine toMatrix_injective ?_
  rw [toMatrix_mul, toMatrix_one]
  exact mul_eq_one_comm.1 hleft

/-- The determinant is the inner product of the third column with what makes it orthogonal to the
others. -/
theorem det_eq_dot (m : Mat3 R) : m.det = (m.col0.conj.cross m.col1.conj).dot m.col2 := by
  simp only [det, Vec3.dot, Vec3.cross, Vec3.conj, Vec3.map, Cplx.conj_sub, Cplx.conj_mul,
    Cplx.conj_conj]
  ring

/-- Two orthonormal vectors are completed to a special unitary matrix by the conjugate of their
vector product. -/
theorem isSpecialUnitary_of_orthonormal {v w : Vec3 R} (hv : v.dot v = 1) (hvw : v.dot w = 0)
    (hw : w.dot w = 1) : (⟨v, w, v.conj.cross w.conj⟩ : Mat3 R).IsSpecialUnitary := by
  have hwv : w.dot v = 0 := by rw [← Vec3.conj_dot, hvw, Cplx.conj_zero]
  have hcross : (v.conj.cross w.conj).dot (v.conj.cross w.conj) = 1 := by
    rw [Vec3.dot_cross_cross, hv, hw, hvw, hwv]
    ring
  have hcross_left : (v.conj.cross w.conj).dot v = 0 := by
    rw [← Vec3.conj_dot, Vec3.dot_cross_left, Cplx.conj_zero]
  have hcross_right : (v.conj.cross w.conj).dot w = 0 := by
    rw [← Vec3.conj_dot, Vec3.dot_cross_right, Cplx.conj_zero]
  refine ⟨isUnitary_of_adjoint_mul_self ?_, by rw [det_eq_dot, hcross]⟩
  rw [adjoint_mul_eq, hv, hvw, hw, hwv, hcross, hcross_left, hcross_right, Vec3.dot_cross_left,
    Vec3.dot_cross_right]
  rfl

end Mat3

end PureGauge
