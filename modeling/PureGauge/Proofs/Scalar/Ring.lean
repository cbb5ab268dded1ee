/-
**The ring of matrices over exact scalars.**

Over a commutative ring the operations on complex numbers and on matrices satisfy the laws that
doubles satisfy only nearly: complex numbers are a commutative ring with conjugation, and matrices
of size three are a ring in which taking adjoints reverses products.  The laws of matrices are
carried over from the matrices of Mathlib, of which the ones here are a copy.

Main definitions:

* `PureGauge.Mat3.toMatrix` — the nine entries as a matrix of Mathlib;
* `PureGauge.Mat3.IsUnitary` — the adjoint is an inverse.

Main results:

* the instances of `CommRing` and `StarRing` for `PureGauge.Cplx`, and of `Ring` for
  `PureGauge.Mat3`;
* `PureGauge.Mat3.adjoint_mul`, `PureGauge.Mat3.trace_mul_comm`, `PureGauge.Mat3.re_trace_adjoint`.
-/
import PureGauge.Scalar.Matrix
import Mathlib.Algebra.Star.Basic
import Mathlib.LinearAlgebra.Matrix.NonsingularInverse
import Mathlib.LinearAlgebra.Matrix.Notation
import Mathlib.LinearAlgebra.Matrix.Trace
import Mathlib.Tactic.FinCases
import Mathlib.Tactic.Ring

namespace PureGauge

attribute [ext] Cplx Vec3 Mat3

variable {R : Type} [CommRing R]

/-- Sums taken in order from the left. -/
theorem realSum_eq_sum (xs : List R) : realSum xs = xs.sum := by
  rw [realSum, List.sum_eq_foldl, neg_zero]

/-! ### Complex numbers -/

namespace Cplx

@[simp] theorem re_zero : (0 : Cplx R).re = 0 := rfl

@[simp] theorem im_zero : (0 : Cplx R).im = 0 := rfl

@[simp] theorem re_one : (1 : Cplx R).re = 1 := rfl

@[simp] theorem im_one : (1 : Cplx R).im = 0 := rfl

@[simp] theorem re_add (z w : Cplx R) : (z + w).re = z.re + w.re := rfl

@[simp] theorem im_add (z w : Cplx R) : (z + w).im = z.im + w.im := rfl

@[simp] theorem re_sub (z w : Cplx R) : (z - w).re = z.re - w.re := rfl

@[simp] theorem im_sub (z w : Cplx R) : (z - w).im = z.im - w.im := rfl

@[simp] theorem re_neg (z : Cplx R) : (-z).re = -z.re := rfl

@[simp] theorem im_neg (z : Cplx R) : (-z).im = -z.im := rfl

@[simp] theorem re_mul (z w : Cplx R) : (z * w).re = z.re * w.re - z.im * w.im := rfl

@[simp] theorem im_mul (z w : Cplx R) : (z * w).im = z.re * w.im + z.im * w.re := rfl

@[simp] theorem re_conj (z : Cplx R) : z.conj.re = z.re := rfl

@[simp] theorem im_conj (z : Cplx R) : z.conj.im = -z.im := rfl

/-- Complex numbers over a commutative ring are a commutative ring. -/
instance : CommRing (Cplx R) where
  add_assoc _ _ _ := by ext <;> simp [add_assoc]
  zero_add _ := by ext <;> simp
  add_zero _ := by ext <;> simp
  add_comm _ _ := by ext <;> simp [add_comm]
  neg_add_cancel _ := by ext <;> simp
  sub_eq_add_neg _ _ := by ext <;> simp [sub_eq_add_neg]
  mul_assoc _ _ _ := by ext <;> simp <;> ring
  one_mul _ := by ext <;> simp
  mul_one _ := by ext <;> simp
  zero_mul _ := by ext <;> simp
  mul_zero _ := by ext <;> simp
  left_distrib _ _ _ := by ext <;> simp <;> ring
  right_distrib _ _ _ := by ext <;> simp <;> ring
  mul_comm _ _ := by ext <;> simp <;> ring
  nsmul := nsmulRec
  zsmul := zsmulRec

/-- Conjugation as the involution of the ring. -/
instance : StarRing (Cplx R) where
  star := conj
  star_involutive _ := by ext <;> simp
  star_mul _ _ := by ext <;> simp <;> ring
  star_add _ _ := by ext <;> simp [add_comm]

theorem star_eq_conj (z : Cplx R) : star z = z.conj := rfl

end Cplx

/-! ### Matrices -/

namespace Mat3

/-- The entries of a matrix. -/
def toMatrix (m : Mat3 R) : Matrix (Fin 3) (Fin 3) (Cplx R) :=
  !![m.col0.x, m.col1.x, m.col2.x; m.col0.y, m.col1.y, m.col2.y; m.col0.z, m.col1.z, m.col2.z]

omit [CommRing R] in
theorem toMatrix_injective : Function.Injective (toMatrix : Mat3 R → _) := by
  intro m n h
  ext : 2
  · exact congrFun₂ h 0 0
  · exact congrFun₂ h 1 0
  · exact congrFun₂ h 2 0
  · exact congrFun₂ h 0 1
  · exact congrFun₂ h 1 1
  · exact congrFun₂ h 2 1
  · exact congrFun₂ h 0 2
  · exact congrFun₂ h 1 2
  · exact congrFun₂ h 2 2

instance : Neg (Mat3 R) := ⟨fun m => 0 - m⟩

@[simp] theorem toMatrix_zero : toMatrix (0 : Mat3 R) = 0 := by
  ext1 i j
  fin_cases i <;> fin_cases j <;> rfl

@[simp] theorem toMatrix_one : toMatrix (1 : Mat3 R) = 1 := by
  ext1 i j
  fin_cases i <;> fin_cases j <;> rfl

@[simp] theorem toMatrix_add (m n : Mat3 R) : toMatrix (m + n) = toMatrix m + toMatrix n := by
  ext1 i j
  fin_cases i <;> fin_cases j <;> rfl

@[simp] theorem toMatrix_sub (m n : Mat3 R) : toMatrix (m - n) = toMatrix m - toMatrix n := by
  ext1 i j
  fin_cases i <;> fin_cases j <;> rfl

@[simp] theorem toMatrix_neg (m : Mat3 R) : toMatrix (-m) = -toMatrix m := by
  rw [show -m = 0 - m from rfl, toMatrix_sub, toMatrix_zero, zero_sub]

theorem rowTimes_eq (a b c : Cplx R) (v : Vec3 R) :
    rowTimes a b c v = a * v.x + b * v.y + c * v.z := by
  simp only [rowTimes, one_mul]
  ring

@[simp] theorem toMatrix_mul (m n : Mat3 R) : toMatrix (m * n) = toMatrix m * toMatrix n := by
  ext1 i j
  rw [Matrix.mul_apply, Fin.sum_univ_three]
  fin_cases i <;> fin_cases j <;> exact rowTimes_eq ..

/-- Matrices over exact scalars are a ring. -/
instance : Ring (Mat3 R) where
  add_assoc _ _ _ := toMatrix_injective (by simp [add_assoc])
  zero_add _ := toMatrix_injective (by simp)
  add_zero _ := toMatrix_injective (by simp)
  add_comm _ _ := toMatrix_injective (by simp [add_comm])
  neg_add_cancel _ := toMatrix_injective (by simp)
  sub_eq_add_neg _ _ := toMatrix_injective (by simp [sub_eq_add_neg])
  mul_assoc _ _ _ := toMatrix_injective (by simp [mul_assoc])
  one_mul _ := toMatrix_injective (by simp)
  mul_one _ := toMatrix_injective (by simp)
  zero_mul _ := toMatrix_injective (by simp)
  mul_zero _ := toMatrix_injective (by simp)
  left_distrib _ _ _ := toMatrix_injective (by simp [mul_add])
  right_distrib _ _ _ := toMatrix_injective (by simp [add_mul])
  nsmul := nsmulRec
  zsmul := zsmulRec

/-! ### Adjoints and traces -/

theorem toMatrix_adjoint (m : Mat3 R) : toMatrix m.adjoint = (toMatrix m).conjTranspose := by
  ext1 i j
  fin_cases i <;> fin_cases j <;> rfl

theorem trace_eq (m : Mat3 R) : m.trace = (toMatrix m).trace := by
  rw [Matrix.trace_fin_three]
  rfl

@[simp] theorem adjoint_mul (m n : Mat3 R) : (m * n).adjoint = n.adjoint * m.adjoint :=
  toMatrix_injective (by simp only [toMatrix_adjoint, toMatrix_mul, Matrix.conjTranspose_mul])

@[simp] theorem adjoint_adjoint (m : Mat3 R) : m.adjoint.adjoint = m :=
  toMatrix_injective (by simp only [toMatrix_adjoint, Matrix.conjTranspose_conjTranspose])

theorem trace_add (m n : Mat3 R) : (m + n).trace = m.trace + n.trace := by
  simp only [trace_eq, toMatrix_add, Matrix.trace_add]

theorem trace_mul_comm (m n : Mat3 R) : (m * n).trace = (n * m).trace := by
  simp only [trace_eq, toMatrix_mul, Matrix.trace_mul_comm (toMatrix m)]

/-- A matrix and its adjoint have traces with the same real part. -/
theorem re_trace_adjoint (m : Mat3 R) : m.adjoint.trace.re = m.trace.re := by
  rw [trace_eq, toMatrix_adjoint, Matrix.trace_conjTranspose, ← trace_eq, Cplx.star_eq_conj,
    Cplx.re_conj]

/-- A matrix with its adjoint as an inverse. -/
def IsUnitary (m : Mat3 R) : Prop := m * m.adjoint = 1

instance [DecidableEq R] (m : Mat3 R) : Decidable m.IsUnitary :=
  inferInstanceAs (Decidable (m * m.adjoint = 1))

/-- The adjoint of a unitary matrix is also an inverse from the left. -/
theorem IsUnitary.adjoint_mul_self {m : Mat3 R} (h : m.IsUnitary) : m.adjoint * m = 1 := by
  have hleft : toMatrix m * toMatrix m.adjoint = 1 := by
    rw [← toMatrix_mul, show m * m.adjoint = 1 from h, toMatrix_one]
  refine toMatrix_injective ?_
  rw [toMatrix_mul, toMatrix_one]
  exact mul_eq_one_comm.1 hleft

/-- Conjugation with a unitary matrix keeps the trace. -/
theorem IsUnitary.trace_conj {g : Mat3 R} (h : g.IsUnitary) (m : Mat3 R) :
    (g * m * g.adjoint).trace = m.trace := by
  rw [trace_mul_comm, ← mul_assoc, h.adjoint_mul_self, one_mul]

end Mat3

end PureGauge
