/-
**Traces of unitary matrices over an ordered field.**

The squared moduli of the entries of a unitary matrix add up to three, so that its distance from the
identity is given by the real part of its trace alone.  As a distance is not negative, the real part
of the trace is at most three, and it is three for the identity only.  The negative of a unitary
matrix is unitary as well, so that the real part of the trace is not less than minus three.

Main definitions:

* `PureGauge.Mat3.normSq` — the sum of the squared moduli of the entries.

Main results:

* `PureGauge.Mat3.IsUnitary.normSq_sub_one` — the distance from the identity;
* `PureGauge.Mat3.IsUnitary.abs_re_trace_le` — the real part of the trace is between minus three and
  three;
* `PureGauge.Mat3.IsUnitary.re_trace_eq_three_iff` — it is three for the identity only.
-/
import PureGauge.Proofs.SU3.Special
import Mathlib.Algebra.Order.Ring.Abs
import Mathlib.Tactic.Linarith

namespace PureGauge

/-! ### Squared moduli -/

/-- The sum of the squared moduli of all entries. -/
def Mat3.normSq {R : Type} [Add R] [Mul R] (m : Mat3 R) : R :=
  m.col0.normSq + m.col1.normSq + m.col2.normSq

section

variable {F : Type} [Field F] [LinearOrder F] [IsStrictOrderedRing F]

theorem Cplx.normSq_nonneg (z : Cplx F) : 0 ≤ z.normSq :=
  add_nonneg (mul_self_nonneg _) (mul_self_nonneg _)

theorem Vec3.normSq_nonneg (v : Vec3 F) : 0 ≤ v.normSq :=
  add_nonneg (add_nonneg v.x.normSq_nonneg v.y.normSq_nonneg) v.z.normSq_nonneg

theorem Mat3.normSq_nonneg (m : Mat3 F) : 0 ≤ m.normSq :=
  add_nonneg (add_nonneg m.col0.normSq_nonneg m.col1.normSq_nonneg) m.col2.normSq_nonneg

/-- Three numbers that are not negative vanish if their sum does. -/
theorem eq_zero_of_add_eq_zero {a b c : F} (ha : 0 ≤ a) (hb : 0 ≤ b) (hc : 0 ≤ c)
    (h : a + b + c = 0) :
    a = 0 ∧ b = 0 ∧ c = 0 := by
  obtain ⟨hab, hc⟩ := (add_eq_zero_iff_of_nonneg (add_nonneg ha hb) hc).1 h
  obtain ⟨ha, hb⟩ := (add_eq_zero_iff_of_nonneg ha hb).1 hab
  exact ⟨ha, hb, hc⟩

theorem Cplx.eq_zero_of_normSq {z : Cplx F} (h : z.normSq = 0) : z = 0 := by
  obtain ⟨hre, him⟩ := mul_self_add_mul_self_eq_zero.1 h
  exact Cplx.ext hre him

theorem Vec3.eq_zero_of_normSq {v : Vec3 F} (h : v.normSq = 0) : v = ⟨0, 0, 0⟩ := by
  obtain ⟨hx, hy, hz⟩ :=
    eq_zero_of_add_eq_zero v.x.normSq_nonneg v.y.normSq_nonneg v.z.normSq_nonneg h
  exact Vec3.ext (Cplx.eq_zero_of_normSq hx) (Cplx.eq_zero_of_normSq hy) (Cplx.eq_zero_of_normSq hz)

theorem Mat3.eq_zero_of_normSq {m : Mat3 F} (h : m.normSq = 0) : m = 0 := by
  obtain ⟨h0, h1, h2⟩ :=
    eq_zero_of_add_eq_zero m.col0.normSq_nonneg m.col1.normSq_nonneg m.col2.normSq_nonneg h
  exact Mat3.ext (Vec3.eq_zero_of_normSq h0) (Vec3.eq_zero_of_normSq h1) (Vec3.eq_zero_of_normSq h2)

end

@[simp] theorem Mat3.adjoint_one {R : Type} [CommRing R] : (1 : Mat3 R).adjoint = 1 :=
  toMatrix_injective (by rw [toMatrix_adjoint, toMatrix_one, Matrix.conjTranspose_one])

theorem Mat3.trace_neg {R : Type} [CommRing R] (m : Mat3 R) : (-m).trace = -m.trace := by
  rw [trace_eq, toMatrix_neg, Matrix.trace_neg, ← trace_eq]

namespace Mat3.IsUnitary

/-! ### The entries of a unitary matrix -/

section

variable {R : Type} [CommRing R] {m : Mat3 R}

protected theorem adjoint (h : m.IsUnitary) : m.adjoint.IsUnitary := by
  rw [IsUnitary, adjoint_adjoint]
  exact h.adjoint_mul_self

protected theorem neg (h : m.IsUnitary) : (-m).IsUnitary := by
  have hunitary : m * m.adjoint = 1 := h
  rw [IsUnitary, ← hunitary]
  refine toMatrix_injective ?_
  simp only [toMatrix_mul, toMatrix_adjoint, toMatrix_neg, Matrix.conjTranspose_neg, neg_mul_neg]

protected theorem one : (1 : Mat3 R).IsUnitary := by rw [IsUnitary, adjoint_one, one_mul]

/-- The product around a square is unitary. -/
theorem square {a b c d : Mat3 R} (ha : a.IsUnitary) (hb : b.IsUnitary) (hc : c.IsUnitary)
    (hd : d.IsUnitary) : (a * b * c.adjoint * d.adjoint).IsUnitary :=
  ((ha.mul hb).mul hc.adjoint).mul hd.adjoint

theorem normSq_eq_three (h : m.IsUnitary) : m.normSq = 3 := by
  obtain ⟨h0, -, h1⟩ := h.dot_col
  obtain ⟨-, -, h2⟩ := h.dot_col2
  rw [normSq, Vec3.normSq_eq_one h0, Vec3.normSq_eq_one h1, Vec3.normSq_eq_one h2]
  ring

/-- The distance from the identity is given by the trace. -/
theorem normSq_sub_one (h : m.IsUnitary) : (m - 1).normSq = 6 - 2 * m.trace.re := by
  have hone : ∀ z : Cplx R, (z - 1).normSq = z.normSq + 1 - 2 * z.re := by
    intro z
    simp only [Cplx.normSq, Cplx.re_sub, Cplx.im_sub, Cplx.re_one, Cplx.im_one]
    ring
  have hentries : (m - 1).normSq =
      ((m.col0.x - 1).normSq + (m.col0.y - 0).normSq + (m.col0.z - 0).normSq) +
        ((m.col1.x - 0).normSq + (m.col1.y - 1).normSq + (m.col1.z - 0).normSq) +
        ((m.col2.x - 0).normSq + (m.col2.y - 0).normSq + (m.col2.z - 1).normSq) := rfl
  calc (m - 1).normSq = m.normSq + 3 - 2 * m.trace.re := by
        rw [hentries, hone, hone, hone, normSq, Vec3.normSq, Vec3.normSq, Vec3.normSq, trace,
          Cplx.re_add, Cplx.re_add]
        simp only [sub_zero]
        ring
    _ = 6 - 2 * m.trace.re := by
        rw [h.normSq_eq_three]
        ring

end

/-! ### Traces -/

variable {F : Type} [Field F] [LinearOrder F] [IsStrictOrderedRing F] {m : Mat3 F}

theorem re_trace_le (h : m.IsUnitary) : m.trace.re ≤ 3 := by
  have hdistance := (m - 1).normSq_nonneg
  rw [h.normSq_sub_one] at hdistance
  linarith

/-- The real part of the trace is between minus three and three. -/
theorem abs_re_trace_le (h : m.IsUnitary) : |m.trace.re| ≤ 3 := by
  have hneg := h.neg.re_trace_le
  rw [trace_neg, Cplx.re_neg] at hneg
  exact abs_le.2 ⟨neg_le.1 hneg, h.re_trace_le⟩

/-- **The real part of the trace is three for the identity only.** -/
theorem re_trace_eq_three_iff (h : m.IsUnitary) : m.trace.re = 3 ↔ m = 1 := by
  constructor
  · intro htrace
    refine sub_eq_zero.1 (eq_zero_of_normSq ?_)
    rw [h.normSq_sub_one, htrace]
    ring
  · rintro rfl
    change (1 : F) + 1 + 1 = 3
    ring

end Mat3.IsUnitary

end PureGauge
