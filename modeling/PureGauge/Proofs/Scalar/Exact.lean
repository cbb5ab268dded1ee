/-
**Exact functions of real scalars.**

The sampler computes with roots and angles that are only as good as the rounding allows.  Here are
the laws that they satisfy if nothing is rounded: the root of a number that is not negative is its
root, the length of a vector in the plane and its angle give its components back, and the angles of
products add up.  The threshold below which a number counts as zero stays what it is, as long as it
is not negative.  The real numbers with their own functions satisfy these laws.

Main definitions:

* `PureGauge.ExactRoots` — scalars with exact square roots;
* `PureGauge.ExactPolar` — scalars for which also the polar form of complex numbers is exact;
* `PureGauge.realFunctions` — the functions of the real numbers.

Main results:

* `PureGauge.ExactRoots.dot_normalised` — a vector that is not too short is normalised;
* `PureGauge.ExactPolar.normSq_phase`, `PureGauge.ExactPolar.conj_phase_mul` — the direction of a
  complex number;
* `PureGauge.ExactPolar.cube_principalCubeRoot` — the cube root of a complex number is one;
* `PureGauge.exactPolar_real` — the real numbers satisfy the laws.
-/
import PureGauge.Proofs.SU3.Unitary
import PureGauge.Proofs.Scalar.Inner
import PureGauge.SU3.NearUnity
import Mathlib.Analysis.SpecialFunctions.Complex.Arg
import Mathlib.Analysis.SpecialFunctions.Pow.Real

namespace PureGauge

/-- Scalars with exact square roots, and a threshold that is not negative. -/
structure ExactRoots (F : Type) [Field F] [LinearOrder F] [RealFunctions F] : Prop where
  epsilon_nonneg : 0 ≤ (RealFunctions.epsilon : F)
  sqrt_nonneg : ∀ x : F, 0 ≤ x → 0 ≤ RealFunctions.sqrt x
  sqrt_mul_self : ∀ x : F, 0 ≤ x → RealFunctions.sqrt x * RealFunctions.sqrt x = x

/-- Scalars with exact roots for which the polar form of complex numbers is exact as well. -/
structure ExactPolar (F : Type) [Field F] [LinearOrder F]
    [RealFunctions F] : Prop extends ExactRoots F where
  cbrt_cube : ∀ x : F,
    0 ≤ x → RealFunctions.cbrt x * RealFunctions.cbrt x * RealFunctions.cbrt x = x
  hypotenuse_nonneg : ∀ x y : F, 0 ≤ RealFunctions.hypotenuse x y
  hypotenuse_mul_self : ∀ x y : F,
    RealFunctions.hypotenuse x y * RealFunctions.hypotenuse x y = x * x + y * y
  hypotenuse_mul_cos : ∀ x y : F,
    RealFunctions.hypotenuse x y * RealFunctions.cos (RealFunctions.angle y x) = x
  hypotenuse_mul_sin : ∀ x y : F,
    RealFunctions.hypotenuse x y * RealFunctions.sin (RealFunctions.angle y x) = y
  cos_add : ∀ s t : F, RealFunctions.cos (s + t) =
    RealFunctions.cos s * RealFunctions.cos t - RealFunctions.sin s * RealFunctions.sin t
  sin_add : ∀ s t : F, RealFunctions.sin (s + t) =
    RealFunctions.cos s * RealFunctions.sin t + RealFunctions.sin s * RealFunctions.cos t

/-! ### Quotients -/

namespace Cplx

variable {F : Type} [Field F]

theorem unscale_eq (z : Cplx F) (r : F) : z.unscale r = z * ofReal r⁻¹ := by
  ext <;> simp [unscale, div_eq_mul_inv]

/-- Dividing by a number on the unit circle is multiplying with its conjugate. -/
theorem div_eq_of_normSq (z : Cplx F) {w : Cplx F} (h : w.normSq = 1) : z / w = z * w.conj := by
  ext
  · change (z.re * w.re + z.im * w.im) / w.normSq = _
    rw [h, div_one, re_mul, re_conj, im_conj]
    ring
  · change (z.im * w.re - z.re * w.im) / w.normSq = _
    rw [h, div_one, im_mul, re_conj, im_conj]
    ring

instance : Nontrivial (Cplx F) := ⟨0, 1, fun h => zero_ne_one (congrArg re h)⟩

variable [LinearOrder F] [IsStrictOrderedRing F]

theorem normSq_eq_zero_iff {z : Cplx F} : z.normSq = 0 ↔ z = 0 := by
  refine ⟨eq_zero_of_normSq, ?_⟩
  rintro rfl
  simp [normSq]

/-- Complex numbers over an ordered field have no divisors of zero. -/
instance : NoZeroDivisors (Cplx F) where
  eq_zero_or_eq_zero_of_mul_eq_zero {z w} h := by
    rw [← normSq_eq_zero_iff, normSq_mul, mul_eq_zero] at h
    exact h.imp eq_zero_of_normSq eq_zero_of_normSq

end Cplx

/-! ### Lengths -/

variable {F : Type} [Field F] [LinearOrder F] [RealFunctions F]

/-- A vector that is longer than the threshold is divided by its length. -/
theorem Vec3.normalised_eq_smul {v : Vec3 F} (h : RealFunctions.epsilon < v.norm) :
    v.normalised = v.smul (Cplx.ofReal v.norm⁻¹) := by
  simp only [normalised, if_neg h.not_ge, smul, Cplx.unscale_eq]

namespace ExactRoots

variable (hF : ExactRoots F)

include hF

/-- A vector that is longer than the threshold has a length that is not zero. -/
theorem norm_pos {v : Vec3 F} (h : RealFunctions.epsilon < v.norm) : 0 < v.norm :=
  hF.epsilon_nonneg.trans_lt h

variable [IsStrictOrderedRing F]

theorem norm_mul_self (v : Vec3 F) : v.norm * v.norm = v.normSq :=
  hF.sqrt_mul_self _ v.normSq_nonneg

theorem sqrt_one : RealFunctions.sqrt (1 : F) = 1 := by
  have hsquare := hF.sqrt_mul_self 1 zero_le_one
  have hnonneg := hF.sqrt_nonneg 1 zero_le_one
  exact (mul_self_eq_one_iff.1 hsquare).resolve_right fun h => by linarith

/-- A vector that is longer than the threshold has length one after it was divided. -/
theorem dot_normalised {v : Vec3 F} (h : RealFunctions.epsilon < v.norm) :
    v.normalised.dot v.normalised = 1 := by
  have hne := (hF.norm_pos h).ne'
  have hreal : v.norm⁻¹ * v.normSq * v.norm⁻¹ = 1 := by
    rw [← hF.norm_mul_self]
    field_simp
  rw [Vec3.normalised_eq_smul h, Vec3.smul_dot, Vec3.dot_smul, Cplx.conj_ofReal, Vec3.dot_self,
    ← Cplx.ofReal_mul, ← Cplx.ofReal_mul, ← mul_assoc, hreal, Cplx.ofReal_one]

end ExactRoots

/-! ### Polar form -/

namespace ExactPolar

variable (hF : ExactPolar F)

include hF

theorem modulus_nonneg (z : Cplx F) : 0 ≤ z.modulus := hF.hypotenuse_nonneg _ _

theorem modulus_mul_self (z : Cplx F) : z.modulus * z.modulus = z.normSq :=
  hF.hypotenuse_mul_self _ _

theorem polar_mul_polar (r s : F) (t u : F) :
    Cplx.polar r t * Cplx.polar s u = Cplx.polar (r * s) (t + u) := by
  ext
  · simp only [Cplx.polar, Cplx.re_mul, hF.cos_add]
    ring
  · simp only [Cplx.polar, Cplx.im_mul, hF.sin_add]
    ring

theorem polar_eq (z : Cplx F) : Cplx.polar z.modulus z.argument = z :=
  Cplx.ext (hF.hypotenuse_mul_cos _ _) (hF.hypotenuse_mul_sin _ _)

/-- A number divided by its modulus lies on the unit circle. -/
theorem normSq_unscale {z : Cplx F} (hz : z.modulus ≠ 0) : (z.unscale z.modulus).normSq = 1 := by
  rw [Cplx.unscale_eq, Cplx.normSq_mul, Cplx.normSq_ofReal, ← hF.modulus_mul_self]
  field_simp

theorem normSq_unitPhase (z : Cplx F) : z.unitPhase.normSq = 1 := by
  rw [Cplx.unitPhase]
  split
  · next h => exact hF.normSq_unscale (hF.epsilon_nonneg.trans_lt h).ne'
  · exact Cplx.normSq_one

theorem normSq_phase (z : Cplx F) : z.phase.normSq = 1 := by
  rw [Cplx.phase]
  split
  · exact Cplx.normSq_one
  · next h => exact hF.normSq_unscale fun hz => h (beq_iff_eq.2 hz)

variable [IsStrictOrderedRing F]

theorem modulus_eq_zero_iff {z : Cplx F} : z.modulus = 0 ↔ z = 0 := by
  rw [← Cplx.normSq_eq_zero_iff, ← hF.modulus_mul_self, mul_self_eq_zero]

/-- Turning a number keeps its modulus. -/
theorem modulus_mul_of_normSq {w : Cplx F} (hw : w.normSq = 1) (z : Cplx F) :
    (w * z).modulus = z.modulus := by
  rw [← mul_self_inj (hF.modulus_nonneg _) (hF.modulus_nonneg _), hF.modulus_mul_self,
    hF.modulus_mul_self, Cplx.normSq_mul, hw, one_mul]

/-- Turning a number that is above the threshold turns its direction. -/
theorem unitPhase_mul {w z : Cplx F} (hw : w.normSq = 1) (hz : RealFunctions.epsilon < z.modulus) :
    (w * z).unitPhase = w * z.unitPhase := by
  simp only [Cplx.unitPhase, hF.modulus_mul_of_normSq hw, if_pos hz, Cplx.unscale_eq, mul_assoc]

/-- A number turned back by its direction is its modulus. -/
theorem conj_phase_mul (z : Cplx F) : z.phase.conj * z = Cplx.ofReal z.modulus := by
  rw [Cplx.phase]
  split
  · next h =>
      have hz : z.modulus = 0 := beq_iff_eq.1 h
      rw [hz, hF.modulus_eq_zero_iff.1 hz, mul_zero, Cplx.ofReal_zero]
  · next h =>
      have hz : z.modulus ≠ 0 := fun hz => h (beq_iff_eq.2 hz)
      rw [Cplx.unscale_eq, Cplx.conj_mul, Cplx.conj_ofReal, mul_right_comm, Cplx.conj_mul_self,
        ← hF.modulus_mul_self, ← Cplx.ofReal_mul, mul_inv_cancel_right₀ hz]

/-- The cube of the cube root. -/
theorem cube_principalCubeRoot (z : Cplx F) :
    z.principalCubeRoot * z.principalCubeRoot * z.principalCubeRoot = z := by
  have hthird : z.argument / ((3 : ℕ) : F) + z.argument / ((3 : ℕ) : F) +
      z.argument / ((3 : ℕ) : F) =
      z.argument := by
    push_cast
    ring
  rw [Cplx.principalCubeRoot, hF.polar_mul_polar, hF.polar_mul_polar, hthird,
    hF.cbrt_cube _ (hF.modulus_nonneg z), hF.polar_eq]

/-- The cube root of a number on the unit circle lies on the unit circle. -/
theorem normSq_principalCubeRoot {z : Cplx F} (hz : z.normSq = 1) :
    z.principalCubeRoot.normSq = 1 := by
  have hcube := congrArg Cplx.normSq (hF.cube_principalCubeRoot z)
  rw [Cplx.normSq_mul, Cplx.normSq_mul, hz] at hcube
  have hpow : z.principalCubeRoot.normSq ^ 3 = 1 := by
    rw [← hcube]
    ring
  exact (pow_eq_one_iff_of_nonneg z.principalCubeRoot.normSq_nonneg (by norm_num)).1 hpow

end ExactPolar

/-! ### The real numbers -/

/-- The functions of the real numbers, with the threshold of doubles. -/
noncomputable instance realFunctions : RealFunctions ℝ where
  epsilon := 1 / ((2 ^ 52 : ℕ) : ℝ)
  pi := Real.pi
  sqrt := Real.sqrt
  cbrt := fun x => x ^ (1 / ((3 : ℕ) : ℝ))
  exp := Real.exp
  log := Real.log
  sin := Real.sin
  cos := Real.cos
  angle := fun y x => Complex.arg ⟨x, y⟩
  hypotenuse := fun x y => ‖(⟨x, y⟩ : ℂ)‖
  isFinite := fun _ => true

/-- **The functions of the real numbers are exact.** -/
theorem exactPolar_real : ExactPolar ℝ where
  epsilon_nonneg := by
    change (0 : ℝ) ≤ 1 / ((2 ^ 52 : ℕ) : ℝ)
    positivity
  sqrt_nonneg x _ := Real.sqrt_nonneg x
  sqrt_mul_self _ hx := Real.mul_self_sqrt hx
  cbrt_cube x hx := by
    change x ^ (1 / ((3 : ℕ) : ℝ)) * x ^ (1 / ((3 : ℕ) : ℝ)) * x ^ (1 / ((3 : ℕ) : ℝ)) = x
    rw [← Real.rpow_add_of_nonneg hx (by norm_num) (by norm_num),
      ← Real.rpow_add_of_nonneg hx (by norm_num) (by norm_num)]
    norm_num
  hypotenuse_nonneg x y := norm_nonneg (⟨x, y⟩ : ℂ)
  hypotenuse_mul_self x y := (Complex.norm_mul_self_eq_normSq ⟨x, y⟩).trans (Complex.normSq_mk x y)
  hypotenuse_mul_cos x y := Complex.norm_mul_cos_arg ⟨x, y⟩
  hypotenuse_mul_sin x y := Complex.norm_mul_sin_arg ⟨x, y⟩
  cos_add s t := Real.cos_add s t
  sin_add s t := by
    change Real.sin (s + t) = _
    rw [Real.sin_add, add_comm]
    rfl

/-- The threshold of doubles is small. -/
theorem epsilon_lt_one : (RealFunctions.epsilon : ℝ) < 1 := by
  change 1 / ((2 ^ 52 : ℕ) : ℝ) < 1
  norm_num

/-- Vectors of real numbers of length at least one are not too short. -/
theorem epsilon_lt_norm {v : Vec3 ℝ} (h : 1 ≤ v.normSq) : RealFunctions.epsilon < v.norm :=
  epsilon_lt_one.trans_le (Real.one_le_sqrt.2 h)

/-- Complex numbers of modulus at least one are not too small. -/
theorem epsilon_lt_modulus {z : Cplx ℝ} (h : 1 ≤ z.normSq) : RealFunctions.epsilon < z.modulus := by
  refine epsilon_lt_one.trans_le ((one_le_sq_iff₀ (exactPolar_real.modulus_nonneg z)).1 ?_)
  rwa [sq, exactPolar_real.modulus_mul_self]

end PureGauge
