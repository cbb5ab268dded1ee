/-
**The projection onto the special unitary matrices.**

Two vectors are made orthonormal and completed by the conjugate of their vector product.  With exact
roots the part of the second vector that is orthogonal to the first one is the same whether it is
taken with the first vector or with its direction, so that if neither of the two is too short, both
are normalised, and the matrix is special unitary.  If only the first one is long enough, the second
column is left orthogonal to it, and projecting once more changes nothing.

Main results:

* `PureGauge.Vec3.sub_normalised` — the orthogonal part, written both ways;
* `PureGauge.Mat3.isSpecialUnitary_ofTwoVectors` — two vectors that are long enough;
* `PureGauge.Mat3.orthonormalised_projection` — the projection and its effect on a field.
-/
import PureGauge.Proofs.Scalar.Exact
import PureGauge.Field.Basic

namespace PureGauge

variable {F : Type} [Field F] [LinearOrder F] [IsStrictOrderedRing F] [RealFunctions F]

/-! ### Directions -/

namespace Vec3

omit [LinearOrder F] [IsStrictOrderedRing F] [RealFunctions F] in
theorem sub_smul_smul (v w : Vec3 F) (c d : Cplx F) :
    (w - v.smul c).smul d = v.smul (-(c * d)) + w.smul d := by
  have hentry : ∀ x y : Cplx F, (y - x * c) * d = x * -(c * d) + y * d := by
    intro x y
    ring
  exact Vec3.ext (hentry v.x w.x) (hentry v.y w.y) (hentry v.z w.z)

omit [IsStrictOrderedRing F] in
/-- What is orthogonal to a vector is orthogonal to its direction. -/
theorem dot_normalised_eq_zero {u v : Vec3 F} (h : u.dot v = 0) : u.dot v.normalised = 0 := by
  rcases le_or_gt v.norm RealFunctions.epsilon with hv | hv
  · have hshort : v.normalised = v := if_pos hv
    rw [hshort, h]
  · rw [normalised_eq_smul hv, dot_smul, h, zero_mul]

variable (hF : ExactRoots F) {v : Vec3 F}

include hF

/-- A vector that was divided by its length, or was too short for that, is normalised already. -/
theorem normalised_normalised (v : Vec3 F) : v.normalised.normalised = v.normalised := by
  rcases le_or_gt v.norm RealFunctions.epsilon with hv | hv
  · have hshort : v.normalised = v := if_pos hv
    rw [hshort, hshort]
  · exact normalised_eq hF.sqrt_one (hF.dot_normalised hv)

variable (hv : RealFunctions.epsilon < v.norm)

include hv

/-- The orthogonal part of a vector can be taken with the direction of the other one. -/
theorem sub_normalised (w : Vec3 F) :
    w - v.normalised.smul (v.normalised.dot w) = v.rejection w := by
  have hscale : v.norm⁻¹ * v.norm⁻¹ = v.normSq⁻¹ := by rw [← hF.norm_mul_self, mul_inv]
  have hpart : v.normalised.smul (v.normalised.dot w) = v.smul ((v.dot w).unscale v.normSq) := by
    calc v.normalised.smul (v.normalised.dot w)
        = v.smul (Cplx.ofReal (v.norm⁻¹ * v.norm⁻¹) * v.dot w) := by
          rw [normalised_eq_smul hv, smul_dot, Cplx.conj_ofReal, smul_smul, Cplx.ofReal_mul,
            mul_assoc]
      _ = v.smul ((v.dot w).unscale v.normSq) := by rw [hscale, Cplx.unscale_eq, mul_comm]
  rw [hpart, rejection]

/-- The orthogonal part of a vector is orthogonal to the direction that was taken away. -/
theorem normalised_dot_rejection (w : Vec3 F) : v.normalised.dot (v.rejection w) = 0 := by
  rw [← sub_normalised hF hv, dot_sub, dot_smul, hF.dot_normalised hv, one_mul, sub_self]

end Vec3

/-! ### Two vectors -/

namespace Mat3

variable (hF : ExactRoots F)

include hF

/-- The matrix that is made from two vectors, the first of which is long enough. -/
theorem ofTwoVectors_eq {v : Vec3 F} (hv : RealFunctions.epsilon < v.norm) (w : Vec3 F) :
    ofTwoVectors v w = ⟨v.normalised, (v.rejection w).normalised,
      v.normalised.conj.cross (v.rejection w).normalised.conj⟩ := by
  rw [ofTwoVectors, Vec3.sub_normalised hF hv]

/-- Two vectors make a special unitary matrix, if the first one and the orthogonal part of the
second one are long enough. -/
theorem isSpecialUnitary_ofTwoVectors {v w : Vec3 F} (hv : RealFunctions.epsilon < v.norm)
    (hw : RealFunctions.epsilon < (v.rejection w).norm) : (ofTwoVectors v w).IsSpecialUnitary := by
  rw [ofTwoVectors_eq hF hv]
  exact isSpecialUnitary_of_orthonormal (hF.dot_normalised hv)
    (Vec3.dot_normalised_eq_zero (Vec3.normalised_dot_rejection hF hv w)) (hF.dot_normalised hw)

/-- Projecting a matrix whose first column is long enough once more changes nothing. -/
theorem orthonormalised_orthonormalised {m : Mat3 F} (hm : RealFunctions.epsilon < m.col0.norm) :
    m.orthonormalised.orthonormalised = m.orthonormalised := by
  have horthogonal := Vec3.dot_normalised_eq_zero (Vec3.normalised_dot_rejection hF hm m.col1)
  have heq : m.orthonormalised = _ := ofTwoVectors_eq hF hm m.col1
  rw [heq, orthonormalised, ofTwoVectors, Vec3.normalised_normalised hF, horthogonal,
    Vec3.sub_smul_zero, Vec3.normalised_normalised hF]

/-- The second column of a projected matrix is a combination of the first two columns of the
matrix. -/
theorem exists_col1_orthonormalised {m : Mat3 F} (hm : RealFunctions.epsilon < m.col0.norm)
    (hpart : RealFunctions.epsilon < (m.col0.rejection m.col1).norm) :
    ∃ c d : Cplx F, m.orthonormalised.col1 = m.col0.smul c + m.col1.smul d := by
  set r := Cplx.ofReal (m.col0.rejection m.col1).norm⁻¹ with hr
  refine ⟨-((m.col0.dot m.col1).unscale m.col0.normSq * r), r, ?_⟩
  rw [orthonormalised, ofTwoVectors_eq hF hm, Vec3.normalised_eq_smul hpart, ← hr, Vec3.rejection,
    Vec3.sub_smul_smul]

/-- **The projection onto the special unitary matrices.**  Let roots be exact.  If the first column
of a matrix is longer than the threshold, projecting the matrix once more changes nothing.  If also
the part of the second column that is orthogonal to the first one is longer than the threshold, then
the projected matrix is special unitary, its first column is a positive multiple of the first column
of the matrix, and its second column a combination of the first two.  A special unitary matrix is
projected onto itself.  A field of any size is projected matrix by matrix. -/
theorem orthonormalised_projection :
    (∀ m : Mat3 F, RealFunctions.epsilon < m.col0.norm →
      m.orthonormalised.orthonormalised = m.orthonormalised ∧
        (RealFunctions.epsilon < (m.col0.rejection m.col1).norm →
          m.orthonormalised.IsSpecialUnitary ∧
            (∃ r : F, 0 < r ∧ m.orthonormalised.col0 = m.col0.smul (Cplx.ofReal r)) ∧
            ∃ c d : Cplx F, m.orthonormalised.col1 = m.col0.smul c + m.col1.smul d)) ∧
      (∀ m : Mat3 F, m.IsSpecialUnitary → m.orthonormalised = m) ∧
      ∀ f : LinkField F, f.normalised.size = f.size ∧
        ∀ i : ℕ, f.normalised.data[i]? = f.data[i]?.map orthonormalised := by
  refine ⟨fun m hm => ⟨orthonormalised_orthonormalised hF hm, fun hpart => ⟨?_, ?_, ?_⟩⟩,
    fun m hm => hm.orthonormalised_eq hF.sqrt_one,
    fun f => ⟨Array.size_map, fun i => Array.getElem?_map⟩⟩
  · exact isSpecialUnitary_ofTwoVectors hF hm hpart
  · exact ⟨m.col0.norm⁻¹, inv_pos.2 (hF.norm_pos hm), Vec3.normalised_eq_smul hm⟩
  · exact exists_col1_orthonormalised hF hm hpart

end Mat3

/-! ### A matrix over the real numbers -/

/-- A matrix whose first two columns are not orthogonal. -/
noncomputable def slantedMatrix : Mat3 ℝ := ⟨⟨⟨3, 0⟩, ⟨0, 4⟩, 0⟩, ⟨1, 1, 1⟩, ⟨0, 0, 0⟩⟩

theorem orthonormalised_slantedMatrix :
    slantedMatrix.orthonormalised.IsSpecialUnitary ∧
      slantedMatrix.orthonormalised.orthonormalised = slantedMatrix.orthonormalised := by
  have hcol : slantedMatrix.col0.normSq = 25 := by
    norm_num [slantedMatrix, Vec3.normSq, Cplx.normSq]
  have hpart : (slantedMatrix.col0.rejection slantedMatrix.col1).normSq = 2 := by
    have hdot : slantedMatrix.col0.dot slantedMatrix.col1 = ⟨3, -4⟩ := by
      ext <;> norm_num [slantedMatrix, Vec3.dot]
    have hentries : slantedMatrix.col0.rejection slantedMatrix.col1 =
        ⟨⟨16 / 25, 12 / 25⟩, ⟨9 / 25, -12 / 25⟩, 1⟩ := by
      rw [Vec3.rejection, hdot, hcol]
      ext <;> norm_num [slantedMatrix, Cplx.unscale]
    rw [hentries]
    norm_num [Vec3.normSq, Cplx.normSq]
  obtain ⟨hprojected, -, -⟩ := Mat3.orthonormalised_projection exactPolar_real.toExactRoots
  obtain ⟨hagain, hspecial⟩ := hprojected slantedMatrix (epsilon_lt_norm (by rw [hcol]; norm_num))
  exact ⟨(hspecial (epsilon_lt_norm (by rw [hpart]; norm_num))).1, hagain⟩

end PureGauge
