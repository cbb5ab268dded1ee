/-
**Matrices near the identity are special unitary.**

The matrix that is made from a perturbation of the identity is special unitary whatever the unitary
factor is that it is made from, and it is the same for all factors, as long as the diagonal of the
triangular factor is above the threshold.  So the signs and phases that a factorisation happens to
choose cannot be seen in the matrices that are drawn.

Main results:

* `PureGauge.Mat3.isSpecialUnitary_of_nearUnity` — every matrix that is drawn is special unitary;
* `PureGauge.Mat3.nearUnity_factorisation` — it is the matrix of any factorisation.
-/
import PureGauge.Proofs.SU3.Pairs
import PureGauge.Proofs.SU3.Reflection

namespace PureGauge

namespace Mat3

variable {F : Type} [Field F] [LinearOrder F] [IsStrictOrderedRing F] [RealFunctions F]
  (hF : ExactPolar F)

include hF

theorem isSpecialUnitary_ofPerturbation (a : Mat3 F) (ε : F) :
    (ofPerturbation a ε).IsSpecialUnitary := by
  obtain ⟨r, hfactors, -⟩ := factors_unitaryTriangular hF (1 + a.smul (Cplx.imaginary ε))
  exact isSpecialUnitary_ofFactors hF hfactors.unitary _

/-- A perturbation may be factored in any way. -/
theorem ofPerturbation_eq {a q r : Mat3 F} {ε : F} (h : Factors (1 + a.smul (Cplx.imaginary ε)) q r)
    (hlong : r.HasLongDiagonal) : ofPerturbation a ε = ofFactors q r.diagonalPart := by
  obtain ⟨r', hfactors, hdiagonal⟩ := factors_unitaryTriangular hF (1 + a.smul (Cplx.imaginary ε))
  rw [h.ofFactors_eq hF hfactors hlong, hdiagonal, ofPerturbation]

variable {G : Type} [WordSource G]

/-- A matrix that is drawn near the identity is special unitary. -/
theorem isSpecialUnitary_of_nearUnity {s : Spread F} {m : Mat3 F} {g g' : G}
    (h : nearUnity s g = .ok m g') :
    m.IsSpecialUnitary := by
  rw [nearUnity] at h
  split at h
  case isTrue =>
    cases h
    exact IsSpecialUnitary.one
  case isFalse =>
    obtain ⟨c0, g₁, -, h⟩ := Draw.bind_eq_ok_iff.1 h
    obtain ⟨c1, g₂, -, h⟩ := Draw.bind_eq_ok_iff.1 h
    obtain ⟨c2, g₃, -, h⟩ := Draw.bind_eq_ok_iff.1 h
    cases h
    exact isSpecialUnitary_ofPerturbation hF _ _

/-- **Matrices near the identity do not depend on how a matrix is factored.**  Let roots and angles
be exact.  The matrix that is made from any factorisation of any matrix is special unitary.  Two
factorisations of the same matrix yield the same matrix if a diagonal is above the threshold.  The
reflections yield a factorisation of every matrix; so for a perturbation of the identity they yield
the matrix of any other factorisation whose diagonal is above the threshold.  Only special unitary
matrices are drawn, and a source that never stops always lets one be drawn. -/
theorem nearUnity_factorisation :
    (∀ b q r : Mat3 F, Factors b q r → (ofFactors q r.diagonalPart).IsSpecialUnitary) ∧
      (∀ b q r q' r' : Mat3 F, Factors b q r → Factors b q' r' → r.HasLongDiagonal →
        ofFactors q r.diagonalPart = ofFactors q' r'.diagonalPart) ∧
      (∀ b : Mat3 F, ∃ r,
        Factors b (unitaryTriangular b).1 r ∧ r.diagonalPart = (unitaryTriangular b).2) ∧
      (∀ (a q r : Mat3 F) (ε : F), Factors (1 + a.smul (Cplx.imaginary ε)) q r → r.HasLongDiagonal →
        ofPerturbation a ε = ofFactors q r.diagonalPart) ∧
      (∀ (s : Spread F) (m : Mat3 F) (g g' : G), nearUnity s g = .ok m g' → m.IsSpecialUnitary) ∧
      (Endless G → ∀ s : Spread F, (nearUnity s : Draw G (Mat3 F)).Total) :=
  ⟨fun _ _ _ h => isSpecialUnitary_ofFactors hF h.unitary _,
    fun _ _ _ _ _ h h' hlong => h.ofFactors_eq hF h' hlong, factors_unitaryTriangular hF,
    fun _ _ _ _ h hlong => ofPerturbation_eq hF h hlong,
    fun _ _ _ _ h => isSpecialUnitary_of_nearUnity hF h, fun hG s => Pool.total_nearUnity hG s⟩

end Mat3

/-! ### A matrix over the real numbers -/

/-- An upper triangular matrix. -/
def upperMatrix : Mat3 ℝ := ⟨⟨1, 0, 0⟩, ⟨⟨1, 1⟩, ⟨0, 1⟩, 0⟩, ⟨⟨0, 1⟩, 1, -1⟩⟩

/-- Turns for its rows. -/
def quarterTurns : Mat3 ℝ := Mat3.diagonal ⟨⟨0, 1⟩, -1, 1⟩

theorem factors_upperMatrix :
    Mat3.Factors upperMatrix 1 upperMatrix ∧
      Mat3.Factors upperMatrix quarterTurns (quarterTurns.adjoint * upperMatrix) := by
  have hunitary : quarterTurns.IsUnitary := by
    refine Mat3.isUnitary_diagonal ?_ ?_ ?_
    all_goals norm_num [Cplx.normSq]
  have hinverse : quarterTurns * quarterTurns.adjoint = 1 := hunitary
  refine ⟨⟨.one, ⟨rfl, rfl, rfl⟩, one_mul _⟩,
    ⟨hunitary, ?_, by rw [← mul_assoc, hinverse, one_mul]⟩⟩
  rw [Mat3.adjoint_mul_eq]
  constructor
  all_goals simp [Vec3.dot, quarterTurns, Mat3.diagonal, upperMatrix]

theorem ofFactors_upperMatrix :
    (Mat3.ofFactors 1 upperMatrix.diagonalPart).IsSpecialUnitary ∧
      Mat3.ofFactors 1 upperMatrix.diagonalPart =
        Mat3.ofFactors quarterTurns (quarterTurns.adjoint * upperMatrix).diagonalPart := by
  obtain ⟨hspecial, hequal, -⟩ := Mat3.nearUnity_factorisation (G := Script) exactPolar_real
  obtain ⟨hfactors, hturned⟩ := factors_upperMatrix
  refine ⟨hspecial _ _ _ hfactors, hequal _ _ _ _ _ hfactors hturned ⟨?_, ?_, ?_⟩⟩
  all_goals
    refine epsilon_lt_modulus ?_
    norm_num [Mat3.diagonalPart, upperMatrix, Cplx.normSq]

end PureGauge
