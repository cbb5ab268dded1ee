/-
**Uniformly distributed matrices are special unitary.**

Two vectors are drawn, each of them again and again until a length is above the threshold: that of
the first vector itself, and that of the part of the second one that is orthogonal to the first.
The second length is taken with the first vector, whereas the matrix is made with its direction.
With exact roots this makes no difference, so that none of the two normalisations that follow ever
falls back on a vector that is too short, whatever the numbers are that are drawn.

Main results:

* `PureGauge.Vec3.epsilon_lt_of_gaussianWith` — a vector that is drawn is long enough;
* `PureGauge.Mat3.haar_eq_ok_iff` — a matrix is drawn exactly if both loops end;
* `PureGauge.LinkField.hot_isSpecialUnitary` — every matrix that is drawn, alone or for a link of a
  lattice, is special unitary.
-/
import PureGauge.Proofs.Random.Draw
import PureGauge.Proofs.SU3.Projection

namespace PureGauge

section

variable {G F : Type} [WordSource G] [NormalDeviate F] [Field F] [LinearOrder F] [RealFunctions F]

/-- A vector that is drawn passes the test of its loop. -/
theorem Vec3.epsilon_lt_of_gaussianWith {measured : Vec3 F → Vec3 F} {v : Vec3 F} {g g' : G}
    (h : gaussianWith measured g = .ok v g') : RealFunctions.epsilon < (measured v).norm := by
  obtain ⟨g₁, hattempt⟩ := Draw.exists_attempt_of_untilSomeWithin h
  obtain ⟨w, g₂, -, htest⟩ := Draw.bind_eq_ok_iff.1 hattempt
  split at htest
  case isTrue => cases htest
  case isFalse hlong =>
    cases htest
    exact not_le.1 hlong

/-- A vector that is too short is drawn again. -/
theorem Vec3.gaussianWith_twice {measured : Vec3 F → Vec3 F} {v w : Vec3 F} {g g₁ g₂ : G}
    (hv : gaussian g = .ok v g₁) (hshort : (measured v).norm ≤ RealFunctions.epsilon)
    (hw : gaussian g₁ = .ok w g₂) (hlong : RealFunctions.epsilon < (measured w).norm) :
    gaussianWith measured g = .ok w g₂ := by
  set attempt : Draw G (Option (Vec3 F)) := do
    let v ← gaussian
    return if (measured v).norm ≤ RealFunctions.epsilon then none else some v
  have hrejected : attempt g = .ok none g₁ :=
    (Draw.bind_of_ok hv).trans (by rw [if_pos hshort, Draw.pure_apply])
  have haccepted : attempt g₁ = .ok (some w) g₂ :=
    (Draw.bind_of_ok hw).trans (by rw [if_neg hlong.not_ge, Draw.pure_apply])
  have hlimit : attemptLimit = attemptLimit - 2 + 1 + 1 := rfl
  change attempt.untilSomeWithin attemptLimit g = _
  rw [hlimit, Draw.untilSomeWithin_of_none hrejected, Draw.untilSomeWithin_of_some haccepted]

/-- A matrix is drawn exactly if both loops end. -/
theorem Mat3.haar_eq_ok_iff {m : Mat3 F} {g g' : G} :
    haar g = .ok m g' ↔ ∃ v g₁ w, Vec3.gaussianWith id g = .ok v g₁ ∧
      Vec3.gaussianWith v.rejection g₁ = .ok w g' ∧ m = ofTwoVectors v w := by
  rw [haar, Draw.bind_eq_ok_iff]
  constructor
  · rintro ⟨v, g₁, hv, h⟩
    obtain ⟨w, g₂, hw, h⟩ := Draw.bind_eq_ok_iff.1 h
    cases h
    exact ⟨v, g₁, w, hv, hw, rfl⟩
  · rintro ⟨v, g₁, w, hv, hw, rfl⟩
    exact ⟨v, g₁, hv, Draw.bind_of_ok hw⟩

variable [IsStrictOrderedRing F] (hF : ExactRoots F)

include hF

/-- A matrix that is drawn is special unitary. -/
theorem Mat3.isSpecialUnitary_of_haar {m : Mat3 F} {g g' : G} (h : haar g = .ok m g') :
    m.IsSpecialUnitary := by
  obtain ⟨v, g₁, w, hv, hw, rfl⟩ := haar_eq_ok_iff.1 h
  exact isSpecialUnitary_ofTwoVectors hF (Vec3.epsilon_lt_of_gaussianWith hv)
    (Vec3.epsilon_lt_of_gaussianWith hw)

/-- **Uniformly distributed matrices are special unitary.**  Let roots be exact, and let numbers be
drawn from the source in any way.  For two vectors that the loops accept, however long they took,
the vector that is normalised first and the one that is normalised second are longer than the
threshold, and the matrix that is made of them is special unitary.  It is the matrix that is drawn
if both loops end, and no other matrix is ever drawn.  A field is drawn for every lattice whose
links can be counted and stored, as soon as a matrix can be drawn for each of them, and it consists
of exactly as many matrices, all of them special unitary. -/
theorem LinkField.hot_isSpecialUnitary :
    (∀ v w : Vec3 F, RealFunctions.epsilon < v.norm → RealFunctions.epsilon < (v.rejection w).norm →
      RealFunctions.epsilon < (w - v.normalised.smul (v.normalised.dot w)).norm ∧
        (Mat3.ofTwoVectors v w).IsSpecialUnitary) ∧
      (∀ (v w : Vec3 F) (g g₁ g₂ : G), Vec3.gaussianWith id g = .ok v g₁ →
        Vec3.gaussianWith v.rejection g₁ = .ok w g₂ →
          RealFunctions.epsilon < v.norm ∧ RealFunctions.epsilon < (v.rejection w).norm ∧
            Mat3.haar g = .ok (Mat3.ofTwoVectors v w) g₂) ∧
      (∀ (m : Mat3 F) (g g' : G), Mat3.haar g = .ok m g' → m.IsSpecialUnitary) ∧
      ∀ (l : Lattice) (g : G),
        (∀ n, l.linkCount = .ok n → Storage.Fits Storage.matrixBytes n →
          (Draw.times n Mat3.haar : Draw G (List (Mat3 F))).Settles g →
            (hot l : Draw G (LinkField F)).Settles g) ∧
          ∀ (f : LinkField F) (g' : G), hot l g = .ok f g' →
            l.linkCount = .ok f.size ∧ ∀ m ∈ f.data, m.IsSpecialUnitary := by
  refine ⟨fun v w hv hw => ⟨?_, Mat3.isSpecialUnitary_ofTwoVectors hF hv hw⟩,
    fun v w g g₁ g₂ hv hw => ⟨?_, ?_, ?_⟩, fun m g g' hm => Mat3.isSpecialUnitary_of_haar hF hm,
    fun l g => ⟨fun n hn hroom hsettles => ?_, fun f g' hf => ?_⟩⟩
  · rw [Vec3.sub_normalised hF hv]
    exact hw
  · exact Vec3.epsilon_lt_of_gaussianWith hv
  · exact Vec3.epsilon_lt_of_gaussianWith hw
  · exact Mat3.haar_eq_ok_iff.2 ⟨v, g₁, w, hv, hw, rfl⟩
  · obtain ⟨ms, g', hms⟩ := hsettles
    exact ⟨_, g', drawn_eq_ok_iff.2 ⟨n, ms, hn, hroom, hms, rfl⟩⟩
  · obtain ⟨n, ms, hn, -, hms, rfl⟩ := drawn_eq_ok_iff.1 hf
    have hsize : (⟨ms.toArray⟩ : LinkField F).size = n := Draw.length_of_times hms
    refine ⟨by rw [hsize, hn], fun m hm => ?_⟩
    exact Draw.forall_of_times (fun g m g' => Mat3.isSpecialUnitary_of_haar hF) hms m
      (List.mem_toArray.1 hm)

end

/-! ### A script of numbers -/

/-- The words of a script as real numbers, in the place of normal ones. -/
noncomputable instance scriptedDeviate : NormalDeviate ℝ where
  draw := do return ((← Draw.word).toNat : ℝ)

theorem Vec3.gaussian_script (a b c d e f : UInt64) (rest : List UInt64) :
    (Vec3.gaussian : Draw Script (Vec3 ℝ)) ⟨a :: b :: c :: d :: e :: f :: rest⟩ =
      .ok ⟨⟨a.toNat, b.toNat⟩, ⟨c.toNat, d.toNat⟩, ⟨e.toNat, f.toNat⟩⟩ ⟨rest⟩ := rfl

/-- A vector of real numbers without length is too short. -/
theorem norm_le_epsilon {v : Vec3 ℝ} (h : v.normSq = 0) : v.norm ≤ RealFunctions.epsilon := by
  have hnorm : v.norm = 0 := (congrArg Real.sqrt h).trans Real.sqrt_zero
  rw [hnorm]
  exact exactPolar_real.epsilon_nonneg

/-- A vector that is too short, one along the first axis, one in its direction, and one that is
not. -/
def axisWords : List UInt64 :=
  [0, 0, 0, 0, 0, 0] ++ [1, 0, 0, 0, 0, 0] ++ [2, 3, 0, 0, 0, 0] ++ [1, 1, 0, 1, 0, 0]

/-- The part of a vector that is orthogonal to the first axis. -/
theorem rejection_axis (v : Vec3 ℝ) :
    Vec3.rejection ⟨⟨1, 0⟩, ⟨0, 0⟩, ⟨0, 0⟩⟩ v = ⟨0, v.y, v.z⟩ := by
  ext <;> simp [Vec3.rejection, Vec3.dot, Vec3.normSq, Cplx.normSq, Cplx.unscale]

theorem haar_axisWords (rest : List UInt64) :
    ∃ m : Mat3 ℝ, Mat3.haar (⟨axisWords ++ rest⟩ : Script) = .ok m ⟨rest⟩ := by
  refine ⟨_, Mat3.haar_eq_ok_iff.2 ⟨⟨⟨1, 0⟩, ⟨0, 0⟩, ⟨0, 0⟩⟩,
    ⟨[2, 3, 0, 0, 0, 0] ++ [1, 1, 0, 1, 0, 0] ++ rest⟩, ⟨⟨1, 1⟩, ⟨0, 1⟩, ⟨0, 0⟩⟩, ?_, ?_, rfl⟩⟩
  · refine Vec3.gaussianWith_twice (Vec3.gaussian_script 0 0 0 0 0 0 _) (norm_le_epsilon ?_)
      ?_ (epsilon_lt_norm ?_)
    · norm_num [Vec3.normSq, Cplx.normSq]
    · exact (Vec3.gaussian_script 1 0 0 0 0 0 _).trans (by norm_num [UInt64.toNat_one])
    · norm_num [Vec3.normSq, Cplx.normSq]
  · refine Vec3.gaussianWith_twice (Vec3.gaussian_script 2 3 0 0 0 0 _) (norm_le_epsilon ?_)
      ?_ (epsilon_lt_norm ?_)
    · rw [rejection_axis]
      norm_num [Vec3.normSq, Cplx.normSq]
    · exact (Vec3.gaussian_script 1 1 0 1 0 0 rest).trans (by norm_num [UInt64.toNat_one])
    · rw [rejection_axis]
      norm_num [Vec3.normSq, Cplx.normSq]

/-- A script whose words are enough for four matrices. -/
def fourAxes : Script := ⟨axisWords ++ (axisWords ++ (axisWords ++ (axisWords ++ [])))⟩

theorem times_haar_fourAxes :
    (Draw.times 4 Mat3.haar : Draw Script (List (Mat3 ℝ))).Settles fourAxes := by
  obtain ⟨m₀, h₀⟩ := haar_axisWords (axisWords ++ (axisWords ++ (axisWords ++ [])))
  obtain ⟨m₁, h₁⟩ := haar_axisWords (axisWords ++ (axisWords ++ []))
  obtain ⟨m₂, h₂⟩ := haar_axisWords (axisWords ++ [])
  obtain ⟨m₃, h₃⟩ := haar_axisWords []
  refine ⟨[m₀, m₁, m₂, m₃], ⟨[]⟩, ?_⟩
  simp only [Draw.times, List.replicate, List.mapM_cons, List.mapM_nil, id, fourAxes,
    Draw.bind_apply, Draw.pure_apply, h₀, h₁, h₂, h₃]

theorem hot_fourAxes : ∃ (f : LinkField ℝ) (g : Script), LinkField.hot ⟨1⟩ fourAxes = .ok f g ∧
    f.size = 4 ∧ ∀ m ∈ f.data, m.IsSpecialUnitary := by
  obtain ⟨-, -, -, hfield⟩ :=
    LinkField.hot_isSpecialUnitary (G := Script) exactPolar_real.toExactRoots
  obtain ⟨hsettles, hall⟩ := hfield ⟨1⟩ fourAxes
  obtain ⟨f, g, hf⟩ := hsettles 4 rfl (by decide) times_haar_fourAxes
  obtain ⟨hcount, hspecial⟩ := hall f g hf
  exact ⟨f, g, hf, (Except.ok.inj hcount).symm, hspecial⟩

end PureGauge
