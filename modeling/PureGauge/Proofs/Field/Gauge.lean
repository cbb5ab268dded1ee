/-
**Gauge transformations.**

A gauge transformation gives a unitary matrix to each point, and multiplies the matrix of every link
with the one at the point where the link begins and with the adjoint of the one at the point where
it ends.  In a product of links the matrices in between cancel, so that the product around a square
is conjugated with the matrix at its first point, and a staple is multiplied with the matrices at
the two ends of its link.

Main definitions:

* `PureGauge.LinkField.gauged` — a field after a gauge transformation;
* `PureGauge.Configuration.gauged` — the same for a function of sites.

Main results:

* `PureGauge.Configuration.plaquetteMatrix_gauged`, `PureGauge.Configuration.staple_gauged` — what
  becomes of the products;
* `PureGauge.LinkField.Fills.gauged_eq` — the transformed field exists and has the transformed
  configuration.
-/
import PureGauge.Proofs.Field.Configuration
import PureGauge.Proofs.Scalar.Ring

namespace PureGauge

variable {R : Type}

/-! ### Functions of sites -/

namespace Configuration

open Site

variable [CommRing R] {n : ℕ}

/-- The configuration after a gauge transformation. -/
def gauged (U : Configuration R n) (g : Site n → Mat3 R) : Configuration R n :=
  fun x μ => g x * U x μ * (g (x + step n μ)).adjoint

variable {U : Configuration R n} {g : Site n → Mat3 R}

/-- The matrices of a transformation cancel where one link ends and the next one begins. -/
theorem cancel_between (hg : ∀ x, (g x).IsUnitary) (x : Site n) (m : Mat3 R) :
    (g x).adjoint * (g x * m) = m := by
  rw [← mul_assoc, (hg x).adjoint_mul_self, one_mul]

/-- The product around a square is conjugated with the matrix at its first point. -/
theorem plaquetteMatrix_gauged (hg : ∀ x, (g x).IsUnitary) (x : Site n) (μ ν : Fin 4) :
    (U.gauged g).plaquetteMatrix x μ ν = g x * U.plaquetteMatrix x μ ν * (g x).adjoint := by
  have hcorner : x + step n ν + step n μ = x + step n μ + step n ν := add_right_comm ..
  simp only [plaquetteMatrix, gauged, Mat3.adjoint_mul, Mat3.adjoint_adjoint, mul_assoc, hcorner,
    cancel_between hg]

theorem stapleAhead_gauged (hg : ∀ x, (g x).IsUnitary) (x : Site n) (μ ν : Fin 4) :
    (U.gauged g).stapleAhead x μ ν =
      g (x + step n μ) * U.stapleAhead x μ ν * (g x).adjoint := by
  have hcorner : x + step n ν + step n μ = x + step n μ + step n ν := add_right_comm ..
  simp only [stapleAhead, gauged, Mat3.adjoint_mul, Mat3.adjoint_adjoint, mul_assoc, hcorner,
    cancel_between hg]

theorem stapleBehind_gauged (hg : ∀ x, (g x).IsUnitary) (x : Site n) (μ ν : Fin 4) :
    (U.gauged g).stapleBehind x μ ν =
      g (x + step n μ) * U.stapleBehind x μ ν * (g x).adjoint := by
  have hbehind : x - step n ν + step n μ = x + step n μ - step n ν := sub_add_eq_add_sub ..
  simp only [stapleBehind, gauged, Mat3.adjoint_mul, Mat3.adjoint_adjoint, mul_assoc, hbehind,
    sub_add_cancel, cancel_between hg]

/-- A sum of parts is transformed like each of its parts. -/
theorem foldl_parts_gauged (hg : ∀ x, (g x).IsUnitary) (x : Site n) (μ : Fin 4) (νs : List (Fin 4))
    (a : Mat3 R) :
    νs.foldl (fun sum ν => sum + (U.gauged g).stapleAhead x μ ν + (U.gauged g).stapleBehind x μ ν)
        (g (x + step n μ) * a * (g x).adjoint) =
      g (x + step n μ) *
        νs.foldl (fun sum ν => sum + U.stapleAhead x μ ν + U.stapleBehind x μ ν) a *
          (g x).adjoint := by
  induction νs generalizing a with
  | nil => rfl
  | cons ν νs ih =>
      rw [List.foldl_cons, List.foldl_cons, stapleAhead_gauged hg, stapleBehind_gauged hg,
        ← add_mul, ← mul_add, ← add_mul, ← mul_add, ih]

/-- A staple is multiplied with the matrices at the two ends of its link. -/
theorem staple_gauged (hg : ∀ x, (g x).IsUnitary) (x : Site n) (μ : Fin 4) :
    (U.gauged g).staple x μ = g (x + step n μ) * U.staple x μ * (g x).adjoint := by
  have hsum := foldl_parts_gauged hg x μ (Direction.others μ) (0 : Mat3 R) (U := U)
  rw [mul_zero, zero_mul] at hsum
  exact hsum

end Configuration

/-! ### Fields -/

namespace LinkField

variable [Zero R] [One R] [Add R] [Sub R] [Mul R] [Neg R]

/-- The field after a gauge transformation `g`: each link of the lattice has its matrix multiplied
with the matrix of the point where it begins and the adjoint of that of the point where it ends. -/
def gauged (f : LinkField R) (l : Lattice) (g : Point → Mat3 R) : Checked (LinkField R) := do
  let data ← (List.range (← l.linkCount)).mapM fun i => do
    match ← l.linkAt i with
    | none => f.at i
    | some k => return g k.pos * (← f.link l k) * (g (← l.neighbour k.pos k.dir 1)).adjoint
  return ⟨data.toArray⟩

end LinkField

namespace LinkField.Fills

variable [CommRing R] {f : LinkField R} {l : Lattice} {n : ℕ} [NeZero n]

/-- What a gauge transformation puts in the place of a matrix of the field. -/
theorem gauged_link_eq (h : f.Fills l n) (g : Point → Mat3 R) (x : Site n) (μ : Fin 4) :
    (do return g x.point * (← f.link l ⟨x.point, .along μ⟩) *
        (g (← l.neighbour x.point (.along μ) 1)).adjoint : Checked (Mat3 R)) =
      .ok ((f.configuration n).gauged (fun x => g x.point) x μ) := by
  have hlt := h.numbered.lt_65536
  have hmoved := Point.shift_one (Site.point_inner (by omega) x μ).2
  rw [h.link_eq, Checked.ok_bind, h.numbered.periodic.neighbour_one hmoved,
    Site.site_point (by omega)]
  rfl

/-- The transformed field exists, and its configuration is the transformed one. -/
theorem gauged_eq (h : f.Fills l n) (g : Point → Mat3 R) :
    ∃ f', f.gauged l g = .ok f' ∧ f'.Fills l n ∧
      f'.configuration n = (f.configuration n).gauged fun x => g x.point := by
  refine ⟨ofConfiguration ((f.configuration n).gauged fun x => g x.point), ?_,
    fills_ofConfiguration h.numbered _, configuration_ofConfiguration _⟩
  rw [gauged, h.numbered.linkCount_eq, Checked.ok_bind,
    Checked.mapM_eq_ok (g := entry ((f.configuration n).gauged fun x => g x.point))]
  · rfl
  · intro i hi
    obtain ⟨x, μ, rfl⟩ := Site.exists_linkNumber (List.mem_range.1 hi)
    rw [h.numbered.linkAt_linkNumber, Checked.ok_bind, entry_linkNumber]
    exact h.gauged_link_eq g x μ

end LinkField.Fills

end PureGauge
