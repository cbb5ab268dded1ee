/-
**Symmetries of a cyclic lattice.**

The four directions of a cyclic lattice can be permuted, and the lattice can be translated.  Such a
symmetry takes a step in one direction to a step in another one, and so the squares of the lattice
to squares.  A configuration that is carried along has the products around squares that it had
before.  The pairs of directions are listed with the first one before the second one, which a
permutation need not respect; but a square that is followed in the other sense has the same trace up
to conjugation, so that the sum over all squares stays what it was.

Main definitions:

* `PureGauge.LatticeSymmetry` — a permutation of the directions and a translation;
* `PureGauge.LatticeSymmetry.site` — what it does to sites;
* `PureGauge.Configuration.Moved` — a configuration that was carried along.

Main results:

* `PureGauge.Direction.perm_pairs` — a permutation takes the six pairs, without order, to the six
  pairs;
* `PureGauge.Configuration.Moved.plaquetteMatrix_eq` — squares are taken to squares;
* `PureGauge.Configuration.Moved.total_eq` — the sum over all squares is what it was.
-/
import PureGauge.Proofs.Field.Total
import Mathlib.Data.Sym.Sym2

namespace PureGauge

/-- A symmetry of a cyclic lattice: the directions are permuted, and then the points are
translated. -/
structure LatticeSymmetry where
  perm : Equiv.Perm (Fin 4)
  shift : Fin 4 → ℤ

/-! ### Directions -/

namespace Direction

variable (σ : Equiv.Perm (Fin 4))

/-- A permutation takes the directions different from one to those different from its image. -/
theorem perm_others (μ : Fin 4) : (others (σ μ)).Perm ((others μ).map σ) := by
  have hnodup : ∀ κ, (others κ).Nodup := fun κ => (List.nodup_finRange 4).filter _
  refine (List.perm_ext_iff_of_nodup (hnodup _) ((hnodup μ).map σ.injective)).2 fun ν => ?_
  simp only [List.mem_map, mem_others]
  constructor
  · intro hν
    refine ⟨σ.symm ν, fun heq => hν ?_, σ.apply_symm_apply ν⟩
    rw [← heq, σ.apply_symm_apply]
  · rintro ⟨κ, hκ, rfl⟩ heq
    exact hκ (σ.injective heq)

/-- The six pairs of directions, without order. -/
def unorderedPairs : List (Sym2 (Fin 4)) := pairs.map fun μν => s(μν.1, μν.2)

theorem nodup_unorderedPairs : unorderedPairs.Nodup := by decide

/-- These are the pairs of two different directions. -/
theorem mem_unorderedPairs {z : Sym2 (Fin 4)} : z ∈ unorderedPairs ↔ ¬ z.IsDiag := by
  induction z with
  | _ μ ν =>
      revert μ ν
      decide

/-- A permutation takes the six pairs, without order, to the six pairs. -/
theorem perm_pairs : (unorderedPairs.map (Sym2.map σ)).Perm unorderedPairs := by
  refine (List.perm_ext_iff_of_nodup (nodup_unorderedPairs.map (Sym2.map.injective σ.injective))
    nodup_unorderedPairs).2 fun z => ?_
  rw [List.mem_map]
  constructor
  · rintro ⟨w, hw, rfl⟩
    rw [mem_unorderedPairs, Sym2.isDiag_map σ.injective]
    exact mem_unorderedPairs.1 hw
  · intro hz
    have hback : Sym2.map σ (Sym2.map σ.symm z) = z := by
      rw [Sym2.map_map, σ.self_comp_symm, Sym2.map_id]
      rfl
    refine ⟨Sym2.map σ.symm z, ?_, hback⟩
    rw [mem_unorderedPairs, Sym2.isDiag_map σ.symm.injective]
    exact mem_unorderedPairs.1 hz

/-- A sum over the six pairs whose terms do not depend on the order may be taken over their
images. -/
theorem sum_pairs_comp {R : Type} [AddCommMonoid R] {E : Fin 4 → Fin 4 → R}
    (hcomm : ∀ μ ν, E μ ν = E ν μ) :
    (pairs.map fun μν => E (σ μν.1) (σ μν.2)).sum = (pairs.map fun μν => E μν.1 μν.2).sum := by
  -- the term of a pair without order
  have hterm : ∀ τ : Fin 4 → Fin 4, (pairs.map fun μν => E (τ μν.1) (τ μν.2)) =
      (unorderedPairs.map (Sym2.map τ)).map (Sym2.lift ⟨E, hcomm⟩) := by
    intro τ
    simp only [unorderedPairs, List.map_map]
    rfl
  have hid := hterm id
  rw [Sym2.map_id, List.map_id] at hid
  rw [hterm σ, ((perm_pairs σ).map _).sum_eq, ← hid]
  rfl

end Direction

/-! ### Sites -/

namespace LatticeSymmetry

/-- What a symmetry does to sites. -/
def site (g : LatticeSymmetry) (n : ℕ) : Site n ≃ Site n :=
  (Equiv.arrowCongr g.perm (Equiv.refl (ZMod n))).trans
    (Equiv.addRight fun ν => (g.shift ν : ZMod n))

variable (g : LatticeSymmetry) {n : ℕ}

theorem site_apply (x : Site n) (μ : Fin 4) : g.site n x (g.perm μ) = x μ + g.shift (g.perm μ) := by
  simp [site]

/-- A step in a direction is taken to a step in its image. -/
theorem site_add_step (x : Site n) (μ : Fin 4) :
    g.site n (x + Site.step n μ) = g.site n x + Site.step n (g.perm μ) := by
  funext κ
  obtain ⟨ν, rfl⟩ := g.perm.surjective κ
  have hstep : Site.step n (g.perm μ) (g.perm ν) = Site.step n μ ν := by
    by_cases hν : ν = μ
    · rw [hν, Site.step_self, Site.step_self]
    · rw [Site.step_of_ne hν, Site.step_of_ne (g.perm.injective.ne hν)]
  rw [site_apply, Pi.add_apply, Pi.add_apply, site_apply, hstep, add_right_comm]

theorem site_sub_step (x : Site n) (μ : Fin 4) :
    g.site n (x - Site.step n μ) = g.site n x - Site.step n (g.perm μ) := by
  rw [eq_sub_iff_add_eq, ← site_add_step, sub_add_cancel]

end LatticeSymmetry

/-! ### Configurations -/

namespace Configuration

/-- The second configuration has at the image of each link the matrix that the first one has
there. -/
def Moved {R : Type} {n : ℕ} (g : LatticeSymmetry) (U V : Configuration R n) : Prop :=
  ∀ x μ, V (g.site n x) (g.perm μ) = U x μ

namespace Moved

section

variable {R : Type} {n : ℕ} [Zero R] [One R] [Add R] [Sub R] [Mul R] [Neg R] {g : LatticeSymmetry}
  {U V : Configuration R n}

/-- Squares are taken to squares. -/
theorem plaquetteMatrix_eq (h : Moved g U V) (x : Site n) (μ ν : Fin 4) :
    V.plaquetteMatrix (g.site n x) (g.perm μ) (g.perm ν) = U.plaquetteMatrix x μ ν := by
  simp only [plaquetteMatrix, ← g.site_add_step, h _ _]

end

variable {R : Type} [CommRing R] {n : ℕ} [NeZero n] {g : LatticeSymmetry} {U V : Configuration R n}

theorem planeTotal_eq (h : Moved g U V) (μ ν : Fin 4) :
    V.planeTotal (g.perm μ) (g.perm ν) = U.planeTotal μ ν := by
  rw [planeTotal, ← Equiv.sum_comp (g.site n)]
  exact Finset.sum_congr rfl fun x _ => congrArg _ (h.plaquetteMatrix_eq x μ ν)

/-- The sum over all squares is what it was. -/
theorem total_eq (h : Moved g U V) : V.total = U.total := by
  rw [Configuration.total_eq, Configuration.total_eq,
    ← Direction.sum_pairs_comp g.perm fun μ ν => V.planeTotal_comm μ ν]
  simp only [h.planeTotal_eq]

end Moved

end Configuration

end PureGauge
