/-
**The sum of all plaquettes.**

A link occurs in six plaquettes: for each of the three other directions in the one at its point, and
in the one a step behind.  With at least two points in each direction these are different ones, and
in each of them the link occurs once, so that the sum of all plaquettes depends on its matrix
through the staple alone.

Main definitions:

* `PureGauge.Mat3.reTrace` — the real part of the trace, an additive function;
* `PureGauge.Configuration.planeTotal`, `PureGauge.Configuration.total` — the sum over all squares
  in two directions, and over all squares.

Main results:

* `PureGauge.Configuration.total_set_sub_eq_sum` — only squares in the direction of the link change;
* `PureGauge.Configuration.planeTotal_set_sub` — what becomes of the squares in two directions when
  a matrix is replaced;
* `PureGauge.Configuration.total_set_sub` — the sum changes by what the staple tells.
-/
import PureGauge.Proofs.Field.Configuration
import PureGauge.Proofs.Scalar.Ring
import Mathlib.Algebra.BigOperators.Group.Finset.Basic
import Mathlib.Algebra.BigOperators.Group.List.Basic

namespace PureGauge

variable {R : Type} [CommRing R]

/-- The real part of the trace, as an additive function. -/
def Mat3.reTrace : Mat3 R →+ R where
  toFun m := m.trace.re
  map_zero' := by
    change (0 : R) + 0 + 0 = 0
    rw [add_zero, add_zero]
  map_add' m k := by rw [trace_add, Cplx.re_add]

theorem Mat3.reTrace_apply (m : Mat3 R) : reTrace m = m.trace.re := rfl

theorem Mat3.reTrace_mul_comm (m k : Mat3 R) : reTrace (m * k) = reTrace (k * m) :=
  congrArg Cplx.re (trace_mul_comm m k)

theorem Mat3.reTrace_adjoint (m : Mat3 R) : reTrace m.adjoint = reTrace m := re_trace_adjoint m

namespace Configuration

open Site

variable {n : ℕ} {U : Configuration R n} {x y : Site n} {μ ν : Fin 4} {m : Mat3 R}

/-! ### One square -/

/-- The other way around a square leads to the adjoint product. -/
theorem adjoint_plaquetteMatrix (U : Configuration R n) (x : Site n) (μ ν : Fin 4) :
    (U.plaquetteMatrix x μ ν).adjoint = U.plaquetteMatrix x ν μ := by
  simp only [plaquetteMatrix, Mat3.adjoint_mul, Mat3.adjoint_adjoint, mul_assoc]

/-- The square at the point of a link begins with the link. -/
theorem plaquetteMatrix_eq_mul_stapleAhead (U : Configuration R n) (x : Site n) (μ ν : Fin 4) :
    U.plaquetteMatrix x μ ν = U x μ * U.stapleAhead x μ ν := by
  simp only [plaquetteMatrix, stapleAhead, mul_assoc]

/-- The square a step behind a link, read so that it begins with the link. -/
theorem reTrace_plaquetteMatrix_behind (U : Configuration R n) (x : Site n) (μ ν : Fin 4) :
    (U.plaquetteMatrix (x - step n ν) μ ν).reTrace = (U x μ * U.stapleBehind x μ ν).reTrace := by
  have hcorner : x - step n ν + step n μ = x + step n μ - step n ν := sub_add_eq_add_sub ..
  rw [← Mat3.reTrace_adjoint, adjoint_plaquetteMatrix, plaquetteMatrix, hcorner, sub_add_cancel,
    mul_assoc, mul_assoc, Mat3.reTrace_mul_comm, stapleBehind]
  simp only [mul_assoc]

theorem add_step_ne (hn : 2 ≤ n) (x : Site n) (μ : Fin 4) : x + step n μ ≠ x :=
  fun h => step_ne_zero hn μ (add_eq_left.1 h)

theorem sub_step_ne (hn : 2 ≤ n) (x : Site n) (μ : Fin 4) : x - step n μ ≠ x :=
  fun h => step_ne_zero hn μ (sub_eq_self.1 h)

theorem stapleAhead_set (hn : 2 ≤ n) (hν : ν ≠ μ) :
    (U.set x μ m).stapleAhead x μ ν = U.stapleAhead x μ ν := by
  simp only [stapleAhead, set_of_dir_ne hν, set_of_site_ne (add_step_ne hn x ν)]

theorem stapleBehind_set (hn : 2 ≤ n) (hν : ν ≠ μ) :
    (U.set x μ m).stapleBehind x μ ν = U.stapleBehind x μ ν := by
  simp only [stapleBehind, set_of_dir_ne hν, set_of_site_ne (sub_step_ne hn x ν)]

/-- The other squares in the same two directions do not contain the link. -/
theorem plaquetteMatrix_set_of_ne (hν : ν ≠ μ) (hx : y ≠ x) (hbehind : y ≠ x - step n ν) :
    (U.set x μ m).plaquetteMatrix y μ ν = U.plaquetteMatrix y μ ν := by
  have hahead : y + step n ν ≠ x := fun h => hbehind (eq_sub_of_add_eq h)
  simp only [plaquetteMatrix, set_of_dir_ne hν, set_of_site_ne hx, set_of_site_ne hahead]

/-! ### Sums -/

variable [NeZero n]

omit [NeZero n] in
theorem sum_map_sub {ι : Type} (f g : ι → R) (xs : List ι) :
    (xs.map fun i => f i - g i).sum = (xs.map f).sum - (xs.map g).sum := by
  simpa using Multiset.sum_map_sub (m := (xs : Multiset ι)) (f := f) (g := g)

/-- The sum over all squares in two directions. -/
def planeTotal (U : Configuration R n) (μ ν : Fin 4) : R :=
  ∑ x, (U.plaquetteMatrix x μ ν).reTrace

/-- The sum over all squares. -/
def total (U : Configuration R n) : R :=
  ∑ x, (Direction.pairs.map fun μν => (U.plaquetteMatrix x μν.1 μν.2).reTrace).sum

theorem planeTotal_comm (U : Configuration R n) (μ ν : Fin 4) :
    U.planeTotal μ ν = U.planeTotal ν μ := by
  refine Finset.sum_congr rfl fun x _ => ?_
  rw [← adjoint_plaquetteMatrix, Mat3.reTrace_adjoint]

theorem total_eq (U : Configuration R n) :
    U.total = (Direction.pairs.map fun μν => U.planeTotal μν.1 μν.2).sum :=
  sum_list_comm (fun x (μν : Fin 4 × Fin 4) => (U.plaquetteMatrix x μν.1 μν.2).reTrace)
    Direction.pairs

/-- The squares in two other directions do not contain a link. -/
theorem planeTotal_set_of_ne {κ : Fin 4} (hκ : κ ≠ μ) (hν : ν ≠ μ) :
    (U.set x μ m).planeTotal κ ν = U.planeTotal κ ν := by
  simp only [planeTotal, plaquetteMatrix, set_of_dir_ne hκ, set_of_dir_ne hν]

/-- When the matrix of a link is replaced, of all squares in its direction and another one only
those at its point and a step behind change. -/
theorem planeTotal_set_sub (hn : 2 ≤ n) (hν : ν ≠ μ) :
    (U.set x μ m).planeTotal μ ν - U.planeTotal μ ν =
      ((m - U x μ) * (U.stapleAhead x μ ν + U.stapleBehind x μ ν)).reTrace := by
  have hother : ∀ y, y ≠ x ∧ y ≠ x - step n ν →
      ((U.set x μ m).plaquetteMatrix y μ ν).reTrace - (U.plaquetteMatrix y μ ν).reTrace = 0 := by
    rintro y ⟨hx, hbehind⟩
    rw [plaquetteMatrix_set_of_ne hν hx hbehind, sub_self]
  -- the two squares are different ones, as a step behind leads elsewhere
  rw [planeTotal, planeTotal, ← Finset.sum_sub_distrib,
    Fintype.sum_eq_add x (x - step n ν) (sub_step_ne hn x ν).symm hother,
    plaquetteMatrix_eq_mul_stapleAhead, plaquetteMatrix_eq_mul_stapleAhead,
    reTrace_plaquetteMatrix_behind, reTrace_plaquetteMatrix_behind, set_self,
    stapleAhead_set hn hν, stapleBehind_set hn hν, ← map_sub, ← map_sub, ← sub_mul, ← sub_mul,
    ← map_add, ← mul_add]

/-- Of a sum over all pairs of directions only the pairs with `μ` are left if the others vanish. -/
theorem sum_pairs_eq_sum_others {F : Fin 4 → Fin 4 → R} (hcomm : ∀ κ ν, F κ ν = F ν κ)
    (hother : ∀ κ ν, κ ≠ μ → ν ≠ μ → F κ ν = 0) :
    (Direction.pairs.map fun κν => F κν.1 κν.2).sum = ((Direction.others μ).map (F μ)).sum := by
  have hpairs : (Direction.pairs.map fun κν => F κν.1 κν.2).sum =
      F 0 1 + F 0 2 + F 0 3 + F 1 2 + F 1 3 + F 2 3 := by
    have hlist : Direction.pairs = [(0, 1), (0, 2), (0, 3), (1, 2), (1, 3), (2, 3)] := by decide
    simp only [hlist, List.map_cons, List.map_nil, List.sum_cons, List.sum_nil]
    ring
  have hothers : ∀ a b c, Direction.others μ = [a, b, c] →
      ((Direction.others μ).map (F μ)).sum = F μ a + F μ b + F μ c := by
    intro a b c h
    simp only [h, List.map_cons, List.map_nil, List.sum_cons, List.sum_nil]
    ring
  rw [hpairs]
  -- three of the six pairs contain the direction, some of them in the other order
  fin_cases μ
  · rw [hothers 1 2 3 rfl, hother 1 2 (by decide) (by decide), hother 1 3 (by decide) (by decide),
      hother 2 3 (by decide) (by decide)]
    simp
  · rw [hothers 0 2 3 rfl, hother 0 2 (by decide) (by decide), hother 0 3 (by decide) (by decide),
      hother 2 3 (by decide) (by decide), hcomm 0 1]
    simp
  · rw [hothers 0 1 3 rfl, hother 0 1 (by decide) (by decide), hother 0 3 (by decide) (by decide),
      hother 1 3 (by decide) (by decide), hcomm 0 2, hcomm 1 2]
    simp
  · rw [hothers 0 1 2 rfl, hother 0 1 (by decide) (by decide), hother 0 2 (by decide) (by decide),
      hother 1 2 (by decide) (by decide), hcomm 0 3, hcomm 1 3, hcomm 2 3]
    simp

omit [NeZero n] in
theorem staple_eq_sum (U : Configuration R n) (x : Site n) (μ : Fin 4) :
    U.staple x μ =
      ((Direction.others μ).map fun ν => U.stapleAhead x μ ν + U.stapleBehind x μ ν).sum := by
  rw [staple, List.sum_eq_foldl, List.foldl_map]
  simp only [add_assoc]

omit [NeZero n] in
theorem reTrace_mul_staple (U : Configuration R n) (x : Site n) (μ : Fin 4) (m : Mat3 R) :
    (m * U.staple x μ).reTrace = ((Direction.others μ).map fun ν =>
      (m * (U.stapleAhead x μ ν + U.stapleBehind x μ ν)).reTrace).sum := by
  rw [staple_eq_sum]
  induction Direction.others μ with
  | nil => simp
  | cons ν νs ih =>
      rw [List.map_cons, List.sum_cons, mul_add, map_add, ih, List.map_cons, List.sum_cons]

/-- When the matrix of a link is replaced, the sum over all squares changes by what becomes of the
squares in the direction of the link and another one. -/
theorem total_set_sub_eq_sum :
    (U.set x μ m).total - U.total = ((Direction.others μ).map fun ν =>
      (U.set x μ m).planeTotal μ ν - U.planeTotal μ ν).sum := by
  have hcomm : ∀ κ ν, (U.set x μ m).planeTotal κ ν - U.planeTotal κ ν =
      (U.set x μ m).planeTotal ν κ - U.planeTotal ν κ := by
    intro κ ν
    rw [planeTotal_comm, planeTotal_comm U]
  have hother : ∀ κ ν, κ ≠ μ → ν ≠ μ →
      (U.set x μ m).planeTotal κ ν - U.planeTotal κ ν = 0 := by
    intro κ ν hκ hν
    rw [planeTotal_set_of_ne hκ hν, sub_self]
  rw [total_eq, total_eq, ← sum_map_sub, sum_pairs_eq_sum_others hcomm hother]

/-- **The staple tells how the sum changes** when the matrix of a link is replaced. -/
theorem total_set_sub (hn : 2 ≤ n) :
    (U.set x μ m).total - U.total = ((m - U x μ) * U.staple x μ).reTrace := by
  rw [total_set_sub_eq_sum, reTrace_mul_staple]
  exact congrArg List.sum <| List.map_congr_left fun ν hν =>
    planeTotal_set_sub hn (Direction.mem_others.1 hν)

end Configuration

end PureGauge
