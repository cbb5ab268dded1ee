/-
**The moments of samples and their pairs.**

The variance is computed in two passes: the mean first, then the squared deviations from it.
Without rounding the mean can be eliminated, and what is left is a sum over the pairs of samples,

  `N * (N - 1) * variance = ∑ i < j, (x i - x j) ^ 2`.

Pairs do not know the mean, so what shifts, scalings and orders of the samples do to the variance is
read off their differences.

Main definitions:

* `PureGauge.Statistics.pairSquares` — the squared differences of all pairs of samples, added up.

Main results:

* `PureGauge.Statistics.pairSquares_eq` — the sum over the pairs in terms of two sums over the
  samples;
* `PureGauge.Statistics.pairSquares_eq_zero_iff` — it vanishes for equal samples only;
* `PureGauge.Statistics.meanAndVariance_eq_pairs` — the variance is that sum over `N * (N - 1)`;
* `PureGauge.Statistics.moments_laws` — sign, permutations, shifts, scalings and the error of the
  mean.
-/
import PureGauge.Statistics
import PureGauge.Proofs.Scalar.Exact
import Mathlib.Algebra.BigOperators.Fin
import Mathlib.Algebra.Order.BigOperators.Ring.Finset
import Mathlib.Order.Interval.Finset.Fin

namespace PureGauge

namespace Statistics

/-! ### Pairs of samples -/

section

variable {R : Type} [CommRing R]

/-- The squared differences of the samples, added up over all pairs of them. -/
def pairSquares (xs : List R) : R := ∑ i : Fin xs.length, ∑ j ∈ Finset.Ioi i, (xs[i] - xs[j]) ^ 2

@[simp] theorem pairSquares_nil : pairSquares ([] : List R) = 0 := Fin.sum_univ_zero _

/-- A new sample is paired with all the others. -/
theorem pairSquares_cons (x : R) (xs : List R) :
    pairSquares (x :: xs) = (xs.map fun y => (x - y) ^ 2).sum + pairSquares xs := by
  have hfirst : ∑ j ∈ Finset.Ioi (0 : Fin (xs.length + 1)), (x - (x :: xs)[j]) ^ 2 =
      (xs.map fun y => (x - y) ^ 2).sum := by
    rw [Fin.sum_Ioi_zero, ← Fin.sum_univ_fun_getElem]
    rfl
  have hothers (i : Fin xs.length) :
      ∑ j ∈ Finset.Ioi i.succ, (xs[i] - (x :: xs)[j]) ^ 2 =
        ∑ j ∈ Finset.Ioi i, (xs[i] - xs[j]) ^ 2 := by
    rw [Fin.sum_Ioi_succ]
    rfl
  calc pairSquares (x :: xs)
      = ∑ j ∈ Finset.Ioi (0 : Fin (xs.length + 1)), (x - (x :: xs)[j]) ^ 2 +
          ∑ i : Fin xs.length, ∑ j ∈ Finset.Ioi i.succ, (xs[i] - (x :: xs)[j]) ^ 2 :=
            Fin.sum_univ_succ _
    _ = _ := by rw [hfirst, Finset.sum_congr rfl fun i _ => hothers i]; rfl

/-- The squared deviations from any number. -/
theorem sum_map_deviations (a : R) (xs : List R) :
    (xs.map fun x => (x - a) * (x - a)).sum =
      (xs.map (· ^ 2)).sum - 2 * a * xs.sum + xs.length * a ^ 2 := by
  induction xs with
  | nil => simp
  | cons x xs ih =>
      simp only [List.map_cons, List.sum_cons, List.length_cons, Nat.cast_succ, ih]
      ring

/-- The sum over the pairs is known from the squares of the samples and their sum. -/
theorem pairSquares_eq (xs : List R) :
    pairSquares xs = xs.length * (xs.map (· ^ 2)).sum - xs.sum ^ 2 := by
  induction xs with
  | nil => simp
  | cons x xs ih =>
      have hnew : (xs.map fun y => (x - y) ^ 2).sum =
          (xs.map (· ^ 2)).sum - 2 * x * xs.sum + xs.length * x ^ 2 := by
        rw [← sum_map_deviations]
        exact congrArg List.sum (List.map_congr_left fun y _ => by ring)
      rw [pairSquares_cons, hnew, ih]
      simp only [List.map_cons, List.sum_cons, List.length_cons, Nat.cast_succ]
      ring

/-- The order of the samples does not matter. -/
theorem pairSquares_perm {xs ys : List R} (h : ys.Perm xs) : pairSquares ys = pairSquares xs := by
  rw [pairSquares_eq, pairSquares_eq, h.length_eq, h.sum_eq, (h.map _).sum_eq]

/-- A change of the samples that multiplies all squared differences by one factor multiplies their
sum by it. -/
theorem pairSquares_map {f : R → R} {c : R} (hf : ∀ x y, (f x - f y) ^ 2 = c * (x - y) ^ 2)
    (xs : List R) :
    pairSquares (xs.map f) = c * pairSquares xs := by
  induction xs with
  | nil => simp
  | cons x xs ih =>
      rw [List.map_cons, pairSquares_cons, pairSquares_cons, ih, mul_add, List.map_map,
        ← List.sum_map_mul_left]
      exact congrArg (List.sum · + _) (List.map_congr_left fun y _ => hf x y)

variable [LinearOrder R] [IsStrictOrderedRing R]

theorem pairSquares_nonneg (xs : List R) : 0 ≤ pairSquares xs :=
  Finset.sum_nonneg fun _ _ => Finset.sum_nonneg fun _ _ => sq_nonneg _

/-- The sum over the pairs vanishes only if no two samples differ. -/
theorem pairSquares_eq_zero_iff {xs : List R} : pairSquares xs = 0 ↔ ∀ x ∈ xs, ∀ y ∈ xs, x = y := by
  have hinner (i : Fin xs.length) : 0 ≤ ∑ j ∈ Finset.Ioi i, (xs[i] - xs[j]) ^ 2 :=
    Finset.sum_nonneg fun _ _ => sq_nonneg _
  constructor
  · intro h
    -- of two positions that differ one is the first of a pair
    have hpair {i j : Fin xs.length} (hij : i < j) : xs[i] = xs[j] := by
      have hi := (Finset.sum_eq_zero_iff_of_nonneg fun i _ => hinner i).1 h i (Finset.mem_univ i)
      have hj :=
        (Finset.sum_eq_zero_iff_of_nonneg fun _ _ => sq_nonneg _).1 hi j (Finset.mem_Ioi.2 hij)
      exact sub_eq_zero.1 (pow_eq_zero_iff two_ne_zero |>.1 hj)
    intro x hx y hy
    obtain ⟨i, rfl⟩ := List.get_of_mem hx
    obtain ⟨j, rfl⟩ := List.get_of_mem hy
    rcases lt_trichotomy i j with hij | rfl | hji
    · exact hpair hij
    · rfl
    · exact (hpair hji).symm
  · intro h
    refine Finset.sum_eq_zero fun i _ => Finset.sum_eq_zero fun j _ => ?_
    rw [h xs[i] (List.getElem_mem _) xs[j] (List.getElem_mem _), sub_self, zero_pow two_ne_zero]

end

/-! ### Mean and variance -/

variable {F : Type} [Field F]

theorem sum_map_add_right (a : F) (xs : List F) :
    (xs.map (· + a)).sum = xs.sum + xs.length * a := by
  rw [List.sum_map_add, List.map_id', List.map_const', List.sum_replicate, nsmul_eq_mul]

variable [LinearOrder F] [IsStrictOrderedRing F]

/-- There are no divisions by zero for two samples or more. -/
theorem pairs_pos {xs : List F} (h : 2 ≤ xs.length) :
    (0 : F) < xs.length ∧ (0 : F) < xs.length - 1 := by
  have hone : (1 : F) < xs.length := by exact_mod_cast h
  exact ⟨zero_lt_one.trans hone, sub_pos.2 hone⟩

/-- **The mean, and the variance by the pairs.** -/
theorem meanAndVariance_eq_pairs {xs : List F} (h : 2 ≤ xs.length) :
    meanAndVariance xs =
      (xs.sum / xs.length, pairSquares xs / (xs.length * (xs.length - 1))) := by
  obtain ⟨hlength, hothers⟩ := pairs_pos h
  have hpred : ((xs.length - 1 : ℕ) : F) = xs.length - 1 := by
    rw [Nat.cast_sub (by omega), Nat.cast_one]
  have hsquares : (xs.map fun x => (x - xs.sum / xs.length) * (x - xs.sum / xs.length)).sum =
      pairSquares xs / xs.length := by
    rw [sum_map_deviations, pairSquares_eq]
    field_simp
    ring
  rw [meanAndVariance, momentsWith, if_neg (by omega), realSum_eq_sum, realSum_eq_sum, hsquares,
    hpred, div_div]

/-- **The laws of the moments.**  `N` times the mean is the sum of the samples, and `N * (N - 1)`
times the variance is the sum of the squared differences of all pairs.  So the variance is not
negative, and zero for equal samples only; mean and variance are those of the samples in any order,
shifts move the mean alone, and scalings act on the mean once and on the variance twice.  With exact
roots the squared error of the mean is an `N`-th of the variance. -/
theorem moments_laws [RealFunctions F] {xs : List F} (h : 2 ≤ xs.length) :
    ∃ m v, meanAndVariance xs = (m, v) ∧ mean xs = m ∧ variance xs = v ∧
      xs.length * m = xs.sum ∧
      v = (∑ i : Fin xs.length, ∑ j ∈ Finset.Ioi i, (xs[i] - xs[j]) ^ 2) /
        (xs.length * (xs.length - 1)) ∧
      0 ≤ v ∧ (v = 0 ↔ ∀ x ∈ xs, ∀ y ∈ xs, x = y) ∧
      (∀ ys, ys.Perm xs → meanAndVariance ys = (m, v)) ∧
      (∀ a, meanAndVariance (xs.map (· + a)) = (m + a, v)) ∧
      (∀ c, meanAndVariance (xs.map (c * ·)) = (c * m, c ^ 2 * v)) ∧
      ((∀ a : F, 0 ≤ a → RealFunctions.sqrt a * RealFunctions.sqrt a = a) →
        ∃ e, meanWithError xs = (m, e) ∧ e ^ 2 * xs.length = v) := by
  obtain ⟨hlength, hothers⟩ := pairs_pos h
  have hne := hlength.ne'
  have hmoments := meanAndVariance_eq_pairs h
  have hdivisor : (0 : F) < xs.length * (xs.length - 1) := mul_pos hlength hothers
  have hnonneg : 0 ≤ pairSquares xs / (xs.length * (xs.length - 1)) :=
    div_nonneg (pairSquares_nonneg xs) hdivisor.le
  refine ⟨_, _, hmoments, ?_, ?_, mul_div_cancel₀ _ hne, rfl, hnonneg, ?_, ?_, ?_, ?_, ?_⟩
  · rw [mean, realSum_eq_sum]
  · rw [variance, hmoments]
  · rw [div_eq_zero_iff, or_iff_left hdivisor.ne', pairSquares_eq_zero_iff]
  · intro ys hperm
    have hys : 2 ≤ ys.length := by rwa [hperm.length_eq]
    rw [meanAndVariance_eq_pairs hys, hperm.length_eq, hperm.sum_eq, pairSquares_perm hperm]
  · intro a
    have hmap : 2 ≤ (xs.map (· + a)).length := by rwa [List.length_map]
    have hsquares : pairSquares (xs.map (· + a)) = pairSquares xs := by
      rw [pairSquares_map (c := 1) fun x y => by ring, one_mul]
    rw [meanAndVariance_eq_pairs hmap, List.length_map, hsquares, sum_map_add_right, add_div,
      mul_div_cancel_left₀ _ hne]
  · intro c
    have hmap : 2 ≤ (xs.map (c * ·)).length := by rwa [List.length_map]
    rw [meanAndVariance_eq_pairs hmap, List.length_map,
      pairSquares_map (c := c ^ 2) fun x y => by ring, List.sum_map_mul_left, List.map_id',
      mul_div_assoc, mul_div_assoc]
  · intro hsqrt
    have hempty : xs.isEmpty = false := by
      cases xs with
      | nil => cases h
      | cons x xs => rfl
    refine ⟨_, by rw [meanWithError, hmoments, hempty]; rfl, ?_⟩
    rw [sq, hsqrt _ (div_nonneg hnonneg hlength.le), div_mul_cancel₀ _ hne]

/-- Four real samples with mean `4` and variance `12`, and the error of the mean. -/
theorem moments_of_four : 2 ≤ ([1, 3, 3, 9] : List ℝ).length ∧
    meanAndVariance ([1, 3, 3, 9] : List ℝ) = (4, 12) ∧
    ∃ e, meanWithError ([1, 3, 3, 9] : List ℝ) = (4, e) ∧ e ^ 2 * 4 = 12 := by
  have hlength : 2 ≤ ([1, 3, 3, 9] : List ℝ).length := by decide
  obtain ⟨m, v, hmoments, -, -, hsum, hpairs, -, -, -, -, -, herror⟩ := moments_laws hlength
  have hm : m = 4 := by
    norm_num at hsum
    linarith
  have hv : v = 12 := by
    rw [← pairSquares] at hpairs
    rw [hpairs]
    simp only [pairSquares_cons, pairSquares_nil]
    norm_num
  obtain ⟨e, he, hvariance⟩ := herror fun a ha => Real.mul_self_sqrt ha
  subst hm hv
  exact ⟨hlength, hmoments, e, he, by norm_num at hvariance ⊢; exact hvariance⟩

end Statistics

end PureGauge
