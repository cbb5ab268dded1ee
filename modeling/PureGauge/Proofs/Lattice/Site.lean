/-
**Sites of a cyclic lattice.**

On a lattice with `n` points in each direction a coordinate counts modulo `n` only, so that the
place of a point is a vector of four residues.  Steps along the directions are additions of unit
vectors here, and wrapping has disappeared.  The number of a site is the value of its residues read
as digits in base `n`.

Main definitions:

* `PureGauge.Site`, `PureGauge.Site.step` — places, and the step along a direction;
* `PureGauge.Site.number`, `PureGauge.Site.ofNumber` — the number of a site and the site of a
  number;
* `PureGauge.Site.linkNumber` — the number of the link that leaves a site in a direction;
* `PureGauge.Site.height` — the sum of the residues, whose parity colours the checkerboard.

Main results:

* `PureGauge.Site.numbering` — sites and numbers below `n ^ 4` correspond to each other;
* `PureGauge.Site.linkNumber_inj` — different links have different numbers;
* `PureGauge.Site.height_add_shift` — with an even number of points each step of a shift changes the
  colour.
-/
import Mathlib.Algebra.BigOperators.Fin
import Mathlib.Algebra.Field.ZMod
import Mathlib.Data.Fin.VecNotation
import Mathlib.Data.ZMod.Basic
import Mathlib.Tactic.FinCases
import Mathlib.Tactic.Ring

namespace PureGauge

/-- There are directions. -/
instance neZero_directions : NeZero 4 := ⟨by decide⟩

/-- A place on a lattice with `n` points in each direction: a residue for each direction. -/
abbrev Site (n : ℕ) := Fin 4 → ZMod n

namespace Site

variable {n : ℕ}

/-- The vector that leads one step along a direction. -/
def step (n : ℕ) (μ : Fin 4) : Site n := Pi.single μ 1

@[simp] theorem step_self (μ : Fin 4) : step n μ μ = 1 := by simp [step]

theorem step_of_ne {μ ν : Fin 4} (h : ν ≠ μ) : step n μ ν = 0 := by simp [step, h]

/-- With at least two points in each direction a step leads elsewhere. -/
theorem step_ne_zero (h : 2 ≤ n) (μ : Fin 4) : step n μ ≠ 0 := by
  intro h0
  have h1 : (1 : ZMod n) = 0 := by simpa using congrFun h0 μ
  have : Fact (1 < n) := ⟨h⟩
  exact one_ne_zero h1

/-! ### Numbers -/

/-- The number of a site. -/
def number (x : Site n) : ℕ :=
  (((x 0).val * n + (x 1).val) * n + (x 2).val) * n + (x 3).val

/-- The site with a number. -/
def ofNumber (n i : ℕ) : Site n :=
  ![(i / n / n / n : ℕ), (i / n / n : ℕ), (i / n : ℕ), (i : ℕ)]

/-- The number of the link that leaves a site in a direction. -/
def linkNumber (x : Site n) (μ : Fin 4) : ℕ := number x * 4 + μ

private theorem digits_lt {a b m : ℕ} (ha : a < m) (hb : b < n) : a * n + b < m * n := by
  have h : (a + 1) * n ≤ m * n := Nat.mul_le_mul_right n ha
  rw [Nat.succ_mul] at h
  omega

theorem number_lt [NeZero n] (x : Site n) : number x < n ^ 4 := by
  have h0 := ZMod.val_lt (x 0)
  have h1 := digits_lt h0 (ZMod.val_lt (x 1))
  have h2 := digits_lt h1 (ZMod.val_lt (x 2))
  have h3 := digits_lt h2 (ZMod.val_lt (x 3))
  calc number x < n * n * n * n := h3
    _ = n ^ 4 := by ring

theorem number_ofNumber [NeZero n] {i : ℕ} (h : i < n ^ 4) : number (ofNumber n i) = i := by
  have htop : i / n / n / n < n := by
    rw [Nat.div_div_eq_div_mul, Nat.div_div_eq_div_mul]
    exact Nat.div_lt_of_lt_mul (by convert h using 1; ring)
  simp only [number, ofNumber, Matrix.cons_val_zero, Matrix.cons_val_one, Matrix.cons_val,
    ZMod.val_natCast]
  rw [Nat.mod_eq_of_lt htop, Nat.div_add_mod', Nat.div_add_mod', Nat.div_add_mod']

private theorem digits_inj {a a' b b' : ℕ} (hb : b < n) (hb' : b' < n)
    (h : a * n + b = a' * n + b') : a = a' ∧ b = b' := by
  have hmod : b = b' := by
    have := congrArg (· % n) h
    simpa [Nat.mul_add_mod', Nat.mod_eq_of_lt hb, Nat.mod_eq_of_lt hb'] using this
  subst hmod
  exact ⟨Nat.eq_of_mul_eq_mul_right (by omega) (Nat.add_right_cancel h), rfl⟩

theorem number_injective [NeZero n] : Function.Injective (number : Site n → ℕ) := by
  intro x y h
  obtain ⟨h, h3⟩ := digits_inj (ZMod.val_lt _) (ZMod.val_lt _) h
  obtain ⟨h, h2⟩ := digits_inj (ZMod.val_lt _) (ZMod.val_lt _) h
  obtain ⟨h0, h1⟩ := digits_inj (ZMod.val_lt _) (ZMod.val_lt _) h
  funext μ
  fin_cases μ
  · exact ZMod.val_injective n h0
  · exact ZMod.val_injective n h1
  · exact ZMod.val_injective n h2
  · exact ZMod.val_injective n h3

theorem ofNumber_number [NeZero n] (x : Site n) : ofNumber n (number x) = x :=
  number_injective (number_ofNumber (number_lt x))

/-- Sites and numbers below `n ^ 4` correspond to each other. -/
def numbering (n : ℕ) [NeZero n] : Fin (n ^ 4) ≃ Site n where
  toFun i := ofNumber n i
  invFun x := ⟨number x, number_lt x⟩
  left_inv i := Fin.ext (number_ofNumber i.2)
  right_inv x := ofNumber_number x

theorem linkNumber_lt [NeZero n] (x : Site n) (μ : Fin 4) : linkNumber x μ < 4 * n ^ 4 := by
  have hx := number_lt x
  simp only [linkNumber]
  omega

/-- Different links have different numbers. -/
theorem linkNumber_inj [NeZero n] {x y : Site n} {μ ν : Fin 4} :
    linkNumber x μ = linkNumber y ν ↔ x = y ∧ μ = ν := by
  constructor
  · intro h
    simp only [linkNumber] at h
    have hnumber : number x = number y := by omega
    exact ⟨number_injective hnumber, by omega⟩
  · rintro ⟨rfl, rfl⟩
    rfl

theorem linkNumber_div (x : Site n) (μ : Fin 4) : linkNumber x μ / 4 = number x := by
  simp only [linkNumber]
  omega

theorem linkNumber_mod (x : Site n) (μ : Fin 4) : linkNumber x μ % 4 = μ := by
  simp only [linkNumber]
  omega

theorem exists_linkNumber [NeZero n] {i : ℕ} (h : i < 4 * n ^ 4) :
    ∃ (x : Site n) (μ : Fin 4), linkNumber x μ = i := by
  refine ⟨ofNumber n (i / 4), ⟨i % 4, Nat.mod_lt i (by decide)⟩, ?_⟩
  rw [linkNumber, number_ofNumber (Nat.div_lt_of_lt_mul h)]
  exact Nat.div_add_mod' i 4

/-! ### Sums -/

/-- A sum over the sites of sums along a list. -/
theorem sum_list_comm [NeZero n] {M ι : Type} [AddCommMonoid M] (f : Site n → ι → M) (is : List ι) :
    ∑ x, (is.map (f x)).sum = (is.map fun i => ∑ x, f x i).sum :=
  (Multiset.sum_map_sum (m := (is : Multiset ι)) (s := Finset.univ) (f := fun i x => f x i)).symm

/-! ### Colours -/

/-- The sum of the residues. -/
def height (x : Site n) : ℕ := (x 0).val + (x 1).val + (x 2).val + (x 3).val

/-- With an even number of points the parity of the height is additive. -/
theorem height_cast (h : 2 ∣ n) [NeZero n] (x : Site n) :
    (height x : ZMod 2) = ∑ μ, ZMod.castHom h (ZMod 2) (x μ) := by
  have hval : ∀ a : ZMod n, (a.val : ZMod 2) = ZMod.castHom h (ZMod 2) a := by
    intro a
    rw [ZMod.castHom_apply, ZMod.cast_eq_val]
  rw [height, Nat.cast_add, Nat.cast_add, Nat.cast_add, hval, hval, hval, hval, Fin.sum_univ_four]

/-- With an even number of points a shift changes the colour as often as it makes steps. -/
theorem height_add_shift (h : 2 ∣ n) [NeZero n] (x : Site n) (μ : Fin 4) (k : ℤ) :
    (height (x + k • step n μ) : ZMod 2) = height x + k := by
  rw [height_cast h, height_cast h]
  generalize ZMod.castHom h (ZMod 2) = φ
  -- of the four residues of a step only the one in its own direction is not zero
  have hstep : ∑ ν, φ (step n μ ν) = 1 := by
    rw [Finset.sum_eq_single μ]
    · rw [step_self, map_one]
    · intro ν _ hν
      rw [step_of_ne hν, map_zero]
    · simp
  simp only [Pi.add_apply, Pi.smul_apply, map_add, map_zsmul, Finset.sum_add_distrib,
    Finset.sum_zsmul, hstep, zsmul_one]

end Site

end PureGauge
