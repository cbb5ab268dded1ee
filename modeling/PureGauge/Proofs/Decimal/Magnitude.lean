/-
**How large shortest digits are.**

The number that digits stand for lies in the interval of the numbers that round to the double that
they were made for, so it exceeds the double by half a unit of its significand at most.  The digits
without a point are an integer that fits into a word.

Main definitions:

* `PureGauge.Digits.value` — the number that digits stand for.

Main results:

* `PureGauge.digitsValue_lt` — digits without a point stand for less than the power of ten of their
  number;
* `PureGauge.lt_leadingExponent` — a fraction is less than the power of ten behind its first digit;
* `PureGauge.Digits.value_ofScaled` — the digits of an integer times a power of ten;
* `PureGauge.Digits.shortest_bounds` — the number and the integer that shortest digits stand for.
-/
import PureGauge.Proofs.Decimal.Digits
import Mathlib.Data.Rat.Cast.Order
import Mathlib.Tactic.Linarith
import Mathlib.Tactic.Ring

namespace PureGauge

/-! ### Natural numbers -/

theorem digitValue?_le (c : Char) : (digitValue? c).getD 0 ≤ 9 := by
  unfold digitValue?
  split
  case isTrue h =>
    have hle : c.toNat ≤ '9'.toNat := h.2
    have hnine : '9'.toNat = 57 := rfl
    have hzero : '0'.toNat = 48 := rfl
    rw [Option.getD_some]
    omega
  case isFalse => exact Nat.zero_le 9

/-- Digits stand for less than the power of ten of their number. -/
theorem digitsValue_lt (ds : List Char) : digitsValue ds < 10 ^ ds.length := by
  induction ds using List.reverseRecOn with
  | nil => exact Nat.one_pos
  | append_singleton ds c ih =>
      have hc := digitValue?_le c
      rw [digitsValue_append, List.length_append, List.length_singleton, pow_succ]
      omega

theorem digitsValue_append_zeros (ds : List Char) (z : ℕ) :
    digitsValue (ds ++ List.replicate z '0') = digitsValue ds * 10 ^ z := by
  induction z with
  | zero => rw [List.replicate_zero, List.append_nil, pow_zero, Nat.mul_one]
  | succ z ih =>
      have hzero : (digitValue? '0').getD 0 = 0 := rfl
      rw [List.replicate_succ', ← List.append_assoc, digitsValue_append, ih, hzero, pow_succ]
      ring

/-- A positive number is at least the power of ten of its first digit. -/
theorem pow_le_of_natDigits {n : ℕ} (hn : 0 < n) : 10 ^ ((natDigits n).length - 1) ≤ n := by
  induction n using Nat.strong_induction_on with
  | _ n ih =>
      by_cases h : n < 10
      · rw [natDigits_of_lt h]
        exact hn
      · have hquotient := ih (n / 10) (by omega) (by omega)
        have hpos : 0 < (natDigits (n / 10)).length := by
          obtain ⟨c, cs, hdigits, -⟩ := exists_natDigits (n / 10)
          rw [hdigits]
          exact Nat.succ_pos _
        rw [natDigits_of_le (by omega), List.length_append, List.length_singleton,
          Nat.add_sub_cancel]
        obtain ⟨k, hk⟩ := Nat.exists_eq_succ_of_ne_zero hpos.ne'
        rw [hk, Nat.succ_sub_one] at hquotient
        rw [hk, pow_succ]
        omega

theorem fractionPower_eq (base : ℕ) (hbase : 0 < base) (e : ℤ) :
    ((fractionPower base e).1 : ℚ) = (base : ℚ) ^ e * (fractionPower base e).2 := by
  have hne : (base : ℚ) ≠ 0 := by exact_mod_cast hbase.ne'
  unfold fractionPower
  split
  case isTrue h =>
    obtain ⟨n, rfl⟩ := Int.eq_ofNat_of_zero_le h
    simp
  case isFalse h =>
    obtain ⟨n, rfl⟩ : ∃ n : ℕ, e = -n := ⟨(-e).toNat, by omega⟩
    simp [hne]

/-- A fraction is less than the power of ten behind its first digit. -/
theorem lt_leadingExponent (n : ℕ) {d : ℕ} (hd : 0 < d) :
    (n : ℚ) < 10 ^ (leadingExponent n d + 1) * d := by
  have hten : (10 : ℚ) ≠ 0 := by norm_num
  unfold leadingExponent
  simp only
  split
  case isTrue h =>
    have hb : (0 : ℚ) < (fractionPower 10 ((natDigits n).length - (natDigits d).length)).2 := by
      exact_mod_cast (Digits.fractionPower_pos (by decide) _).2
    have hlt : (n : ℚ) * (fractionPower 10 ((natDigits n).length - (natDigits d).length)).2 <
        d * (fractionPower 10 ((natDigits n).length - (natDigits d).length)).1 := by
          exact_mod_cast h
    rw [fractionPower_eq 10 (by decide), ← mul_assoc] at hlt
    rw [sub_add_cancel, mul_comm]
    exact lt_of_mul_lt_mul_right hlt hb.le
  case isFalse =>
    have hlength : 0 < (natDigits d).length := by
      obtain ⟨c, cs, hdigits, -⟩ := exists_natDigits d
      rw [hdigits]
      exact Nat.succ_pos _
    have hn : (n : ℚ) < 10 ^ (natDigits n).length := by
      have hlt := digitsValue_lt (natDigits n)
      rw [digitsValue_natDigits] at hlt
      exact_mod_cast hlt
    have hd : (10 : ℚ) ^ ((natDigits d).length - 1) ≤ d := by exact_mod_cast pow_le_of_natDigits hd
    calc (n : ℚ) < 10 ^ (natDigits n).length := hn
      _ = 10 ^ (((natDigits n).length : ℤ) - (natDigits d).length + 1) *
          10 ^ ((natDigits d).length - 1) := by
        rw [← zpow_natCast, ← zpow_natCast, ← zpow_add₀ hten]
        congr 1
        omega
      _ ≤ 10 ^ (((natDigits n).length : ℤ) - (natDigits d).length + 1) * d :=
        mul_le_mul_of_nonneg_left hd (zpow_pos (by norm_num) _).le

/-! ### Digits -/

namespace Digits

/-- The number that digits stand for. -/
def value (d : Digits) : ℚ := digitsValue d.digits * 10 ^ (d.exponent - (d.digits.length - 1))

theorem value_zero : zero.value = 0 := by
  have hzero : digitsValue zero.digits = 0 := rfl
  rw [value, hzero, Nat.cast_zero, zero_mul]

/-- The digits of an integer times a power of ten stand for this number, and without zeros at the
end for a smaller integer. -/
theorem value_ofScaled {d : ℕ} (hd : 0 < d) (k : ℤ) :
    (ofScaled d k).value = d * 10 ^ k ∧ digitsValue (ofScaled d k).digits ≤ d := by
  obtain ⟨c, cs, hdigits, hc⟩ := exists_natDigits d
  obtain ⟨ds, z, htrimmed, hds⟩ := @trimmed_cons c cs fun h => hd.ne' (hc h)
  have hkept : (ofScaled d k).digits = c :: ds := by rw [ofScaled, hdigits, htrimmed]
  have hexponent : (ofScaled d k).exponent = k + ((c :: cs).length - 1) := by rw [ofScaled, hdigits]
  have hvalue : digitsValue (c :: ds) * 10 ^ z = d := by
    rw [← digitsValue_append_zeros, List.cons_append, ← hds, ← hdigits, digitsValue_natDigits]
  constructor
  · have hlength : (ofScaled d k).exponent - ((ofScaled d k).digits.length - 1) = k + z := by
      rw [hexponent, hkept, hds]
      simp only [List.length_cons, List.length_append, List.length_replicate]
      omega
    have hcast : (digitsValue (c :: ds) : ℚ) * 10 ^ z = d := by exact_mod_cast hvalue
    rw [value, hlength, hkept, zpow_add₀ (by norm_num), zpow_natCast, mul_comm (10 ^ k),
      ← mul_assoc, hcast]
  · rw [hkept, ← hvalue]
    exact Nat.le_mul_of_pos_right _ (Nat.pow_pos (by decide))

/-- A number that is found on a grid exceeds the double by half a unit at most. -/
theorem onGrid_le {tie : Tie} {s : ℕ} {power k : ℤ} {d : ℕ} (h : onGrid tie s power k = some d) :
    (d : ℚ) * 10 ^ k ≤ (4 * s + 2) * 2 ^ (power - 2) := by
  have habove : (Double.gap s power).2 = 2 := by
    unfold Double.gap
    split
    · rfl
    · rfl
  have hq : (0 : ℚ) < (fractionPower 10 k).2 := by
    exact_mod_cast (fractionPower_pos (by decide) k).2
  have hw : (0 : ℚ) < (fractionPower 2 (power - 2)).2 := by
    exact_mod_cast (fractionPower_pos (by decide) (power - 2)).2
  have hhit := (onGrid_mem h).2
  rw [habove] at hhit
  have hcast : (d : ℚ) * ((fractionPower 10 k).1 * (fractionPower 2 (power - 2)).2) ≤
      (4 * s + 2) * ((fractionPower 10 k).2 * (fractionPower 2 (power - 2)).1) := by
        exact_mod_cast hhit
  rw [fractionPower_eq 10 (by decide), fractionPower_eq 2 (by decide), Nat.cast_ofNat,
    Nat.cast_ofNat] at hcast
  refine le_of_mul_le_mul_right ?_ (mul_pos hq hw)
  linarith only [hcast]

/-- The digits that are found, if there are any, come from one of the grids that are searched. -/
theorem search_cases (tie : Tie) (s : ℕ) (power first : ℤ) (fuel count : ℕ) :
    search tie s power first fuel count = zero ∨
    ∃ d i, onGrid tie s power (first - (i : ℕ)) = some d ∧ i < count + fuel ∧
      search tie s power first fuel count = ofScaled d (first - i) := by
  induction fuel generalizing count with
  | zero => exact Or.inl rfl
  | succ fuel ih =>
      rw [search]
      cases hgrid : onGrid tie s power (first - count) with
      | none =>
          simp only
          refine (ih (count + 1)).imp_right ?_
          rintro ⟨d, i, hgrid, hi, hsearch⟩
          exact ⟨d, i, hgrid, by omega, hsearch⟩
      | some d =>
          simp only
          exact Or.inr ⟨d, count, hgrid, by omega, rfl⟩

/-- The shortest digits of a double exceed it by half a unit at most, and are an integer of one
word. -/
theorem shortest_bounds (tie : Tie) (s : ℕ) (power : ℤ) :
    (shortest tie s power).value ≤ (4 * s + 2) * 2 ^ (power - 2) ∧
      digitsValue (shortest tie s power).digits < UInt64.size := by
  have hunit : (0 : ℚ) < 2 ^ (power - 2) := zpow_pos two_pos _
  rcases Nat.eq_zero_or_pos s with rfl | hs
  · rw [shortest, if_pos rfl, value_zero]
    exact ⟨by positivity, by decide⟩
  have hshortest : shortest tie s power = search tie s power
      (leadingExponent (s * (fractionPower 2 power).1) (fractionPower 2 power).2) 18 0 := by
    rw [shortest, if_neg hs.ne']
  have hw : 0 < (fractionPower 2 power).2 := (fractionPower_pos (by decide) power).2
  have hfirst := lt_leadingExponent (s * (fractionPower 2 power).1) hw
  rw [hshortest]
  generalize leadingExponent _ _ = first at hfirst ⊢
  rcases search_cases tie s power first 18 0 with hzero | ⟨d, i, hgrid, hi, hsearch⟩
  · rw [hzero, value_zero]
    exact ⟨by positivity, by decide⟩
  · obtain ⟨hvalue, hle⟩ := value_ofScaled (onGrid_pos hs hgrid) (first - i)
    have hbound := onGrid_le hgrid
    rw [hsearch, hvalue]
    refine ⟨hbound, lt_of_le_of_lt hle ?_⟩
    -- the double is less than ten units of the first grid, of which the finest
    -- one has `10 ^ 17` parts
    have hten : (10 : ℚ) ≠ 0 := by norm_num
    have hw : (0 : ℚ) < (fractionPower 2 power).2 := by exact_mod_cast hw
    have hdouble : (s : ℚ) * 2 ^ power < 10 ^ (first + 1) := by
      rw [Nat.cast_mul, fractionPower_eq 2 (by decide), ← mul_assoc, Nat.cast_ofNat] at hfirst
      exact lt_of_mul_lt_mul_right hfirst hw.le
    have hpower : (2 : ℚ) ^ power = 2 ^ (power - 2) * 4 := by
      rw [show (4 : ℚ) = 2 ^ (2 : ℤ) by norm_num, ← zpow_add₀ two_ne_zero, sub_add_cancel]
    have hs : (1 : ℚ) ≤ s := by exact_mod_cast hs
    have hparts : (10 : ℚ) ^ (first + 1) ≤ 10 ^ 18 * 10 ^ (first - (i : ℤ)) := by
      rw [← zpow_natCast, ← zpow_add₀ hten]
      exact zpow_le_zpow_right₀ (by norm_num) (by omega)
    have hgrid : (0 : ℚ) < 10 ^ (first - (i : ℤ)) := zpow_pos (by norm_num) _
    have hd : (d : ℚ) < 3 / 2 * 10 ^ 18 := by
      rw [hpower] at hdouble
      refine lt_of_mul_lt_mul_right ?_ hgrid.le
      calc (d : ℚ) * 10 ^ (first - (i : ℤ)) ≤ (4 * s + 2) * 2 ^ (power - 2) := hbound
        _ ≤ 3 / 2 * (s * (2 ^ (power - 2) * 4)) := by nlinarith only [hs, hunit]
        _ < 3 / 2 * 10 ^ 18 * 10 ^ (first - (i : ℤ)) := by linarith only [hdouble, hparts]
    have hsize : (UInt64.size : ℚ) = 2 ^ 64 := by norm_num [UInt64.size]
    have hlt : (d : ℚ) < UInt64.size := by
      rw [hsize]
      linarith only [hd]
    exact_mod_cast hlt

end Digits

end PureGauge
