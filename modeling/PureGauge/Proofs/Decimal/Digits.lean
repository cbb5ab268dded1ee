/-
**Decimal digits are proper.**

The digits that a natural number is written with stand for that number, and the first one is not a
zero unless the number is zero.  The shortest digits of a double inherit this: on every grid the
neighbour that is found is positive, since the interval of the numbers that round to a positive
double does not reach zero, and only zeros at the end are dropped.  Which doubles have digits is
read off their bits.

Main definitions:

* `PureGauge.Digits.Proper` — digits without a superfluous zero in front.

Main results:

* `PureGauge.digitsValue_natDigits`, `PureGauge.exists_natDigits` — the digits of a natural number;
* `PureGauge.Digits.proper_shortest` — the shortest digits are proper;
* `PureGauge.Double.ofFloat_eq_finite_iff` — the doubles that are finite.
-/
import PureGauge.Decimal.Reading
import Mathlib.Data.List.DropRight
import Mathlib.Tactic.IntervalCases

namespace PureGauge

/-! ### Natural numbers -/

theorem natDigits_of_lt {n : ℕ} (h : n < 10) : natDigits n = [n.digitChar] :=
  Nat.toDigits_of_lt_base h

theorem natDigits_of_le {n : ℕ} (h : 10 ≤ n) :
    natDigits n = natDigits (n / 10) ++ [(n % 10).digitChar] :=
  Nat.toDigits_of_base_le (by decide) h

theorem digitValue?_digitChar {n : ℕ} (h : n < 10) : digitValue? n.digitChar = some n := by
  interval_cases n <;> rfl

theorem digitsValue_append (ds : List Char) (c : Char) :
    digitsValue (ds ++ [c]) = 10 * digitsValue ds + (digitValue? c).getD 0 := by
  rw [digitsValue, List.foldl_append]
  rfl

/-- The digits of a number stand for it. -/
theorem digitsValue_natDigits (n : ℕ) : digitsValue (natDigits n) = n := by
  induction n using Nat.strong_induction_on with
  | _ n ih =>
      by_cases h : n < 10
      · rw [natDigits_of_lt h, digitsValue, List.foldl_cons, List.foldl_nil,
          digitValue?_digitChar h, Option.getD_some]
        omega
      · have hmod : n % 10 < 10 := Nat.mod_lt n (by decide)
        rw [natDigits_of_le (by omega), digitsValue_append, ih (n / 10) (by omega),
          digitValue?_digitChar hmod, Option.getD_some]
        omega

theorem isDigit_of_mem_natDigits {n : ℕ} {c : Char} (hc : c ∈ natDigits n) : isDigit c = true := by
  induction n using Nat.strong_induction_on with
  | _ n ih =>
      by_cases h : n < 10
      · rw [natDigits_of_lt h, List.mem_singleton] at hc
        rw [hc, isDigit, digitValue?_digitChar h]
        rfl
      · rw [natDigits_of_le (by omega), List.mem_append, List.mem_singleton] at hc
        rcases hc with hc | rfl
        · exact ih (n / 10) (by omega) hc
        · rw [isDigit, digitValue?_digitChar (Nat.mod_lt n (by decide))]
          rfl

/-- A number has a first digit, which is not a zero unless the number is. -/
theorem exists_natDigits (n : ℕ) : ∃ c cs, natDigits n = c :: cs ∧ (c = '0' → n = 0) := by
  induction n using Nat.strong_induction_on with
  | _ n ih =>
      by_cases h : n < 10
      · refine ⟨_, [], natDigits_of_lt h, fun hzero => ?_⟩
        have hvalue := digitValue?_digitChar h
        rw [hzero] at hvalue
        cases hvalue
        rfl
      · obtain ⟨c, cs, hdigits, hc⟩ := ih (n / 10) (by omega)
        refine ⟨c, cs ++ [(n % 10).digitChar], ?_, fun hzero => ?_⟩
        · rw [natDigits_of_le (by omega), hdigits, List.cons_append]
        · have hquotient := hc hzero
          omega

/-! ### Digits of doubles -/

namespace Digits

/-- Digits without a superfluous zero in front. -/
structure Proper (d : Digits) : Prop where
  isDigit : ∀ c ∈ d.digits, isDigit c = true
  leading : d = zero ∨ ∃ c cs, d.digits = c :: cs ∧ c ≠ '0'

theorem proper_zero : zero.Proper := by
  refine ⟨fun c hc => ?_, Or.inl rfl⟩
  rw [List.mem_singleton.1 hc]
  rfl

/-- Only zeros at the end are dropped, so a first digit that is not a zero is kept. -/
theorem trimmed_cons {c : Char} {cs : List Char} (hc : c ≠ '0') :
    ∃ ds z, trimmed (c :: cs) = c :: ds ∧ cs = ds ++ List.replicate z '0' := by
  have hzeros : ∀ d ∈ (c :: cs).rtakeWhile (· = '0'), d = '0' := fun d hd =>
    of_decide_eq_true (List.mem_rtakeWhile_imp (p := fun c => decide (c = '0')) hd)
  have happend := List.rdropWhile_append_rtakeWhile (p := fun c => decide (c = '0')) (l := c :: cs)
  cases hkept : (c :: cs).rdropWhile (· = '0') with
  | nil =>
      have hall := List.rdropWhile_eq_nil_iff.1 hkept c (by simp)
      simp [hc] at hall
  | cons d ds =>
      have hdrop : ((c :: cs).reverse.dropWhile (· = '0')).reverse = d :: ds := hkept
      have htrimmed : trimmed (c :: cs) = d :: ds := by rw [trimmed, hdrop]
      rw [hkept, List.eq_replicate_of_mem hzeros, List.cons_append, List.cons.injEq] at happend
      obtain ⟨rfl, happend⟩ := happend
      exact ⟨ds, _, htrimmed, happend.symm⟩

theorem proper_ofScaled {d : ℕ} (hd : 0 < d) (k : ℤ) : (ofScaled d k).Proper := by
  obtain ⟨c, cs, hdigits, hc⟩ := exists_natDigits d
  have hzero : c ≠ '0' := fun h => hd.ne' (hc h)
  obtain ⟨ds, z, htrimmed, hds⟩ := @trimmed_cons c cs hzero
  have hkept : (ofScaled d k).digits = c :: ds := by
    rw [ofScaled, hdigits, htrimmed]
  refine ⟨fun e he => ?_, Or.inr ⟨c, ds, hkept, hzero⟩⟩
  have hmem : e ∈ natDigits d := by
    rw [hkept] at he
    rw [hdigits, hds, ← List.cons_append]
    exact List.mem_append_left _ he
  exact isDigit_of_mem_natDigits hmem

theorem fractionPower_pos {base : ℕ} (hbase : 0 < base) (e : ℤ) :
    0 < (fractionPower base e).1 ∧ 0 < (fractionPower base e).2 := by
  unfold fractionPower
  split
  · exact ⟨Nat.pow_pos hbase, Nat.one_pos⟩
  · exact ⟨Nat.one_pos, Nat.pow_pos hbase⟩

theorem gap_le (s : ℕ) (power : ℤ) : (Double.gap s power).1 ≤ 2 := by
  unfold Double.gap
  split
  · decide
  · decide

/-- A neighbour that is found on a grid lies in the interval of the numbers that round to the
double. -/
theorem onGrid_mem {tie : Tie} {s : ℕ} {power k : ℤ} {d : ℕ} (h : onGrid tie s power k = some d) :
    (4 * s - (Double.gap s power).1) * ((fractionPower 10 k).2 * (fractionPower 2 (power - 2)).1) ≤
        d * ((fractionPower 10 k).1 * (fractionPower 2 (power - 2)).2) ∧
      d * ((fractionPower 10 k).1 * (fractionPower 2 (power - 2)).2) ≤
        (4 * s + (Double.gap s power).2) *
          ((fractionPower 10 k).2 * (fractionPower 2 (power - 2)).1) := by
  unfold onGrid at h
  simp only at h
  generalize (fractionPower 10 k).1 * (fractionPower 2 (power - 2)).2 = unit at h ⊢
  generalize (4 * s - (Double.gap s power).1) * _ = low at h ⊢
  generalize (4 * s + (Double.gap s power).2) * _ = high at h ⊢
  generalize 4 * s * _ / unit = q at h
  have hmem (d : ℕ) (hhit : (if s % 2 = 0 then decide (low ≤ d * unit ∧ d * unit ≤ high)
      else decide (low < d * unit ∧ d * unit < high)) = true) :
        low ≤ d * unit ∧ d * unit ≤ high := by
    split at hhit
    · exact of_decide_eq_true hhit
    · obtain ⟨hlow, hhigh⟩ := of_decide_eq_true hhit
      exact ⟨hlow.le, hhigh.le⟩
  split at h
  · rename_i hlower hupper
    rw [Option.some.injEq] at h
    split at h
    · exact h ▸ hmem q hlower
    · exact h ▸ hmem (q + 1) hupper
  · rename_i hlower _
    rw [Option.some.injEq] at h
    exact h ▸ hmem q hlower
  · rename_i _ hupper
    rw [Option.some.injEq] at h
    exact h ▸ hmem (q + 1) hupper
  · cases h

/-- The neighbour that is found on a grid is positive. -/
theorem onGrid_pos {tie : Tie} {s : ℕ} {power k : ℤ} {d : ℕ} (hs : 0 < s)
    (h : onGrid tie s power k = some d) : 0 < d := by
  have hbelow := gap_le s power
  have hper : 0 < (fractionPower 10 k).2 * (fractionPower 2 (power - 2)).1 :=
    Nat.mul_pos (fractionPower_pos (by omega) k).2 (fractionPower_pos (by omega) _).1
  -- the interval of what rounds to the double starts above zero
  have hlow := Nat.mul_pos (show 0 < 4 * s - (Double.gap s power).1 by omega) hper
  exact Nat.pos_of_mul_pos_right (Nat.lt_of_lt_of_le hlow (onGrid_mem h).1)

theorem proper_search (tie : Tie) {s : ℕ} (hs : 0 < s) (power first : ℤ) (fuel count : ℕ) :
    (search tie s power first fuel count).Proper := by
  induction fuel generalizing count with
  | zero => exact proper_zero
  | succ fuel ih =>
      rw [search]
      cases hgrid : onGrid tie s power (first - count) with
      | none => simpa only [hgrid] using ih (count + 1)
      | some d => simpa only [hgrid] using proper_ofScaled (onGrid_pos hs hgrid) _

/-- The shortest digits of a double are proper. -/
theorem proper_shortest (tie : Tie) (s : ℕ) (power : ℤ) : (shortest tie s power).Proper := by
  unfold shortest
  split
  · exact proper_zero
  · exact proper_search tie (by omega) _ _ _ _

end Digits

/-! ### Bits of doubles -/

namespace Double

open Float.Model Float.Model.UnpackedFloat

/-- The exponent field of a double. -/
theorem toNat_unpackExponent (x : Float) :
    (@unpackExponent .binary64 x.toModel.toBits.toBitVec).toNat =
      (x.toBits.toNat >>> 52) % 2048 := by
  unfold unpackExponent
  rw [BitVec.toNat_cast, BitVec.extractLsb_toNat]
  rfl

theorem isFinite_ite {p : Prop} [Decidable p] {x y : UnpackedFloat} (hx : x.isFinite = true)
    (hy : y.isFinite = true) : (if p then x else y).isFinite = true := by
  by_cases hp : p
  · rwa [if_pos hp]
  · rwa [if_neg hp]

theorem isFinite_dite {p : Prop} [Decidable p] {x : p → UnpackedFloat} {y : ¬ p → UnpackedFloat}
    (hx : ∀ hp, (x hp).isFinite = true) (hy : ∀ hp, (y hp).isFinite = true) :
    (if hp : p then x hp else y hp).isFinite = true := by
  by_cases hp : p
  · rw [dif_pos hp]
    exact hx hp
  · rw [dif_neg hp]
    exact hy hp

/-- A double is finite unless all bits of its exponent field are set. -/
theorem isFinite_iff (x : Float) : x.isFinite = true ↔ (x.toBits.toNat >>> 52) % 2048 ≠ 2047 := by
  have hones : (-1#11 : BitVec 11).toNat = 2047 := rfl
  have hset : @unpackExponent .binary64 x.toModel.toBits.toBitVec = -1#11 ↔
      (x.toBits.toNat >>> 52) % 2048 = 2047 := by
    rw [← toNat_unpackExponent, ← hones, BitVec.toNat_inj]
  unfold Float.isFinite Float.Model.isFinite Float.Model.unpack UnpackedFloat.unpack
  by_cases h : (x.toBits.toNat >>> 52) % 2048 = 2047
  · rw [if_pos (hset.2 h)]
    split
    · exact ⟨fun hfinite => absurd hfinite Bool.false_ne_true, fun hne => absurd h hne⟩
    · exact ⟨fun hfinite => absurd hfinite Bool.false_ne_true, fun hne => absurd h hne⟩
  · rw [if_neg fun hc => h (hset.1 hc)]
    exact ⟨fun _ => h, fun _ => isFinite_ite (isFinite_dite (fun _ => rfl) fun _ => rfl) rfl⟩

/-- The finite doubles have a sign, a significand and a power. -/
theorem ofFloat_eq_finite_iff (x : Float) :
    (∃ negative s power, ofFloat x = finite negative s power) ↔ x.isFinite = true := by
  rw [isFinite_iff, ofFloat]
  unfold ofBits
  by_cases hfield : (x.toBits.toNat >>> 52) % 2048 = 2047
  · simp only [hfield, if_true]
    split
    · simp
    · simp
  · simp only [if_neg hfield]
    split
    · exact ⟨fun _ => hfield, fun _ => ⟨_, _, _, rfl⟩⟩
    · exact ⟨fun _ => hfield, fun _ => ⟨_, _, _, rfl⟩⟩

end Double

end PureGauge
