/-
**Doubles that are computed stay within their range.**

A result is shifted to the right until 53 bits of its significand are left, and what was shifted out
decides whether the significand is rounded up.  So a rounded number exceeds the exact one by half a
unit of its significand at most, which is a part `2 ^ (-53)` of it, and it is finite if the exact
one lies below the middle between the largest double and the next power of two.  Quotients by
numbers that are not small are far from that limit.

Main definitions:

* `PureGauge.Double.Normal` — a positive double with a significand of 53 bits;
* `PureGauge.Double.limit` — the least number that is rounded to infinity.

Main results:

* `PureGauge.Double.two_mul_rounded_le` — a significand is rounded up by half a unit at most;
* `PureGauge.Double.exists_normal_round` — how a positive number is rounded;
* `PureGauge.Double.isFinite_mul` — products below the limit are finite;
* `PureGauge.Double.isFinite_div` — quotients by numbers that are not small are finite.
-/
import PureGauge.Proofs.Decimal.Digits
import Mathlib.Tactic.Linarith
import Mathlib.Tactic.Ring

namespace PureGauge

namespace Double

open Float.Model Float.Model.UnpackedFloat

/-! ### Significands -/

theorem mantissa_shiftRight (em : ExtendedMantissa) (k : ℕ) :
    (em >>> k).mantissa = em.mantissa / 2 ^ k := by
  induction k with
  | zero => rw [pow_zero, Nat.div_one]; rfl
  | succ k ih =>
      change (em >>> k).mantissa / 2 = _
      rw [ih, Nat.div_div_eq_div_mul, pow_succ]

theorem roundBit_shiftRight (em : ExtendedMantissa) (k : ℕ) :
    (em >>> (k + 1)).roundBit = (em.mantissa / 2 ^ k % 2 != 0) := by
  change ((em >>> k).mantissa % 2 != 0) = _
  rw [mantissa_shiftRight]

/-- A significand is rounded up by one at most, and only if the first bit behind it is set. -/
theorem rounded_bounds (em : ExtendedMantissa) :
    em.mantissa ≤ em.roundedMantissa ∧ em.roundedMantissa ≤ em.mantissa + em.roundBit.toNat := by
  obtain ⟨m, round, sticky⟩ := em
  have hmod : m % 2 < 2 := Nat.mod_lt m (by decide)
  cases round with
  | false =>
      cases sticky with
      | _ => exact ⟨le_rfl, le_rfl⟩
  | true =>
      cases sticky with
      | false => exact ⟨Nat.le_add_right m _, show m + m % 2 ≤ m + 1 by omega⟩
      | true => exact ⟨Nat.le_succ m, le_rfl⟩

theorem mantissa_ofMantissaAndAccuracy (m : ℕ) (a : Accuracy) :
    (ExtendedMantissa.ofMantissaAndAccuracy m a).mantissa = m := by
  cases a with
  | exact => rfl
  | inexact o =>
      cases o with
      | _ => rfl

/-- A significand is rounded up by half a unit at most. -/
theorem two_mul_rounded_le (m k : ℕ) :
    2 * ((ExtendedMantissa.ofMantissaAndAccuracy m .exact >>> k).roundedMantissa * 2 ^ k) ≤
      2 * m + 2 ^ k := by
  cases k with
  | zero =>
      have hexact : (ExtendedMantissa.ofMantissaAndAccuracy m .exact >>> 0).roundedMantissa = m :=
        rfl
      rw [hexact]
      omega
  | succ k =>
      obtain ⟨-, hup⟩ :=
        rounded_bounds (ExtendedMantissa.ofMantissaAndAccuracy m .exact >>> (k + 1))
      have hbit := roundBit_shiftRight (ExtendedMantissa.ofMantissaAndAccuracy m .exact) k
      have hmantissa :=
        mantissa_shiftRight (ExtendedMantissa.ofMantissaAndAccuracy m .exact) (k + 1)
      rw [mantissa_ofMantissaAndAccuracy] at hbit hmantissa
      rw [hbit, hmantissa, pow_succ, ← Nat.div_div_eq_div_mul] at hup
      have hfloor := Nat.div_mul_le_self m (2 ^ k)
      have hbound : ((m / 2 ^ k % 2 != 0).toNat) ≤ m / 2 ^ k % 2 := by
        rcases Nat.mod_two_eq_zero_or_one (m / 2 ^ k) with h | h
        · rw [h]; rfl
        · rw [h]; rfl
      have hrounded := Nat.le_trans hup (Nat.add_le_add_left hbound _)
      generalize (ExtendedMantissa.ofMantissaAndAccuracy m .exact >>> (k + 1)).roundedMantissa = r
        at hrounded ⊢
      generalize m / 2 ^ k = q at hrounded hfloor
      have htwice : 2 * r ≤ q + 1 := by omega
      calc 2 * (r * 2 ^ (k + 1)) = 2 * (2 * r * 2 ^ k) := by ring
        _ ≤ 2 * ((q + 1) * 2 ^ k) := by gcongr
        _ = 2 * (q * 2 ^ k) + 2 ^ (k + 1) := by ring
        _ ≤ 2 * m + 2 ^ (k + 1) := by omega

/-! ### Results -/

theorem finite_congr {s s' : Sign} {m m' : ℕ} {e e' : ℤ} {hm : 0 < m} {hm' : 0 < m'} (hs : s = s')
    (h : m = m') (he : e = e') : UnpackedFloat.finite s m e hm = .finite s' m' e' hm' := by
  subst hs h he
  rfl

/-- By how many bits the significand of a result is shifted before it is rounded. -/
def shift (m : ℕ) (e : ℤ) : ℕ := (Format.binary64.targetExponent (totalExponent m e) - e).toNat

theorem shift_eq (m : ℕ) (e : ℤ) :
    (shift m e : ℤ) = max (max ((m.log2 : ℤ) + e - 52) (-1074) - e) 0 := by
  have htarget : Format.binary64.targetExponent (totalExponent m e) =
      max ((m.log2 : ℤ) + 1 + e - 53) (-1074) := rfl
  rw [shift, htarget]
  omega

/-- Nothing is shifted out of a significand that fits. -/
theorem shift_of_lt {m : ℕ} (hm : m < 2 ^ 53) {e : ℤ} (he : -1074 ≤ e) : shift m e = 0 := by
  have hlog : m.log2 ≤ 52 := by
    rcases Nat.eq_zero_or_pos m with rfl | hpos
    · decide
    · have hlt := (Nat.log2_lt hpos.ne').2 hm
      omega
  have hshift := shift_eq m e
  omega

theorem lt_of_shift (m : ℕ) (e : ℤ) : m / 2 ^ shift m e < 2 ^ 53 := by
  have hshift := shift_eq m e
  rw [Nat.div_lt_iff_lt_mul (Nat.two_pow_pos _), ← Nat.pow_add]
  exact Nat.lt_of_lt_of_le Nat.lt_log2_self (Nat.pow_le_pow_right (by decide) (by omega))

/-- The significand of a result before it may have to be shifted once more. -/
def rounded (m : ℕ) (e : ℤ) (a : Accuracy) : ℕ :=
  (ExtendedMantissa.ofMantissaAndAccuracy m a >>> shift m e).roundedMantissa

theorem rounded_le (m : ℕ) (e : ℤ) (a : Accuracy) : rounded m e a ≤ 2 ^ 53 := by
  obtain ⟨-, hup⟩ := rounded_bounds (ExtendedMantissa.ofMantissaAndAccuracy m a >>> shift m e)
  rw [mantissa_shiftRight, mantissa_ofMantissaAndAccuracy] at hup
  have hlt := lt_of_shift m e
  have hbit := Bool.toNat_le (ExtendedMantissa.ofMantissaAndAccuracy m a >>> shift m e).roundBit
  rw [rounded]
  omega

/-- A rounded significand is shifted once more if it has become too long. -/
theorem roundWithAccuracy_eq (s : Sign) (m : ℕ) (e : ℤ) (a : Accuracy) :
    roundWithAccuracy .binary64 s m e a =
      if h : rounded m e a / 2 ^ shift (rounded m e a) (e + shift m e) = 0 then .zero s
      else .finite s (rounded m e a / 2 ^ shift (rounded m e a) (e + shift m e))
        (e + shift m e + shift (rounded m e a) (e + shift m e)) (Nat.pos_of_ne_zero h) := by
  have hmantissa :=
    mantissa_shiftRight (ExtendedMantissa.ofMantissaAndAccuracy (rounded m e a) .exact)
    (shift (rounded m e a) (e + shift m e))
  rw [mantissa_ofMantissaAndAccuracy] at hmantissa
  have hcongr {n k : ℕ} {f : ℤ} (h : n = k) :
      (if h : n = 0 then UnpackedFloat.zero s else .finite s n f (Nat.pos_of_ne_zero h)) =
        if h : k = 0 then .zero s else .finite s k f (Nat.pos_of_ne_zero h) := by
    subst h
    rfl
  exact hcongr hmantissa

/-- A rounded number: its significand has 53 bits at most, and is halved if rounding has led to one
bit more. -/
theorem exists_rounded (s : Sign) (m : ℕ) (e : ℤ) (a : Accuracy) :
    (rounded m e a = 0 ∧ roundWithAccuracy .binary64 s m e a = .zero s) ∨
    (∃ hpos, rounded m e a < 2 ^ 53 ∧
      roundWithAccuracy .binary64 s m e a = .finite s (rounded m e a) (e + shift m e) hpos) ∨
    (∃ hpos, rounded m e a = 2 ^ 53 ∧
      roundWithAccuracy .binary64 s m e a = .finite s (2 ^ 52) (e + shift m e + 1) hpos) := by
  have hle := rounded_le m e a
  have hround := roundWithAccuracy_eq s m e a
  have hleast : -1074 ≤ e + shift m e := by
    have hshift := shift_eq m e
    omega
  rcases Nat.lt_or_ge (rounded m e a) (2 ^ 53) with hlt | hge
  · have hnone := shift_of_lt hlt hleast
    have hsame : rounded m e a / 2 ^ shift (rounded m e a) (e + shift m e) = rounded m e a := by
      rw [hnone, pow_zero, Nat.div_one]
    rcases Nat.eq_zero_or_pos (rounded m e a) with hzero | hpos
    · rw [dif_pos (hsame.trans hzero)] at hround
      exact Or.inl ⟨hzero, hround⟩
    · rw [dif_neg (by rw [hsame]; exact hpos.ne')] at hround
      refine Or.inr (Or.inl ⟨hpos, hlt, hround.trans (finite_congr rfl hsame ?_)⟩)
      rw [hnone, Nat.cast_zero, add_zero]
  · have hmax : rounded m e a = 2 ^ 53 := Nat.le_antisymm hle hge
    have hone : shift (rounded m e a) (e + shift m e) = 1 := by
      have hshift := shift_eq (rounded m e a) (e + shift m e)
      rw [hmax, Nat.log2_two_pow] at hshift
      rw [hmax]
      omega
    have hhalf : rounded m e a / 2 ^ shift (rounded m e a) (e + shift m e) = 2 ^ 52 := by
      rw [hone, hmax]
      rfl
    rw [dif_neg (by rw [hhalf]; decide)] at hround
    exact Or.inr (Or.inr ⟨Nat.two_pow_pos 52, hmax,
      hround.trans (finite_congr rfl hhalf (by rw [hone, Nat.cast_one]))⟩)

/-! ### Bits -/

/-- The least exact number that is rounded to infinity: the middle between the largest double and
`2 ^ 1024`. -/
def limit : ℚ := (2 ^ 54 - 1) * 2 ^ (970 : ℤ)

theorem lt_limit {x : ℚ} (hx : x < 2 ^ 64) : x < limit := by
  have hpow : (2 : ℚ) ^ (11 : ℤ) ≤ 2 ^ (970 : ℤ) := zpow_le_zpow_right₀ one_le_two (by decide)
  rw [limit]
  generalize (2 : ℚ) ^ (970 : ℤ) = unit at hpow ⊢
  norm_num at hpow
  linarith only [hx, hpow]

theorem limit_eq : limit = (((2 ^ 54 - 1) * 2 ^ 970 : ℕ) : ℚ) := by
  rw [limit, Nat.cast_mul, Nat.cast_pow 2 970, Nat.cast_sub (by decide), Nat.cast_pow, Nat.cast_one,
    Nat.cast_ofNat, show (2 : ℚ) ^ (970 : ℤ) = 2 ^ 970 from zpow_natCast 2 970]

/-- The limit lies between two powers of ten. -/
theorem pow_lt_limit : (10 : ℚ) ^ 308 < limit := by
  have hlt : ((10 ^ 308 : ℕ) : ℚ) < (((2 ^ 54 - 1) * 2 ^ 970 : ℕ) : ℚ) :=
    Nat.cast_lt.2 (by decide +kernel)
  rwa [← limit_eq, Nat.cast_pow, Nat.cast_ofNat] at hlt

theorem limit_lt_pow : limit < (10 : ℚ) ^ 309 := by
  have hlt : (((2 ^ 54 - 1) * 2 ^ 970 : ℕ) : ℚ) < ((10 ^ 309 : ℕ) : ℚ) :=
    Nat.cast_lt.2 (by decide +kernel)
  rwa [← limit_eq, Nat.cast_pow, Nat.cast_ofNat] at hlt

theorem isFinite_unpack {b : BitVec 64} (h : @unpackExponent .binary64 b ≠ -1#11) :
    (unpack .binary64 b).isFinite = true := by
  unfold UnpackedFloat.unpack
  rw [if_neg h]
  exact isFinite_ite (isFinite_dite (fun _ => rfl) fun _ => rfl) rfl

theorem ofNat_ne_neg_one {n : ℕ} (hn : n < 2047) : BitVec.ofNat 11 n ≠ -1#11 := by
  intro heq
  have hvalue := congrArg BitVec.toNat heq
  rw [BitVec.toNat_ofNat, Nat.mod_eq_of_lt (by omega)] at hvalue
  have hones : (-1#11 : BitVec 11).toNat = 2047 := rfl
  omega

theorem unpack_pack_infinite (s : Sign) :
    unpack .binary64 (pack .binary64 (.infinity s)) = .infinity s := by
  cases s with
  | _ => rfl

theorem pack_eq (s : Sign) (m : ℕ) (e : ℤ) (hm : 0 < m) :
    pack .binary64 (.finite s m e hm) =
      if 2048 ≤ (e + 1023 + 52).toNat + 1 then pack .binary64 (.infinity s)
      else if m.log2 + 1 = 53 then
        packComponents .binary64 s (BitVec.ofNat 11 (e + 1023 + 52).toNat) (BitVec.ofNat 52 m)
      else packComponents .binary64 s 0#11 (BitVec.ofNat 52 m) := rfl

/-- A number is packed as it is or, if its exponent is too large, as an infinity. -/
theorem pack_finite (s : Sign) (m : ℕ) (e : ℤ) (hm : 0 < m) :
    if e ≤ 971 then (unpack .binary64 (pack .binary64 (.finite s m e hm))).isFinite = true
    else unpack .binary64 (pack .binary64 (.finite s m e hm)) = .infinity s := by
  rw [pack_eq]
  by_cases he : e ≤ 971
  · rw [if_pos he, if_neg (show ¬ 2048 ≤ (e + 1023 + 52).toNat + 1 by omega)]
    split
    · exact isFinite_unpack (by
        rw [unpackExponent_packComponents]
        exact ofNat_ne_neg_one (by omega))
    · exact isFinite_unpack (by
        rw [unpackExponent_packComponents]
        decide)
  · rw [if_neg he, if_pos (show 2048 ≤ (e + 1023 + 52).toNat + 1 by omega), unpack_pack_infinite]

/-- A positive double with a significand of 53 bits. -/
structure Normal (x : Float) (m : ℕ) (e : ℤ) : Prop where
  unpack : ∃ hpos, x.toModel.unpack = .finite .positive m e hpos
  low : 2 ^ 52 ≤ m
  high : m < 2 ^ 53

theorem Normal.isFinite {x : Float} {m : ℕ} {e : ℤ} (h : Normal x m e) : x.isFinite = true := by
  obtain ⟨hpos, hunpack⟩ := h.unpack
  change x.toModel.unpack.isFinite = true
  rw [hunpack]
  rfl

/-- A significand is its stored bits behind a bit that is not stored. -/
theorem toNat_one_append (f : BitVec 52) : (1#1 ++ f).toNat = 2 ^ 52 + f.toNat := by
  rw [BitVec.toNat_append, ← Nat.shiftLeft_add_eq_or_of_lt f.isLt]
  rfl

/-- The sign that is unpacked is the one that was packed. -/
theorem ofBitVec_unpackSign (f : Float.Model.Format) (s : Sign) (field : BitVec f.exponentBits)
    (fraction : BitVec f.mantissaBitsWithoutImplicit) :
    Sign.ofBitVec (unpackSign (packComponents f s field fraction)) = s := by
  -- the sign is the one bit above the exponent and the fraction
  have hbit : unpackSign (packComponents f s field fraction) = s.toBitVec := by
    refine BitVec.eq_of_getLsbD_eq fun i hi => ?_
    obtain rfl : i = 0 := by omega
    refine (BitVec.getLsbD_cast _ _).trans ?_
    rw [packComponents, BitVec.getLsbD_extractLsb, BitVec.getLsbD_append, if_neg (by omega),
      BitVec.getLsbD_append, if_neg (by omega)]
    simp
  rw [hbit]
  cases s with
  | positive => rfl
  | negative => rfl

/-- A number whose significand has 53 bits is packed as it is. -/
theorem normal_pack {m : ℕ} {e : ℤ} (hlow : 2 ^ 52 ≤ m) (hhigh : m < 2 ^ 53) (hleast : -1074 ≤ e)
    (hmost : e ≤ 971) (hpos : 0 < m) :
    Normal (.ofModel (.pack (.finite .positive m e hpos))) m e := by
  have hlog : m.log2 = 52 := (Nat.log2_eq_iff hpos.ne').2 ⟨hlow, hhigh⟩
  have hpack := pack_eq .positive m e hpos
  rw [if_neg (by omega), if_pos (by rw [hlog])] at hpack
  have hfield : (BitVec.ofNat 11 (e + 1023 + 52).toNat).toNat = (e + 1023 + 52).toNat := by
    rw [BitVec.toNat_ofNat, Nat.mod_eq_of_lt (by omega)]
  have hzero : BitVec.ofNat 11 (e + 1023 + 52).toNat ≠ 0#11 := by
    intro heq
    rw [heq] at hfield
    change 0 = _ at hfield
    omega
  have hmantissa : (1#1 ++ BitVec.ofNat 52 m).toNat = m := by
    rw [toNat_one_append, BitVec.toNat_ofNat]
    omega
  have hexponent := @unpackExponent_packComponents .binary64 .positive
    (BitVec.ofNat 11 (e + 1023 + 52).toNat) (BitVec.ofNat 52 m)
  have hfraction := @unpackMantissa_packComponents .binary64 .positive
    (BitVec.ofNat 11 (e + 1023 + 52).toNat) (BitVec.ofNat 52 m)
  have hsign := ofBitVec_unpackSign .binary64 .positive
    (BitVec.ofNat 11 (e + 1023 + 52).toNat) (BitVec.ofNat 52 m)
  refine ⟨⟨hpos, ?_⟩, hlow, hhigh⟩
  change UnpackedFloat.unpack .binary64 (pack .binary64 (.finite .positive m e hpos)) = _
  rw [hpack]
  unfold UnpackedFloat.unpack
  rw [if_neg (by rw [hexponent]; exact ofNat_ne_neg_one (by omega)),
    if_neg (by rw [hexponent]; exact hzero)]
  refine finite_congr hsign (by rw [hfraction, hmantissa]) ?_
  rw [hexponent, hfield]
  change ((e + 1023 + 52).toNat : ℤ) - (1023 + 52) = e
  omega

/-! ### Positive results -/

section Positive

variable {m : ℕ} {e : ℤ}

/-- A significand of at least 53 bits is shifted until exactly these are left. -/
theorem log2_eq_add_shift (hm : 2 ^ 52 ≤ m) (he : -1074 ≤ e) : m.log2 = 52 + shift m e := by
  have hlog : 52 ≤ m.log2 := (Nat.le_log2 (by omega)).2 hm
  have hshift := shift_eq m e
  omega

theorem le_rounded (hm : 2 ^ 52 ≤ m) (he : -1074 ≤ e) : 2 ^ 52 ≤ rounded m e .exact := by
  obtain ⟨hdown, -⟩ :=
    rounded_bounds (ExtendedMantissa.ofMantissaAndAccuracy m .exact >>> shift m e)
  rw [mantissa_shiftRight, mantissa_ofMantissaAndAccuracy] at hdown
  refine le_trans ?_ hdown
  rw [Nat.le_div_iff_mul_le (Nat.two_pow_pos _), ← pow_add, ← log2_eq_add_shift hm he]
  exact Nat.log2_self_le (by omega)

theorem two_pow_shift_le (hm : 2 ^ 52 ≤ m) (he : -1074 ≤ e) : 2 ^ 52 * 2 ^ shift m e ≤ m := by
  rw [← pow_add, ← log2_eq_add_shift hm he]
  exact Nat.log2_self_le (by omega)

/-- Below the limit the exponent of a result is one of a double. -/
theorem exponent_le (hm : 2 ^ 52 ≤ m) (he : -1074 ≤ e) (hlimit : (m : ℚ) * 2 ^ e < limit) :
    e + shift m e ≤ 971 ∧ (rounded m e .exact = 2 ^ 53 → e + shift m e ≤ 970) := by
  have hpositive : (0 : ℚ) < 2 ^ (970 : ℤ) := zpow_pos two_pos _
  have htwice : (2 : ℚ) ^ (971 : ℤ) = 2 ^ (970 : ℤ) * 2 := zpow_add_one₀ two_ne_zero 970
  have hfour : (2 : ℚ) ^ (972 : ℤ) = 2 ^ (971 : ℤ) * 2 := zpow_add_one₀ two_ne_zero 971
  -- what the significand exceeds by a power of two lies below the limit
  have hscale (a : ℚ) (ha : a * 2 ^ shift m e ≤ m) : a * 2 ^ (e + shift m e) < limit := by
    rw [add_comm, zpow_add₀ two_ne_zero, zpow_natCast, ← mul_assoc]
    exact lt_of_le_of_lt (mul_le_mul_of_nonneg_right ha (zpow_pos two_pos e).le) hlimit
  rw [limit] at hscale
  generalize e + shift m e = k at hscale ⊢
  constructor
  · have hpow : (2 : ℚ) ^ 52 * 2 ^ shift m e ≤ m := by exact_mod_cast two_pow_shift_le hm he
    have hlt := hscale _ hpow
    by_contra hgt
    have hmore : (2 : ℚ) ^ (972 : ℤ) ≤ 2 ^ k := zpow_le_zpow_right₀ one_le_two (by omega)
    rw [hfour, htwice] at hmore
    generalize (2 : ℚ) ^ (970 : ℤ) = unit at hlt hmore hpositive
    linarith only [hlt, hmore, hpositive]
  · -- rounding up to one bit more needs at least the middle below `2 ^ 53`
    intro hrounded
    have hup := two_mul_rounded_le m (shift m e)
    rw [← rounded, hrounded] at hup
    have hmiddle : ((2 ^ 54 - 1) / 2 : ℚ) * 2 ^ shift m e ≤ m := by
      have hup : (2 : ℚ) * (2 ^ 53 * 2 ^ shift m e) ≤ 2 * m + 2 ^ shift m e := by exact_mod_cast hup
      linarith
    have hlt := hscale _ hmiddle
    by_contra hgt
    have hmore : (2 : ℚ) ^ (971 : ℤ) ≤ 2 ^ k := zpow_le_zpow_right₀ one_le_two (by omega)
    rw [htwice] at hmore
    generalize (2 : ℚ) ^ (970 : ℤ) = unit at hlt hmore hpositive
    linarith only [hlt, hmore, hpositive]

/-- A positive number below the limit is rounded to a double that exceeds it by a part `2 ^ (-53)`
at most. -/
theorem exists_normal_round (hm : 2 ^ 52 ≤ m) (he : -1074 ≤ e) (hlimit : (m : ℚ) * 2 ^ e < limit) :
    ∃ m' e', Normal (.ofModel (.pack (roundWithAccuracy .binary64 .positive m e .exact))) m' e' ∧
      m.log2 + e ≤ e' + 52 ∧ (m' : ℚ) * 2 ^ e' * 2 ^ 53 ≤ m * 2 ^ e * (2 ^ 53 + 1) := by
  obtain ⟨hmost, hmost'⟩ := exponent_le hm he hlimit
  have hlow := le_rounded hm he
  have hlog := log2_eq_add_shift hm he
  have hvalue : (rounded m e .exact : ℚ) * 2 ^ (e + shift m e) * 2 ^ 53 ≤
      m * 2 ^ e * (2 ^ 53 + 1) := by
    have hup := two_mul_rounded_le m (shift m e)
    have hunit := two_pow_shift_le hm he
    rw [← rounded] at hup
    have hnat : rounded m e .exact * 2 ^ shift m e * 2 ^ 53 ≤ m * (2 ^ 53 + 1) := by
      generalize rounded m e .exact * 2 ^ shift m e = r at hup ⊢
      generalize 2 ^ shift m e = unit at hup hunit
      omega
    have hrat : (rounded m e .exact : ℚ) * 2 ^ shift m e * 2 ^ 53 ≤ m * (2 ^ 53 + 1) := by
      exact_mod_cast hnat
    rw [zpow_add₀ two_ne_zero, zpow_natCast]
    have hscaled := mul_le_mul_of_nonneg_right hrat (zpow_pos (two_pos : (0 : ℚ) < 2) e).le
    linarith
  rcases exists_rounded .positive m e .exact with ⟨hzero, -⟩ | ⟨hpos, hhigh, hround⟩ |
    ⟨hpos, hmax, hround⟩
  · omega
  · rw [hround]
    exact ⟨_, _, normal_pack hlow hhigh (by omega) hmost hpos, by omega, hvalue⟩
  · rw [hround]
    refine ⟨_, _, normal_pack le_rfl (by decide) (by omega) (by have := hmost' hmax; omega)
      hpos, by omega, ?_⟩
    rw [hmax] at hvalue
    rw [zpow_add_one₀ two_ne_zero]
    push_cast at hvalue ⊢
    linarith

end Positive

/-! ### Operations -/

theorem log2_shiftLeft {n : ℕ} (hn : n ≠ 0) (k : ℕ) : (n <<< k).log2 = n.log2 + k := by
  induction k with
  | zero => rfl
  | succ k ih =>
      have hne : n <<< k ≠ 0 := by
        rw [Nat.shiftLeft_eq]
        positivity
      rw [Nat.shiftLeft_succ, Nat.log2_two_mul hne, ih, Nat.add_assoc]

theorem exists_normal_toFloat {n : UInt64} (hn : 0 < n.toNat) :
    ∃ m e, Normal n.toFloat m e ∧ -52 ≤ e ∧ (m : ℚ) * 2 ^ e * 2 ^ 53 ≤ n.toNat * (2 ^ 53 + 1) := by
  have hlt : n.toNat < 2 ^ 64 := n.toNat_lt
  have hlog : n.toNat.log2 < 64 := (Nat.log2_lt hn.ne').2 hlt
  -- the number is shifted to the left until it has 53 bits
  have htarget : (0 - Format.binary64.targetExponent (totalExponent n.toNat 0)).toNat =
      52 - n.toNat.log2 := by
    change (0 - max ((n.toNat.log2 : ℤ) + 1 + 0 - 53) (-1074)).toNat = _
    omega
  have hround : n.toFloat = .ofModel (.pack (roundWithAccuracy .binary64 .positive
      (n.toNat <<< (52 - n.toNat.log2)) (0 - (52 - n.toNat.log2 : ℕ)) .exact)) := by
    have hnormalize : n.toFloat = .ofModel (.pack (UnpackedFloat.normalize .binary64 n.toNat 0
      .positive)) := rfl
    rw [hnormalize, UnpackedFloat.normalize, Int.compare_eq_gt.2 (by omega), ← htarget]
    rfl
  have hshifted := log2_shiftLeft hn.ne' (52 - n.toNat.log2)
  have hlow : 2 ^ 52 ≤ n.toNat <<< (52 - n.toNat.log2) :=
    (Nat.le_log2 (Nat.shiftLeft_pos_iff.2 hn).ne').1 (by omega)
  have hvalue : ((n.toNat <<< (52 - n.toNat.log2) : ℕ) : ℚ) *
      2 ^ ((0 : ℤ) - (52 - n.toNat.log2 : ℕ)) = n.toNat := by
    rw [Nat.shiftLeft_eq, zero_sub, zpow_neg, zpow_natCast]
    push_cast
    exact mul_inv_cancel_right₀ (by positivity) _
  have hlimit : (n.toNat : ℚ) < limit := lt_limit (by exact_mod_cast hlt)
  obtain ⟨m, e, hnormal, hleast, hbound⟩ := exists_normal_round hlow (by omega) (hvalue ▸ hlimit)
  rw [hvalue] at hbound
  rw [hround]
  exact ⟨m, e, hnormal, by omega, hbound⟩

theorem isFinite_pack_zero (s : Sign) :
    (unpack .binary64 (pack .binary64 (.zero s))).isFinite = true := by
  cases s with
  | _ => rfl

/-- A rounded number is finite if the exponent of its significand is not too large. -/
theorem isFinite_roundWithAccuracy {s : Sign} {m : ℕ} {e : ℤ} {a : Accuracy}
    (he : e + shift m e ≤ 971) (hcarry : rounded m e a = 2 ^ 53 → e + shift m e ≤ 970) :
    (unpack .binary64 (pack .binary64 (roundWithAccuracy .binary64 s m e a))).isFinite = true := by
  rcases exists_rounded s m e a with ⟨-, hround⟩ | ⟨hpos, -, hround⟩ | ⟨hpos, hmax, hround⟩
  · rw [hround]
    exact isFinite_pack_zero s
  · have hpack := pack_finite s (rounded m e a) (e + shift m e) hpos
    rw [if_pos he] at hpack
    rw [hround, hpack]
  · have hpack := pack_finite s (2 ^ 52) (e + shift m e + 1) hpos
    rw [if_pos (by have := hcarry hmax; omega)] at hpack
    rw [hround, hpack]

/-- A product below the limit is finite. -/
theorem isFinite_mul {x y : Float} {m n : ℕ} {e f : ℤ} (hx : Normal x m e) (hy : Normal y n f)
    (hleast : -1074 ≤ e + f) (hlimit : (m : ℚ) * 2 ^ e * (n * 2 ^ f) < limit) :
    (x * y).isFinite = true := by
  obtain ⟨hm, hx'⟩ := hx.unpack
  obtain ⟨hn, hy'⟩ := hy.unpack
  have hlow : 2 ^ 52 ≤ m * n := le_trans hx.low (Nat.le_mul_of_pos_right m hn)
  have hvalue : ((m * n : ℕ) : ℚ) * 2 ^ (e + f) < limit := by
    rw [zpow_add₀ two_ne_zero, Nat.cast_mul, mul_mul_mul_comm]
    exact hlimit
  obtain ⟨hmost, hcarry⟩ := exponent_le hlow hleast hvalue
  have hproduct : (x * y).isFinite = (unpack .binary64 (pack .binary64
      (UnpackedFloat.mul .binary64 x.toModel.unpack y.toModel.unpack))).isFinite := rfl
  rw [hproduct, hx', hy']
  exact isFinite_roundWithAccuracy hmost hcarry

/-- A finite double is a zero or has a significand of 53 bits at most. -/
theorem unpack_of_isFinite {x : Float} (hx : x.isFinite = true) :
    (∃ s, x.toModel.unpack = .zero s) ∨
    ∃ s m e hpos, x.toModel.unpack = .finite s m e hpos ∧ m < 2 ^ 53 ∧ e ≤ 971 := by
  rw [isFinite_iff, ← toNat_unpackExponent] at hx
  have hones : (-1#11 : BitVec 11).toNat = 2047 := rfl
  have hunpack : x.toModel.unpack = unpack .binary64 x.toModel.toBits.toBitVec := rfl
  have hfield : (@unpackExponent .binary64 x.toModel.toBits.toBitVec).toNat < 2 ^ 11 :=
    BitVec.isLt _
  have hfraction : (@unpackMantissa .binary64 x.toModel.toBits.toBitVec).toNat < 2 ^ 52 :=
    BitVec.isLt _
  rw [hunpack]
  unfold UnpackedFloat.unpack
  rw [if_neg (fun heq => hx (by rw [heq, hones]))]
  by_cases hzero : @unpackExponent .binary64 x.toModel.toBits.toBitVec = 0#11
  · rw [if_pos hzero]
    by_cases hnone : @unpackMantissa .binary64 x.toModel.toBits.toBitVec = 0#52
    · exact Or.inl ⟨_, dif_pos hnone⟩
    · refine Or.inr ⟨_, _, _, Nat.pos_of_ne_zero fun h => hnone (BitVec.eq_of_toNat_eq h),
        dif_neg hnone, by omega, ?_⟩
      rw [hzero]
      decide
  · rw [if_neg hzero]
    have hmantissa := toNat_one_append (@unpackMantissa .binary64 x.toModel.toBits.toBitVec)
    refine Or.inr ⟨_, _, _, Nat.lt_of_lt_of_eq (by omega) hmantissa.symm, rfl, by omega, ?_⟩
    change ((@unpackExponent .binary64 x.toModel.toBits.toBitVec).toNat : ℤ) - (1023 + 52) ≤ 971
    omega

/-- A rounded number is finite or an infinity. -/
theorem isFinite_roundWithAccuracy_of_isInf {s : Sign} {m : ℕ} {e : ℤ} {a : Accuracy}
    (h : (unpack .binary64 (pack .binary64 (roundWithAccuracy .binary64 s m e a))).isInf = false) :
    (unpack .binary64 (pack .binary64 (roundWithAccuracy .binary64 s m e a))).isFinite = true := by
  have hpacked {m : ℕ} {e : ℤ} (hpos : 0 < m)
      (h : (unpack .binary64 (pack .binary64 (.finite s m e hpos))).isInf = false) :
      (unpack .binary64 (pack .binary64 (.finite s m e hpos))).isFinite = true := by
    have hpack := pack_finite s m e hpos
    by_cases he : e ≤ 971
    · rwa [if_pos he] at hpack
    · rw [if_neg he] at hpack
      rw [hpack] at h
      cases h
  rcases exists_rounded s m e a with ⟨-, hround⟩ | ⟨hpos, -, hround⟩ | ⟨hpos, -, hround⟩
  · rw [hround]
    exact isFinite_pack_zero s
  · rw [hround] at h ⊢
    exact hpacked hpos h
  · rw [hround] at h ⊢
    exact hpacked hpos h

theorem isInf_of_isFinite {x : Float} (hx : x.isFinite = true) : x.isInf = false := by
  change x.toModel.unpack.isInf = false
  rcases unpack_of_isFinite hx with ⟨s, hx⟩ | ⟨s, m, e, hm, hx, -⟩
  · rw [hx]
    rfl
  · rw [hx]
    rfl

theorem isFinite_zero_mul {y : Float} {m : ℕ} {e : ℤ} (hy : Normal y m e) :
    ((0 : UInt64).toFloat * y).isFinite = true := by
  obtain ⟨hm, hy'⟩ := hy.unpack
  have hzero : (0 : UInt64).toFloat.toModel.unpack = .zero .positive := rfl
  change (unpack .binary64 (pack .binary64 (UnpackedFloat.mul .binary64
    (0 : UInt64).toFloat.toModel.unpack y.toModel.unpack))).isFinite = true
  rw [hzero, hy']
  exact isFinite_pack_zero _

/-- A product of finite doubles is finite or an infinity. -/
theorem isFinite_mul_of_isInf {x y : Float} (hx : x.isFinite = true) (hy : y.isFinite = true)
    (h : (x * y).isInf = false) : (x * y).isFinite = true := by
  change (unpack .binary64 (pack .binary64
    (UnpackedFloat.mul .binary64 x.toModel.unpack y.toModel.unpack))).isInf = false at h
  change (unpack .binary64 (pack .binary64
    (UnpackedFloat.mul .binary64 x.toModel.unpack y.toModel.unpack))).isFinite = true
  rcases unpack_of_isFinite hx with ⟨s, hx⟩ | ⟨s, m, e, hm, hx, -⟩
  · rcases unpack_of_isFinite hy with ⟨t, hy⟩ | ⟨t, n, f, hn, hy, -⟩
    · rw [hx, hy]
      exact isFinite_pack_zero _
    · rw [hx, hy]
      exact isFinite_pack_zero _
  · rcases unpack_of_isFinite hy with ⟨t, hy⟩ | ⟨t, n, f, hn, hy, -⟩
    · rw [hx, hy]
      exact isFinite_pack_zero _
    · rw [hx, hy] at h ⊢
      exact isFinite_roundWithAccuracy_of_isInf h

theorem log2_div_le (m : ℕ) {n : ℕ} (hn : 0 < n) : (m / n).log2 + n.log2 ≤ max m.log2 n.log2 := by
  rcases Nat.eq_zero_or_pos (m / n) with hzero | hpos
  · rw [hzero, Nat.log2_zero, Nat.zero_add]
    exact Nat.le_max_right _ _
  · have hle : 2 ^ ((m / n).log2 + n.log2) ≤ m := by
      calc 2 ^ ((m / n).log2 + n.log2) = 2 ^ (m / n).log2 * 2 ^ n.log2 := pow_add _ _ _
        _ ≤ m / n * n := Nat.mul_le_mul (Nat.log2_self_le hpos.ne') (Nat.log2_self_le hn.ne')
        _ ≤ m := Nat.div_mul_le_self m n
    have hm : m ≠ 0 := (Nat.lt_of_lt_of_le (Nat.two_pow_pos _) hle).ne'
    exact le_trans ((Nat.le_log2 hm).2 hle) (Nat.le_max_left _ _)

/-- A finite double divided by a number that is not small is finite. -/
theorem isFinite_div {x y : Float} (hx : x.isFinite = true) {n : ℕ} {f : ℤ} (hy : Normal y n f)
    (hf : -51 ≤ f) :
    (x / y).isFinite = true := by
  obtain ⟨hn, hy'⟩ := hy.unpack
  have hquotient : (x / y).isFinite = (unpack .binary64 (pack .binary64
      (UnpackedFloat.div .binary64 x.toModel.unpack y.toModel.unpack))).isFinite := rfl
  rw [hquotient, hy']
  rcases unpack_of_isFinite hx with ⟨s, hx⟩ | ⟨s, m, e, hm, hx, hbits, hmost⟩
  · rw [hx]
    exact isFinite_pack_zero _
  · rw [hx]
    have hlogm : m.log2 < 53 := (Nat.log2_lt hm.ne').2 hbits
    have hlogn : n.log2 = 52 := (Nat.log2_eq_iff hn.ne').2 ⟨hy.low, hy.high⟩
    -- the quotient is that of shifted significands
    obtain ⟨t, ht⟩ : ∃ t, t = min (e - f)
        (Format.binary64.targetExponent (totalExponent m e - totalExponent n f)) := ⟨_, rfl⟩
    have ht' : t = min (e - f)
        (max (((m.log2 : ℤ) + 1 + e) - ((n.log2 : ℤ) + 1 + f) - 53) (-1074)) := ht
    have hcore : divCore .binary64 m e n f = ((m <<< (e - f - t).toNat) / n, t,
        accuracyOfFraction ((m <<< (e - f - t).toNat) % n) n) := by rw [ht]; rfl
    have hdiv : UnpackedFloat.div .binary64 (.finite s m e hm) (.finite .positive n f hn) =
        roundWithAccuracy .binary64 (s / .positive) ((m <<< (e - f - t).toNat) / n) t
          (accuracyOfFraction ((m <<< (e - f - t).toNat) % n) n) := by
      change roundWithAccuracy .binary64 _ (divCore .binary64 m e n f).1
        (divCore .binary64 m e n f).2.1
        (divCore .binary64 m e n f).2.2 = _
      rw [hcore]
    have hlog := log2_div_le (m <<< (e - f - t).toNat) hn
    rw [log2_shiftLeft hm.ne'] at hlog
    rw [hdiv]
    have hshift := shift_eq ((m <<< (e - f - t).toNat) / n) t
    exact isFinite_roundWithAccuracy (by omega) (fun _ => by omega)

theorem isFinite_neg {x : Float} (hx : x.isFinite = true) : (-x).isFinite = true := by
  have hneg : (-x).isFinite = (unpack .binary64 (pack .binary64 x.toModel.unpack.neg)).isFinite :=
    rfl
  rw [hneg]
  rcases unpack_of_isFinite hx with ⟨s, hx⟩ | ⟨s, m, e, hm, hx, -, hmost⟩
  · rw [hx]
    exact isFinite_pack_zero _
  · have hpack := pack_finite (-s) m e hm
    rw [if_pos hmost] at hpack
    rw [hx]
    exact hpack

end Double

end PureGauge
