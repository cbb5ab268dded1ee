/-
**The literal of a double is within the range of doubles.**

A literal is read by rounding its digits to a double and multiplying or dividing by a power of ten,
so its value need not be the double that it was written for.  But it has one: the digits exceed the
double by half a unit at most, each of the two roundings before the product adds a part `2 ^ (-53)`,
and this leads out of the range of doubles from none but the two largest doubles, whose literals are
read without it.  The values of literals are finite, so that they have a literal again.

Main definitions:

* `PureGauge.Double.reread?` — the double that the literal of a double stands for.

Main results:

* `PureGauge.NumberLiteral.exists_normal_tenTo` — powers of ten as doubles;
* `PureGauge.NumberLiteral.isFinite_double?` — the values of literals are finite;
* `PureGauge.Double.exists_reread?` — the literal of every finite double has a value.
-/
import PureGauge.Proofs.Decimal.Rounding
import PureGauge.Proofs.Decimal.Magnitude
import PureGauge.Proofs.Json.Literals

namespace PureGauge

open Double (Normal limit)

namespace NumberLiteral

/-! ### Powers of ten -/

section Powers

open Float.Model Float.Model.UnpackedFloat

/-- Whether a power of ten is exceeded by its double by a part `2 ^ (-53)` at most. -/
def Close (k : ℕ) : Prop :=
  match (tenTo k).toModel.unpack with
  | .finite .positive m e _ => 2 ^ 52 ≤ m ∧ m < 2 ^ 53 ∧ -51 ≤ e ∧
      m * 2 ^ e.toNat * 2 ^ 53 ≤ 10 ^ k * (2 ^ 53 + 1) * 2 ^ (-e).toNat
  | _ => False

instance (k : ℕ) : Decidable (Close k) := by
  unfold Close
  split
  · infer_instance
  · infer_instance

/-- The powers of ten that are exact. -/
theorem close_small : ∀ k ≤ 22, 0 < k → Close k := by decide +kernel

theorem exists_normal_of_close {k : ℕ} (h : Close k) :
    ∃ m e, Normal (tenTo k) m e ∧ -51 ≤ e ∧ (m : ℚ) * 2 ^ e * 2 ^ 53 ≤ 10 ^ k * (2 ^ 53 + 1) := by
  unfold Close at h
  split at h
  case h_1 m e hpos hunpack =>
    obtain ⟨hlow, hhigh, hleast, hbound⟩ := h
    refine ⟨m, e, ⟨⟨hpos, hunpack⟩, hlow, hhigh⟩, hleast, ?_⟩
    have hbound : (m : ℚ) * 2 ^ e.toNat * 2 ^ 53 ≤ 10 ^ k * (2 ^ 53 + 1) * 2 ^ (-e).toNat := by
      exact_mod_cast hbound
    have hpower : (2 : ℚ) ^ e.toNat = 2 ^ e * 2 ^ (-e).toNat := by
      rw [← zpow_natCast, ← zpow_natCast, ← zpow_add₀ two_ne_zero]
      congr 1
      omega
    rw [hpower] at hbound
    refine le_of_mul_le_mul_right ?_ (show (0 : ℚ) < 2 ^ (-e).toNat by positivity)
    linarith only [hbound]
  case h_2 => exact h.elim

/-- A power of ten is exceeded by its double by a part `2 ^ (-53)` at most. -/
theorem exists_normal_tenTo {k : ℕ} (hpos : 0 < k) (hk : k ≤ 308) :
    ∃ m e, Normal (tenTo k) m e ∧ -51 ≤ e ∧ (m : ℚ) * 2 ^ e * 2 ^ 53 ≤ 10 ^ k * (2 ^ 53 + 1) := by
  rcases Nat.lt_or_ge 22 k with hlarge | hsmall
  · -- the larger ones are rounded once
    have hround : UnpackedFloat.ofScientific .binary64 1 k =
        roundWithAccuracy .binary64 .positive ((1 <<< 53) * 10 ^ k) (-53 + 0) .exact := by
      unfold UnpackedFloat.ofScientific
      rw [dif_neg (by decide), if_neg (show ¬ (k : ℤ) > 2 ^ 11 by omega),
        if_neg (show ¬ (k : ℤ) < -(2 ^ 11 + Nat.log2 1 : ℤ) by omega), if_pos (by omega)]
      rfl
    have htenTo : tenTo k =
        .ofModel (.pack (roundWithAccuracy .binary64 .positive ((1 <<< 53) * 10 ^ k) (-53 + 0)
        .exact)) := by
      rw [← hround, tenTo, Float.ofScientific, dif_neg (by omega)]
      rfl
    have hsignificand : 2 ^ 53 * 8 ≤ (1 <<< 53) * 10 ^ k := by
      have hten : 10 ^ 1 ≤ 10 ^ k := Nat.pow_le_pow_right (by decide) hpos
      omega
    have hlog : 56 ≤ ((1 <<< 53) * 10 ^ k).log2 := (Nat.le_log2 (by positivity)).2 hsignificand
    have hvalue : (((1 <<< 53) * 10 ^ k : ℕ) : ℚ) * 2 ^ (-53 + 0 : ℤ) = 10 ^ k := by
      rw [Nat.shiftLeft_eq, Nat.one_mul, Nat.cast_mul, mul_comm, ← mul_assoc]
      norm_num
    have hlimit : (10 : ℚ) ^ k < limit :=
      lt_of_le_of_lt (pow_le_pow_right₀ (by norm_num) hk) Double.pow_lt_limit
    obtain ⟨m, e, hnormal, hleast, hbound⟩ :=
      Double.exists_normal_round (by omega) (by decide) (hvalue ▸ hlimit)
    rw [hvalue] at hbound
    rw [htenTo]
    exact ⟨m, e, hnormal, by omega, hbound⟩
  · exact exists_normal_of_close (close_small k hsmall hpos)

end Powers

/-! ### Values -/

theorem isFinite_toFloat (n : UInt64) : n.toFloat.isFinite = true := by
  rcases Nat.eq_zero_or_pos n.toNat with hzero | hpos
  · obtain rfl : n = 0 := UInt64.toNat_inj.1 hzero
    decide
  · obtain ⟨m, e, hnormal, -⟩ := Double.exists_normal_toFloat hpos
    exact hnormal.isFinite

/-- A finite double that is scaled by a power of ten stays finite. -/
theorem isFinite_scaled? {x y : Float} {e : ℤ} (hx : x.isFinite = true) (h : scaled? x e = some y) :
    y.isFinite = true := by
  have hquotient {x : Float} (hx : x.isFinite = true) {k : ℕ} (hpos : 0 < k) (hk : k ≤ 308) :
      (x / tenTo k).isFinite = true := by
    obtain ⟨m, f, hnormal, hleast, -⟩ := exists_normal_tenTo hpos hk
    exact Double.isFinite_div hx hnormal hleast
  unfold scaled? at h
  split at h
  · cases h
    exact hx
  split at h
  · split at h
    · cases h
      exact hx
    · cases h
  split at h
  · -- the product is refused if it is an infinity
    simp only at h
    split at h
    case isTrue => cases h
    case isFalse hinfinite =>
      obtain ⟨m, f, hnormal, -⟩ := exists_normal_tenTo (k := e.toNat) (by omega) (by omega)
      cases h
      exact Double.isFinite_mul_of_isInf hx hnormal.isFinite
        (Bool.eq_false_of_not_eq_true hinfinite)
  split at h
  · cases h
    exact hquotient hx (by omega) (by omega)
  split at h
  · cases h
    exact hquotient (hquotient hx (by decide) le_rfl) (by omega) (by omega)
  · cases h
    decide

/-- The value of a literal is finite. -/
theorem isFinite_double? {l : NumberLiteral} {x : Float} (h : l.double? = some x) :
    x.isFinite = true := by
  unfold double? at h
  simp only [Option.map_eq_some_iff] at h
  obtain ⟨y, hy, rfl⟩ := h
  have hfinite := isFinite_scaled? (isFinite_toFloat _) hy
  split
  · exact Double.isFinite_neg hfinite
  · exact hfinite

/-! ### Literals of doubles -/

/-- The middle between the second and the third largest double. -/
def bound : ℚ := (2 ^ 54 - 5) * 2 ^ (970 : ℤ)

theorem bound_lt_limit : bound < limit := by
  have hunit : (0 : ℚ) < 2 ^ (970 : ℤ) := zpow_pos two_pos _
  rw [bound, limit]
  generalize (2 : ℚ) ^ (970 : ℤ) = unit at hunit ⊢
  linarith only [hunit]

/-- Both roundings before a product do not lead from the bound to the limit. -/
theorem mul_lt_limit {x y n t : ℚ} (hy : 0 ≤ y) (hn : 0 ≤ n) (hx : x * 2 ^ 53 ≤ n * (2 ^ 53 + 1))
    (ht : y * 2 ^ 53 ≤ t * (2 ^ 53 + 1)) (hbound : n * t ≤ bound) : x * y < limit := by
  have hunit : (0 : ℚ) < 2 ^ (970 : ℤ) := zpow_pos two_pos _
  rw [bound] at hbound
  rw [limit]
  generalize (2 : ℚ) ^ (970 : ℤ) = unit at hunit hbound ⊢
  refine lt_of_mul_lt_mul_right ?_ (show (0 : ℚ) ≤ 2 ^ 53 * 2 ^ 53 by norm_num)
  calc x * y * (2 ^ 53 * 2 ^ 53) = x * 2 ^ 53 * (y * 2 ^ 53) := by ring
    _ ≤ n * (2 ^ 53 + 1) * (t * (2 ^ 53 + 1)) := mul_le_mul hx ht (by positivity) (by positivity)
    _ = n * t * ((2 ^ 53 + 1) * (2 ^ 53 + 1)) := by ring
    _ ≤ (2 ^ 54 - 5) * unit * ((2 ^ 53 + 1) * (2 ^ 53 + 1)) :=
      mul_le_mul_of_nonneg_right hbound (by norm_num)
    _ < (2 ^ 54 - 1) * unit * (2 ^ 53 * 2 ^ 53) := by linarith only [hunit]

/-- A word that is scaled by a power of ten is within the range of doubles if the exact number is
within the bound. -/
theorem isSome_scaled? {n : UInt64} {e : ℤ} (h : (n.toNat : ℚ) * 10 ^ e ≤ bound) :
    (scaled? n.toFloat e).isSome = true := by
  rcases le_or_gt e 0 with he | he
  · exact isSome_scaled?_of_nonpos _ he
  obtain ⟨k, rfl⟩ := Int.eq_ofNat_of_zero_le he.le
  rw [zpow_natCast] at h
  have hproduct (hk : k ≤ 308) (hfinite : (n.toFloat * tenTo k).isFinite = true) :
      (scaled? n.toFloat k).isSome = true := by
    unfold scaled?
    rw [if_neg (by omega), if_neg (by omega), if_pos (by omega)]
    simp only [Int.toNat_natCast, Double.isInf_of_isFinite hfinite]
    rfl
  rcases Nat.eq_zero_or_pos n.toNat with hzero | hpos
  · obtain rfl : n = 0 := UInt64.toNat_inj.1 hzero
    rcases Nat.lt_or_ge 308 k with hlarge | hk
    · have hequal : ((0 : UInt64).toFloat == 0) = true := by decide
      unfold scaled?
      rw [if_neg (by omega), if_pos (by omega), if_pos hequal]
      rfl
    · obtain ⟨m, e, ht, -⟩ := exists_normal_tenTo (by omega) hk
      exact hproduct hk (Double.isFinite_zero_mul ht)
  · have hk : k ≤ 308 := by
      by_contra hlarge
      have hone : (1 : ℚ) ≤ n.toNat := by exact_mod_cast hpos
      have hpow : (10 : ℚ) ^ 309 ≤ 10 ^ k := pow_le_pow_right₀ (by norm_num) (by omega)
      have hle : (10 : ℚ) ^ k ≤ n.toNat * 10 ^ k :=
        le_mul_of_one_le_left (show (0 : ℚ) ≤ 10 ^ k by positivity) hone
      exact absurd (hpow.trans (hle.trans (h.trans bound_lt_limit.le)))
        (not_le.2 Double.limit_lt_pow)
    obtain ⟨m, e, hn, hleast, hm⟩ := Double.exists_normal_toFloat hpos
    obtain ⟨m', e', ht, hleast', hm'⟩ := exists_normal_tenTo (by omega) hk
    have hlimit :=
      mul_lt_limit (mul_nonneg (Nat.cast_nonneg m') (zpow_pos two_pos e').le)
        (Nat.cast_nonneg _) hm hm' h
    exact hproduct hk (Double.isFinite_mul hn ht (by omega) hlimit)

/-- A finite double is given by 53 bits and an exponent that is not too large. -/
theorem ofFloat_bounds {x : Float} {negative : Bool} {s : ℕ} {power : ℤ}
    (h : Double.ofFloat x = .finite negative s power) : s < 2 ^ 53 ∧ power ≤ 971 := by
  have hhidden : Double.hiddenBit = 2 ^ 52 := rfl
  have hfraction : x.toBits.toNat % 2 ^ 52 < 2 ^ 52 := Nat.mod_lt _ (by decide)
  have hfield : (x.toBits.toNat >>> 52) % 2048 < 2048 := Nat.mod_lt _ (by decide)
  unfold Double.ofFloat Double.ofBits at h
  simp only [hhidden] at h
  split at h
  · split at h
    · cases h
    · cases h
  split at h
  · cases h
    omega
  · cases h
    omega

/-- Below the second largest double even half a unit more is within the bound. -/
theorem le_bound {s : ℕ} {power : ℤ} (hs : s < 2 ^ 53) (hpower : power ≤ 971)
    (hlargest : ¬ (power = 971 ∧ 2 ^ 53 - 2 ≤ s)) :
    (4 * (s : ℚ) + 2) * 2 ^ (power - 2) ≤ bound := by
  have hunit : (0 : ℚ) < 2 ^ (968 : ℤ) := zpow_pos two_pos _
  have htwice : (2 : ℚ) ^ (969 : ℤ) = 2 ^ (968 : ℤ) * 2 := zpow_add_one₀ two_ne_zero 968
  have hfour : (2 : ℚ) ^ (970 : ℤ) = 2 ^ (969 : ℤ) * 2 := zpow_add_one₀ two_ne_zero 969
  rw [bound, hfour, htwice]
  rcases eq_or_lt_of_le hpower with rfl | hlt
  · have hs : (s : ℚ) ≤ 2 ^ 53 - 3 := by
      have hle : s + 3 ≤ 2 ^ 53 := by omega
      have hcast : (s : ℚ) + 3 ≤ 2 ^ 53 := by exact_mod_cast hle
      linarith only [hcast]
    rw [show (971 - 2 : ℤ) = 969 by norm_num, htwice]
    generalize (2 : ℚ) ^ (968 : ℤ) = unit at hunit ⊢
    nlinarith only [hs, hunit]
  · have hs : (s : ℚ) ≤ 2 ^ 53 := by exact_mod_cast hs.le
    have hpow : (2 : ℚ) ^ (power - 2) ≤ 2 ^ (968 : ℤ) := zpow_le_zpow_right₀ one_le_two (by omega)
    calc (4 * (s : ℚ) + 2) * 2 ^ (power - 2) ≤ (4 * 2 ^ 53 + 2) * 2 ^ (968 : ℤ) :=
        mul_le_mul (by linarith only [hs]) hpow (zpow_pos two_pos _).le (by norm_num)
      _ ≤ (2 ^ 54 - 5) * (2 ^ (968 : ℤ) * 2 * 2) := by
        generalize (2 : ℚ) ^ (968 : ℤ) = unit at hunit ⊢
        linarith only [hunit]

/-- Digits with an exponent have a value if the number that they stand for is within the bound. -/
theorem isSome_double?_of_digits {d : Digits} (hd : d.Proper) (hbound : d.value ≤ bound)
    (hsize : digitsValue d.digits < UInt64.size) (negative : Bool) :
    (NumberLiteral.mk negative (d.digits.take 1) (d.digits.drop 1)
      (some d.exponent)).double?.isSome = true := by
  obtain ⟨c, cs, hdigits⟩ : ∃ c cs, d.digits = c :: cs := by
    rcases hd.leading with rfl | ⟨c, cs, hdigits, -⟩
    · exact ⟨'0', [], rfl⟩
    · exact ⟨c, cs, hdigits⟩
  have hwhole : digitsValue [c] < UInt64.size :=
    (digitsValue_lt [c]).trans (show 10 ^ 1 < UInt64.size by decide)
  rw [hdigits] at hsize
  have hextend : extend (digitsValue [c]) cs = (digitsValue (c :: cs), []) := extend_eq hsize
  have hword : (UInt64.ofNat (digitsValue (c :: cs))).toNat = digitsValue (c :: cs) := by
    rw [UInt64.toNat_ofNat', Nat.mod_eq_of_lt hsize]
  have hvalue : d.value = digitsValue (c :: cs) * 10 ^ (d.exponent - cs.length) := by
    rw [Digits.value, hdigits, List.length_cons, Nat.cast_succ, add_sub_cancel_right]
  rw [hdigits, List.take_succ_cons, List.take_zero, List.drop_succ_cons, List.drop_zero,
    double?_eq hwhole, Option.isSome_map]
  simp only [hextend, List.length_nil, Nat.sub_zero, Option.getD_some]
  exact isSome_scaled? (by rw [hword, ← hvalue]; exact hbound)

/-- There are no more digits before the point than the exponent tells. -/
theorem length_positional_le {d : Digits} (h : d.exponent < 16) :
    (Layout.positional d).1.length ≤ 16 := by
  unfold Layout.positional
  split
  · exact Nat.le_add_left 1 15
  · simp only [List.length_append, List.length_take, List.length_replicate]
    omega

/-- The literal of a double has a value. -/
theorem isSome_double?_of_ofDouble? {x : Float} {l : NumberLiteral} (h : ofDouble? x = some l) :
    l.double?.isSome = true := by
  unfold ofDouble? at h
  split at h
  case h_1 negative s power hx =>
    obtain ⟨hs, hpower⟩ := ofFloat_bounds hx
    have hproper := Digits.proper_shortest layout.tie s power
    simp only at h
    split at h
    case isTrue hexponent =>
      cases h
      by_cases hlargest : power = 971 ∧ 2 ^ 53 - 2 ≤ s
      · obtain ⟨rfl, hlow⟩ := hlargest
        obtain rfl | rfl : s = 2 ^ 53 - 2 ∨ s = 2 ^ 53 - 1 := by omega
        · cases negative <;> decide +kernel
        · cases negative <;> decide +kernel
      · obtain ⟨hvalue, hsize⟩ := Digits.shortest_bounds layout.tie s power
        exact isSome_double?_of_digits hproper
          (hvalue.trans (le_bound hs hpower hlargest)) hsize negative
    case isFalse hexponent =>
      cases h
      have hlt : (Digits.shortest layout.tie s power).exponent < 16 := by
        simp only [Layout.usesExponent, layout, Bool.or_eq_true, not_or] at hexponent
        exact lt_of_not_ge fun hge => hexponent.2 (decide_eq_true hge)
      have hlength := length_positional_le hlt
      exact isSome_double?_of_exponent rfl ((digitsValue_lt _).trans_le
        ((Nat.pow_le_pow_right (by decide) hlength).trans (by decide)))
  case h_2 => cases h

end NumberLiteral

/-- The double that the literal of a double stands for. -/
def Double.reread? (x : Float) : Option Float :=
  (NumberLiteral.ofDouble? x).bind NumberLiteral.double?

/-- The literal of a finite double stands for a finite double, though not always for the same
one. -/
theorem Double.exists_reread? {x : Float} (hx : x.isFinite = true) :
    ∃ y, reread? x = some y ∧ y.isFinite = true := by
  obtain ⟨l, hl⟩ := Option.isSome_iff_exists.1 ((NumberLiteral.isSome_ofDouble? x).2 hx)
  obtain ⟨y, hy⟩ := Option.isSome_iff_exists.1 (NumberLiteral.isSome_double?_of_ofDouble? hl)
  exact ⟨y, by rw [reread?, hl, Option.bind_some, hy], NumberLiteral.isFinite_double? hy⟩

end PureGauge
