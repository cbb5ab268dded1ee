/-
**How large a lattice can be numbered.**

The numbers of points and links are computed by checked arithmetic on words, on lattices of any size
that is a word.  A number is the exact one wherever it is found, and it is found exactly when it is
a word and the coordinates can be wrapped.  So all points have numbers up to a size of `2 ^ 16`, and
all links up to the greatest size for which four times its fourth power is a word.

A coordinate is wrapped by the size as a signed word.  From `2 ^ 63` on that word is negative, and
what counts is its distance to zero; the size `2 ^ 64 - 1` is minus one, by which the least signed
word cannot be divided.

Main definitions:

* `PureGauge.Lattice.modulus`, `PureGauge.Lattice.wrapped` — the number by which coordinates are
  wrapped, and a wrapped coordinate;
* `PureGauge.Lattice.Wraps` — coordinates that can be wrapped;
* `PureGauge.Lattice.value` — the wrapped coordinates, read as digits.

Main results:

* `PureGauge.Lattice.pointIndex_eq_value_iff` — when a point has a number, and which;
* `PureGauge.Lattice.exists_unnumbered` — beyond `2 ^ 16` there is a point without a number;
* `PureGauge.Lattice.exact_limits` — the greatest sizes.
-/
import PureGauge.Proofs.Lattice.Congruence

namespace PureGauge

namespace Lattice

/-! ### Wrapping -/

/-- The number by which coordinates are wrapped: the size, or its distance to `2 ^ 64` if it is not
a signed word. -/
def modulus (l : Lattice) : ℕ := if l.dim.toNat < 2 ^ 63 then l.dim.toNat else 2 ^ 64 - l.dim.toNat

/-- A coordinate wrapped into `[0, modulus)`. -/
def wrapped (l : Lattice) (c : ℤ) : ℕ := (c % l.modulus).toNat

/-- A coordinate can be wrapped unless it is the least signed word and the size is minus one. -/
def Wraps (l : Lattice) (c : Int64) : Prop := ¬ (l.dim.toInt64 = -1 ∧ c = Int64.minValue)

/-- The wrapped coordinates of a point, read as digits in base `dim`. -/
def value (l : Lattice) (p : Point) : ℕ :=
  ∑ μ : Fin 4, l.wrapped (p.ints μ) * l.dim.toNat ^ (3 - μ.val)

variable {l : Lattice}

theorem toInt_dim (l : Lattice) :
    l.dim.toInt64.toInt = if l.dim.toNat < 2 ^ 63 then (l.dim.toNat : ℤ)
      else l.dim.toNat - 2 ^ 64 := by
  have hword : l.dim.toInt64.toInt = l.dim.toBitVec.toInt := rfl
  rw [hword, BitVec.toInt_eq_toNat_cond]
  exact if_congr (by rw [UInt64.toNat_toBitVec]; omega) rfl rfl

/-- The size as a signed word is the modulus, up to its sign. -/
theorem natAbs_toInt_dim (l : Lattice) : l.dim.toInt64.toInt.natAbs = l.modulus := by
  have hlt := l.dim.toNat_lt
  rw [toInt_dim, modulus]
  split
  · rw [Int.natAbs_natCast]
  · omega

theorem modulus_eq_dim (h : l.dim.toNat < 2 ^ 63) : l.modulus = l.dim.toNat := if_pos h

/-- A coordinate is wrapped if it can be. -/
theorem wrap_eq_ok_iff (h : 0 < l.dim.toNat) (c : Int64) (a : ℕ) :
    l.wrap c = .ok a ↔ l.Wraps c ∧ a = l.wrapped c.toInt := by
  have hzero : l.dim.toInt64 ≠ 0 := by
    intro h0
    have habs := natAbs_toInt_dim l
    rw [h0, modulus] at habs
    have hlt := l.dim.toNat_lt
    split at habs <;> simp at habs <;> omega
  have hmod : c.toInt.emod l.dim.toInt64.toInt = c.toInt % l.modulus := by
    rw [← natAbs_toInt_dim, Int.natCast_natAbs, Int.emod_abs]
    rfl
  rw [wrap, Word.remainder, if_neg hzero, hmod, Wraps, wrapped]
  split
  case isTrue hm => simp [hm]
  case isFalse hm => rw [Except.ok.injEq, and_iff_right hm, eq_comm]

/-! ### Numbers -/

theorem value_eq (l : Lattice) (p : Point) :
    l.value p = p.coords.toList.foldl (fun i c => i * l.dim.toNat + l.wrapped c.toInt) 0 := by
  rw [value, Fin.sum_univ_four, Point.coords_toList]
  simp only [Point.ints, List.foldl_cons, List.foldl_nil, Fin.coe_ofNat_eq_mod]
  norm_num
  ring

/-- A point has a number exactly when its coordinates can be wrapped and its value is a word, and
the number is the value. -/
theorem pointIndex_eq_value_iff (h : 0 < l.dim.toNat) {p : Point} {i : ℕ} :
    l.pointIndex p = .ok i ↔
      (∀ μ : Fin 4, l.Wraps p.coords[μ.val]) ∧ i = l.value p ∧ i < 2 ^ 64 := by
  rw [value_eq, ← Point.forall_mem_coords]
  exact foldlM_digits_eq_ok_iff h (wrap_eq_ok_iff h) (by norm_num)

/-- A link has a number exactly when four times the number of its point leaves room for its
direction in a word. -/
theorem linkIndex_eq_value_iff (h : 0 < l.dim.toNat) {k : Link} {i : ℕ} :
    l.linkIndex k = .ok i ↔
      (∀ μ : Fin 4, l.Wraps k.pos.coords[μ.val]) ∧ i = 4 * l.value k.pos + k.dir.index.toNat ∧
        i < 2 ^ 64 := by
  have hsize : UInt64.size = 2 ^ 64 := rfl
  simp only [linkIndex, Direction.count, Checked.bind_eq_ok_iff, pointIndex_eq_value_iff h,
    Word.mul_eq_ok_iff, Word.add_eq_ok_iff, hsize]
  constructor
  · rintro ⟨_, ⟨hwraps, rfl, -⟩, _, ⟨-, rfl⟩, hlt, rfl⟩
    exact ⟨hwraps, by omega, hlt⟩
  · rintro ⟨hwraps, rfl, hlt⟩
    exact ⟨_, ⟨hwraps, rfl, by omega⟩, _, ⟨by omega, rfl⟩, by omega, by omega⟩

/-! ### Points without a number -/

/-- The last point of the lattice, named by the coordinates before zero. -/
def lastPoint : Point := ⟨#v[-1, -1, -1, -1]⟩

/-- The number of the last point is the greatest one. -/
theorem number_lastPoint {n : ℕ} (hn : 0 < n) : (lastPoint.site n).number = n ^ 4 - 1 := by
  obtain ⟨m, rfl⟩ := Nat.exists_eq_succ_of_ne_zero hn.ne'
  have hval : ∀ μ, ((lastPoint.site m.succ) μ).val = m := by
    intro μ
    have hone : (lastPoint.site m.succ) μ = -1 := by
      fin_cases μ <;> simp [Point.site, lastPoint]
    rw [hone, ZMod.val_neg_one]
  rw [Site.number, hval, hval, hval, hval, Nat.succ_eq_add_one]
  refine Nat.eq_sub_of_add_eq ?_
  ring

/-- As long as the size is a signed word, the last point has no number if its number is not a
word. -/
theorem lastPoint_unnumbered (h : 65536 < l.dim.toNat) (hsigned : l.dim.toNat < 2 ^ 63) (i : ℕ) :
    l.pointIndex lastPoint ≠ .ok i := by
  intro hi
  have hpos : 0 < l.dim.toNat := by omega
  have : NeZero l.dim.toNat := ⟨hpos.ne'⟩
  obtain ⟨rfl, hi⟩ := (⟨rfl, hsigned⟩ : l.Periodic l.dim.toNat).pointIndex_eq_ok_iff.1 hi
  have hpow : 65537 ^ 4 ≤ l.dim.toNat ^ 4 := Nat.pow_le_pow_left h 4
  rw [number_lastPoint hpos] at hi
  omega

/-- The point one step along the first direction passes as many points as there are in the three
others. -/
theorem value_firstStep (h : 1 < l.modulus) : l.value ⟨#v[1, 0, 0, 0]⟩ = l.dim.toNat ^ 3 := by
  have hone : l.wrapped 1 = 1 := by
    rw [wrapped, Int.emod_eq_of_lt (by norm_num) (by exact_mod_cast h)]
    rfl
  have hzero : l.wrapped 0 = 0 := by
    rw [wrapped, Int.zero_emod]
    rfl
  rw [value, Fin.sum_univ_four]
  simp [Point.ints, hone, hzero]

/-- If the size is not a signed word, a single step along the first direction passes more points
than there are words. -/
theorem firstStep_unnumbered (h : 2 ^ 63 ≤ l.dim.toNat) (hminus : l.dim.toNat ≠ 2 ^ 64 - 1)
    (i : ℕ) :
    l.pointIndex ⟨#v[1, 0, 0, 0]⟩ ≠ .ok i := by
  intro hi
  have hlt := l.dim.toNat_lt
  have hmodulus : 1 < l.modulus := by
    rw [modulus, if_neg h.not_gt]
    omega
  obtain ⟨-, rfl, hi⟩ := (pointIndex_eq_value_iff (by omega)).1 hi
  have hpow : (2 ^ 63) ^ 3 ≤ l.dim.toNat ^ 3 := Nat.pow_le_pow_left h 3
  rw [value_firstStep hmodulus] at hi
  omega

/-- If the size is minus one as a signed word, it cannot divide the least one. -/
theorem leastPoint_unnumbered (h : l.dim.toNat = 2 ^ 64 - 1) (i : ℕ) :
    l.pointIndex ⟨#v[.minValue, 0, 0, 0]⟩ ≠ .ok i := by
  intro hi
  have hword : l.dim.toInt64 = -1 := by
    rw [← Int64.toInt_inj, toInt_dim, h]
    rfl
  exact ((pointIndex_eq_value_iff (by omega)).1 hi).1 0 ⟨hword, rfl⟩

/-- On a lattice with more than `2 ^ 16` points in each direction some point has no number. -/
theorem exists_unnumbered (h : 65536 < l.dim.toNat) : ∃ p : Point, ∀ i, l.pointIndex p ≠ .ok i := by
  rcases lt_or_ge l.dim.toNat (2 ^ 63) with hsigned | hsigned
  · exact ⟨_, lastPoint_unnumbered h hsigned⟩
  · by_cases hminus : l.dim.toNat = 2 ^ 64 - 1
    · exact ⟨_, leastPoint_unnumbered hminus⟩
    · exact ⟨_, firstStep_unnumbered hsigned hminus⟩

/-! ### The greatest sizes -/

/-- All points have numbers up to `2 ^ 16` points in each direction. -/
theorem forall_pointIndex_iff (h : 0 < l.dim.toNat) :
    (∀ p : Point, ∃ i, l.pointIndex p = .ok i) ↔ l.dim.toNat ≤ 65536 := by
  constructor
  · intro hall
    by_contra hlt
    obtain ⟨p, hp⟩ := exists_unnumbered (not_le.1 hlt)
    obtain ⟨i, hi⟩ := hall p
    exact hp i hi
  · intro hle p
    have : NeZero l.dim.toNat := ⟨h.ne'⟩
    have hperiodic : l.Periodic l.dim.toNat := ⟨rfl, by omega⟩
    have hnumber := Site.number_lt (p.site l.dim.toNat)
    have hpow : l.dim.toNat ^ 4 ≤ 65536 ^ 4 := Nat.pow_le_pow_left hle 4
    exact ⟨_, hperiodic.pointIndex_eq_ok_iff.2 ⟨rfl, by omega⟩⟩

/-- All links have numbers up to the greatest size for which the number of links is a word. -/
theorem forall_linkIndex_iff (h : 0 < l.dim.toNat) :
    (∀ k : Link, k.dir.index.toNat < Direction.count → ∃ i, l.linkIndex k = .ok i) ↔
      l.dim.toNat ≤ 46340 := by
  have : NeZero l.dim.toNat := ⟨h.ne'⟩
  constructor
  · intro hall
    by_contra hlt
    -- where all points have numbers, the last one has links without a number
    have hpoint : ∀ p : Point, ∃ i, l.pointIndex p = .ok i := by
      intro p
      obtain ⟨i, hi⟩ :=
        hall ⟨p, .along 0⟩ (show (Direction.along 0).index.toNat < Direction.count by decide)
      obtain ⟨j, hj, -⟩ := Checked.bind_eq_ok_iff.1 hi
      exact ⟨j, hj⟩
    have hle := (forall_pointIndex_iff h).1 hpoint
    obtain ⟨i, hi⟩ := hall ⟨lastPoint, .along 0⟩ (by decide)
    obtain ⟨rfl, hi⟩ := (⟨rfl, by omega⟩ : l.Periodic l.dim.toNat).linkIndex_eq_ok_iff.1 hi
    have hpow : 46341 ^ 4 ≤ l.dim.toNat ^ 4 := Nat.pow_le_pow_left (not_le.1 hlt) 4
    rw [Site.linkNumber, number_lastPoint h] at hi
    omega
  · intro hle k hk
    obtain ⟨p, d⟩ := k
    obtain ⟨μ, rfl⟩ := Direction.exists_along hk
    have hpow : l.dim.toNat ^ 4 ≤ 46340 ^ 4 := Nat.pow_le_pow_left hle 4
    exact ⟨_, (⟨rfl, by omega⟩ : l.Numbered l.dim.toNat).linkIndex_eq p μ⟩

/-- **The greatest sizes.**  On a lattice of any size that is a positive word, every point has a
number if and only if there are at most `65536` points in each direction, and every link in one of
the four directions if and only if there are at most `46340`.  Where a number is found it is the
exact one: the wrapped coordinates, read as digits in base `dim`, for a point, and four times that
plus the index of the direction for a link.  Coordinates are wrapped by the size as long as it is a
signed word. -/
theorem exact_limits {n : UInt64} {l : Lattice} (h : ofSize? n = some l) :
    ((∀ p : Point, ∃ i, l.pointIndex p = .ok i) ↔ n.toNat ≤ 65536) ∧
      ((∀ k : Link, k.dir.index.toNat < Direction.count → ∃ i, l.linkIndex k = .ok i) ↔
        n.toNat ≤ 46340) ∧
      (∀ p i, l.pointIndex p = .ok i → i = l.value p) ∧
      (∀ k i, l.linkIndex k = .ok i → i = 4 * l.value k.pos + k.dir.index.toNat) ∧
      (n.toNat < 2 ^ 63 → l.modulus = n.toNat) := by
  rw [ofSize?] at h
  split at h
  case isTrue => cases h
  case isFalse hn =>
    rw [Option.some.injEq] at h
    subst h
    have hpos : 0 < n.toNat := UInt64.pos_iff_ne_zero.2 hn
    exact ⟨forall_pointIndex_iff hpos, forall_linkIndex_iff hpos,
      fun p i hi => ((pointIndex_eq_value_iff hpos).1 hi).2.1,
      fun k i hi => ((linkIndex_eq_value_iff hpos).1 hi).2.1, modulus_eq_dim⟩

/-- The greatest sizes, the next ones, and the two sizes at which wrapping is special. -/
theorem exact_limits_sizes :
    (∀ p, ∃ i, (Lattice.mk 65536).pointIndex p = .ok i) ∧
      (¬ ∀ p, ∃ i, (Lattice.mk 65537).pointIndex p = .ok i) ∧
      (∀ k : Link, k.dir.index.toNat < Direction.count →
        ∃ i, (Lattice.mk 46340).linkIndex k = .ok i) ∧
      (¬ ∀ k : Link, k.dir.index.toNat < Direction.count →
        ∃ i, (Lattice.mk 46341).linkIndex k = .ok i) ∧
      (¬ ∀ p, ∃ i, (Lattice.mk 9223372036854775808).pointIndex p = .ok i) ∧
      ¬ ∀ p, ∃ i, (Lattice.mk 18446744073709551615).pointIndex p = .ok i :=
  ⟨(exact_limits (n := 65536) rfl).1.2 (by decide),
    fun h => absurd ((exact_limits (n := 65537) rfl).1.1 h) (by decide),
    (exact_limits (n := 46340) rfl).2.1.2 (by decide),
    fun h => absurd ((exact_limits (n := 46341) rfl).2.1.1 h) (by decide),
    fun h => absurd ((exact_limits (n := 9223372036854775808) rfl).1.1 h) (by decide),
    fun h => absurd ((exact_limits (n := 18446744073709551615) rfl).1.1 h) (by decide)⟩

end Lattice

end PureGauge
