/-
**Shifts on the lattice.**

A point is shifted by adding an amount to one of its coordinates and wrapping it.  The sum has to be
a signed word; then the shifted point lies inside the lattice, and wrapping between two shifts
changes nothing.  So shifts along one direction add up, shifts along any two directions commute, and
a shift is undone by the opposite one.  Single steps along a direction lead from a point of the
lattice back to it after as many steps as the lattice has points in a direction, and not before.

Main definitions:

* `PureGauge.Word.IsSigned` — integers that are signed words;
* `PureGauge.Lattice.steps` — several single steps along a direction;
* `PureGauge.Lattice.ShiftLaws` — what shifts do.

Main results:

* `PureGauge.Lattice.Periodic.neighbour_eq_ok_iff` — a shift, read on sites;
* `PureGauge.Lattice.Periodic.neighbour_neighbour`, `PureGauge.Lattice.Periodic.neighbour_comm` —
  two shifts;
* `PureGauge.Lattice.Periodic.steps_point` — single steps;
* `PureGauge.Lattice.shifts_act` — shifts act on the lattice as a commutative group.
-/
import PureGauge.Proofs.Lattice.Congruence

namespace PureGauge

/-! ### Sums of signed words -/

namespace Word

/-- An integer that is a signed word. -/
def IsSigned (z : ℤ) : Prop := Int64.minValue.toInt ≤ z ∧ z ≤ Int64.maxValue.toInt

instance (z : ℤ) : Decidable (IsSigned z) :=
  inferInstanceAs (Decidable (Int64.minValue.toInt ≤ z ∧ z ≤ Int64.maxValue.toInt))

theorem isSigned_iff {z : ℤ} : IsSigned z ↔ -2 ^ 63 ≤ z ∧ z < 2 ^ 63 :=
  and_congr Iff.rfl Int.lt_add_one_iff.symm

theorem IsSigned.bmod {z : ℤ} (h : IsSigned z) : z.bmod (2 ^ 64) = z := by
  rw [isSigned_iff] at h
  exact Int.bmod_eq_of_le (by omega) (by omega)

theorem IsSigned.toInt_add {a b : Int64} (h : IsSigned (a.toInt + b.toInt)) :
    (a + b).toInt = a.toInt + b.toInt := by
  rw [Int64.toInt_add, h.bmod]

theorem IsSigned.toInt_neg {a : Int64} (h : IsSigned (-a.toInt)) : (-a).toInt = -a.toInt := by
  rw [Int64.toInt_neg, h.bmod]

end Word

namespace Lattice

/-- The point reached by so many single steps along a direction. -/
def steps (l : Lattice) (p : Point) (d : Direction) : ℕ → Checked Point
  | 0 => .ok p
  | k + 1 => do l.neighbour (← l.steps p d k) d 1

/-- What shifts do.  The laws are about sums that are signed words: the amounts are added to
coordinates, and those of two shifts to each other. -/
structure ShiftLaws (l : Lattice) : Prop where
  /-- A shift leads into the lattice.  It changes one coordinate by the amount, up to multiples of
  the size. -/
  shifted : ∀ (p : Point) (μ : Fin 4) (a : Int64), Word.IsSigned (p.ints μ + a.toInt) →
    ∃ q, l.neighbour p (.along μ) a = .ok q ∧ q.Inside l.dim.toNat ∧
      ∀ ν, q.ints ν ≡ p.ints ν + (if ν = μ then a.toInt else 0) [ZMOD l.dim.toNat]
  /-- Shifts along one direction add up. -/
  add : ∀ (p q : Point) (μ : Fin 4) (a b : Int64), l.neighbour p (.along μ) a = .ok q →
    Word.IsSigned (q.ints μ + b.toInt) → Word.IsSigned (a.toInt + b.toInt) →
    Word.IsSigned (p.ints μ + (a.toInt + b.toInt)) →
    ∃ r, l.neighbour q (.along μ) b = .ok r ∧ l.neighbour p (.along μ) (a + b) = .ok r
  /-- Shifts commute, whether the directions are different or not. -/
  comm : ∀ (p q r : Point) (μ ν : Fin 4) (a b : Int64), l.neighbour p (.along μ) a = .ok q →
    l.neighbour p (.along ν) b = .ok r → Word.IsSigned (q.ints ν + b.toInt) →
    Word.IsSigned (r.ints μ + a.toInt) →
    ∃ t, l.neighbour q (.along ν) b = .ok t ∧ l.neighbour r (.along μ) a = .ok t
  /-- The opposite shift leads back to the point, wrapped. -/
  neg : ∀ (p q : Point) (μ : Fin 4) (a : Int64), l.neighbour p (.along μ) a = .ok q →
    Word.IsSigned (-a.toInt) → Word.IsSigned (q.ints μ - a.toInt) →
    ∃ t, l.neighbour q (.along μ) (-a) = .ok t ∧ l.wrapPoint p = .ok t
  /-- Single steps lead a wrapped point around the lattice: it is met again after every multiple of
  the size. -/
  steps : ∀ (p q : Point) (μ : Fin 4), l.wrapPoint p = .ok q →
    ∀ k, ∃ r, l.steps q (.along μ) k = .ok r ∧ (r = q ↔ l.dim.toNat ∣ k)
  /-- The first return is that after as many steps as there are points in a direction. -/
  first_return : ∀ (p q : Point) (μ : Fin 4), l.wrapPoint p = .ok q →
    IsLeast {k | 0 < k ∧ l.steps q (.along μ) k = .ok q} l.dim.toNat
  /-- A sum that is not a signed word is a fault. -/
  fault : ∀ (p : Point) (μ : Fin 4) (a : Int64), ¬ Word.IsSigned (p.ints μ + a.toInt) →
    l.neighbour p (.along μ) a = .error .sumTooLarge

variable {l : Lattice} {n : ℕ} {p q r : Point} {μ ν : Fin 4} {a b : Int64}

theorem neighbour_of_not_signed (h : ¬ Word.IsSigned (p.ints μ + a.toInt)) :
    l.neighbour p (.along μ) a = .error .sumTooLarge := by
  have hshift : p.shift (.along μ) a = .error .sumTooLarge := by
    rw [Point.shift_along]
    exact if_neg h
  rw [neighbour, hshift, Checked.error_bind]

namespace Periodic

variable [NeZero n]

/-- A shift leads to the point of the shifted site if the sum is a signed word, and nowhere
otherwise. -/
theorem neighbour_eq_ok_iff (h : l.Periodic n) :
    l.neighbour p (.along μ) a = .ok q ↔
      Word.IsSigned (p.ints μ + a.toInt) ∧ q = (p.site n + a.toInt • Site.step n μ).point := by
  by_cases ha : Word.IsSigned (p.ints μ + a.toInt)
  · have hshift : p.shift (.along μ) a = .ok (p.moved μ a) := by
      rw [Point.shift_along]
      exact if_pos ha
    rw [h.neighbour_eq hshift, Except.ok.injEq, and_iff_right ha, eq_comm]
  · simp [neighbour_of_not_signed ha, ha]

/-! ### Two shifts -/

/-- The site of a shifted point is the shifted site. -/
theorem site_of_neighbour (h : l.Periodic n) (hq : l.neighbour p (.along μ) a = .ok q) :
    q.site n = p.site n + a.toInt • Site.step n μ := by
  rw [(h.neighbour_eq_ok_iff.1 hq).2, Site.site_point h.lt]

theorem neighbour_neighbour (h : l.Periodic n) (hq : l.neighbour p (.along μ) a = .ok q)
    (hb : Word.IsSigned (q.ints ν + b.toInt)) :
    l.neighbour q (.along ν) b =
      .ok (p.site n + a.toInt • Site.step n μ + b.toInt • Site.step n ν).point := by
  rw [h.neighbour_eq_ok_iff, h.site_of_neighbour hq]
  exact ⟨hb, rfl⟩

theorem neighbour_comm (h : l.Periodic n) (hq : l.neighbour p (.along μ) a = .ok q)
    (hr : l.neighbour p (.along ν) b = .ok r) (hb : Word.IsSigned (q.ints ν + b.toInt))
    (ha : Word.IsSigned (r.ints μ + a.toInt)) :
    l.neighbour q (.along ν) b = l.neighbour r (.along μ) a := by
  rw [h.neighbour_neighbour hq hb, h.neighbour_neighbour hr ha, add_right_comm]

/-! ### Single steps -/

/-- Single steps along a direction add multiples of its unit vector. -/
theorem steps_point (h : l.Periodic n) (x : Site n) (μ : Fin 4) (k : ℕ) :
    l.steps x.point (.along μ) k = .ok (x + k • Site.step n μ).point := by
  induction k with
  | zero => rw [steps, zero_nsmul, add_zero]
  | succ k ih =>
      have hlt := h.lt
      -- the coordinates of a point of the lattice leave room for a step
      have hroom : Word.IsSigned ((x + k • Site.step n μ).point.ints μ + (1 : Int64).toInt) := by
        have hval := ZMod.val_lt ((x + k • Site.step n μ) μ)
        rw [Word.isSigned_iff, Site.ints_point h.lt, show (1 : Int64).toInt = 1 from rfl]
        omega
      rw [steps, ih, Checked.ok_bind, h.neighbour_eq_ok_iff, Site.site_point h.lt,
        show (1 : Int64).toInt = 1 from rfl, one_zsmul, succ_nsmul, add_assoc]
      exact ⟨hroom, rfl⟩

/-- So many single steps lead back if and only if the size divides their number. -/
theorem point_add_steps_eq_iff (h : l.Periodic n) (x : Site n) (μ : Fin 4) (k : ℕ) :
    (x + k • Site.step n μ).point = x.point ↔ n ∣ k := by
  rw [(Site.point_injective h.lt).eq_iff, add_eq_left, Site.step, ← Pi.single_nsmul, nsmul_one,
    Pi.single_eq_zero_iff, ZMod.natCast_eq_zero_iff]

end Periodic

/-- **Shifts act on the lattice as a commutative group.**  On a lattice whose size is a positive
signed word a shift leads into the lattice, to the point whose coordinate is changed by the amount
up to multiples of the size, unless the sum is not a signed word and the shift is a fault.  Shifts
along one direction add up, any two commute, and the opposite shift leads back to the point,
wrapped.  Single steps from a wrapped point return to it for the first time after as many steps as
there are points in a direction. -/
theorem shifts_act (l : Lattice) (hpos : 0 < l.dim.toNat) (hlt : l.dim.toNat < 2 ^ 63) :
    l.ShiftLaws := by
  have : NeZero l.dim.toNat := ⟨hpos.ne'⟩
  have h : l.Periodic l.dim.toNat := ⟨rfl, hlt⟩
  have hsteps : ∀ (p q : Point) (μ : Fin 4), l.wrapPoint p = .ok q →
      ∀ k, ∃ r, l.steps q (.along μ) k = .ok r ∧ (r = q ↔ l.dim.toNat ∣ k) := by
    intro p q μ hq k
    rw [h.wrapPoint_eq, Except.ok.injEq] at hq
    subst hq
    exact ⟨_, h.steps_point _ μ k, h.point_add_steps_eq_iff _ μ k⟩
  refine ⟨fun p μ a ha => ?_, fun p q μ a b hq hb hab hsum => ?_,
    fun p q r μ ν a b hq hr hb ha => ?_, fun p q μ a hq ha hback => ?_, hsteps,
    fun p q μ hq => ⟨?_, fun k hk => ?_⟩, fun p μ a ha => neighbour_of_not_signed ha⟩
  · refine ⟨_, h.neighbour_eq_ok_iff.2 ⟨ha, rfl⟩, Site.inside_point hlt _, fun ν => ?_⟩
    refine Site.ints_point_modEq hlt ?_
    rcases eq_or_ne ν μ with rfl | hν
    · simp [Point.site_apply]
    · simp [Point.site_apply, Site.step_of_ne hν, hν]
  · refine ⟨_, h.neighbour_neighbour hq hb, h.neighbour_eq_ok_iff.2 ?_⟩
    rw [hab.toInt_add, add_zsmul, add_assoc]
    exact ⟨hsum, rfl⟩
  · have hcomm := h.neighbour_comm hq hr hb ha
    exact ⟨_, h.neighbour_neighbour hq hb, hcomm.symm.trans (h.neighbour_neighbour hq hb)⟩
  · rw [sub_eq_add_neg, ← ha.toInt_neg] at hback
    refine ⟨_, h.neighbour_neighbour hq hback, ?_⟩
    rw [ha.toInt_neg, neg_zsmul, add_neg_cancel_right, h.wrapPoint_eq]
  · obtain ⟨r, hr, hback⟩ := hsteps p q μ hq l.dim.toNat
    rw [hback.2 dvd_rfl] at hr
    exact ⟨hpos, hr⟩
  · obtain ⟨hk, hr⟩ := hk
    obtain ⟨r, hr', hback⟩ := hsteps p q μ hq k
    rw [hr, Except.ok.injEq] at hr'
    exact Nat.le_of_dvd hk (hback.1 hr'.symm)

/-- Wrapping changes no point inside the lattice. -/
theorem Periodic.wrapPoint_of_inside [NeZero n] (h : l.Periodic n) (hp : p.Inside n) :
    l.wrapPoint p = .ok p := by
  rw [h.wrapPoint_eq, hp.point_site h.lt]

/-- On the largest lattice whose size is a signed word the greatest coordinate cannot be shifted
ahead, and the way around is as long as the size. -/
theorem shifts_act_largest :
    (Lattice.mk 9223372036854775807).neighbour ⟨#v[.maxValue, -1, 0, 7]⟩ (.along 0) 1 =
      .error .sumTooLarge ∧
      IsLeast {k | 0 < k ∧
        (Lattice.mk 9223372036854775807).steps .origin (.along 2) k = .ok .origin}
        9223372036854775807 := by
  have h := shifts_act ⟨9223372036854775807⟩ (by decide) (by decide)
  have hwrap : (Lattice.mk 9223372036854775807).wrapPoint .origin = .ok .origin :=
    Periodic.wrapPoint_of_inside (n := 9223372036854775807) ⟨rfl, by decide⟩ (by decide)
  exact ⟨h.fault _ 0 1 (by decide), h.first_return _ _ 2 hwrap⟩

end Lattice

end PureGauge
