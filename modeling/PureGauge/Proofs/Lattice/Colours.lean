/-
**How many points are even.**

The sign of a point is one if the sum of its residues is even, and minus one if it is odd.  It is
the product of the signs of the four residues, so that the sum of the signs of all points is the
fourth power of the sum of the signs along one line.  Along a line the signs alternate and begin
with one: their sum is zero if the number of points in the line is even, and one if it is odd.  So
half of the points are even, and one more than half of the others if the number of all points is
odd.

Main definitions:

* `PureGauge.Parity.sign` — one or minus one;
* `PureGauge.Site.colour` — the points of one parity.

Main results:

* `PureGauge.Site.sum_sign` — the sum of the signs of all points;
* `PureGauge.Site.two_mul_card_colour` — the number of points of one parity;
* `PureGauge.Lattice.length_linksWithParity` — the number of links in a direction that leave them.
-/
import Mathlib.Algebra.Ring.GeomSum
import PureGauge.Proofs.Lattice.Numbering

namespace PureGauge

/-! ### Signs -/

namespace Parity

/-- One for even, minus one for odd. -/
def sign : Parity → ℤ
  | even => 1
  | odd => -1

@[simp] theorem sign_even : even.sign = 1 := rfl

@[simp] theorem sign_odd : odd.sign = -1 := rfl

theorem sign_ofSum (a : ℕ) : (ofSum a).sign = (-1) ^ a := by
  rw [ofSum]
  split
  case isTrue h => rw [sign_even, Even.neg_one_pow (Nat.even_iff.2 h)]
  case isFalse h => rw [sign_odd, Odd.neg_one_pow (Nat.odd_iff.2 (by omega))]

/-- Twice the number that tells whether two parities are equal. -/
theorem two_mul_ite_eq (p q : Parity) : 2 * (if p = q then 1 else 0) = 1 + q.sign * p.sign := by
  cases p with
  | even => cases q <;> rfl
  | odd => cases q <;> rfl

end Parity

namespace Site

variable {n : ℕ} [NeZero n]

/-- The sum of the signs along a line. -/
theorem sum_sign_val (n : ℕ) [NeZero n] :
    ∑ a : ZMod n, (-1 : ℤ) ^ a.val = if Even n then 0 else 1 := by
  obtain ⟨m, rfl⟩ := Nat.exists_eq_succ_of_ne_zero (NeZero.ne n)
  exact (Fin.sum_univ_eq_sum_range (fun i => (-1 : ℤ) ^ i) m.succ).trans neg_one_geom_sum

/-- The sum of the signs of all points. -/
theorem sum_sign (n : ℕ) [NeZero n] :
    ∑ x : Site n, (-1 : ℤ) ^ x.height = if Even n then 0 else 1 := by
  have hsign : ∀ x : Site n, (-1 : ℤ) ^ x.height = ∏ μ, (-1) ^ (x μ).val := by
    intro x
    rw [Finset.prod_pow_eq_pow_sum, Fin.sum_univ_four, height]
  calc ∑ x : Site n, (-1 : ℤ) ^ x.height
      = ∑ x : Site n, ∏ μ, (-1) ^ (x μ).val := Finset.sum_congr rfl fun x _ => hsign x
    _ = (∑ a : ZMod n, (-1) ^ a.val) ^ 4 :=
      (Fintype.sum_pow (fun a : ZMod n => (-1 : ℤ) ^ a.val) 4).symm
    _ = if Even n then 0 else 1 := by
        rw [sum_sign_val]
        split <;> rfl

/-! ### Points of one parity -/

/-- The points of one parity. -/
def colour (n : ℕ) [NeZero n] (q : Parity) : Finset (Site n) :=
  Finset.univ.filter fun x => Parity.ofSum x.height = q

/-- Twice the number of points of one parity is the number of all points, and one more or less if
that number is odd. -/
theorem two_mul_card_colour (n : ℕ) [NeZero n] (q : Parity) :
    2 * ((colour n q).card : ℤ) = (n ^ 4 : ℕ) + q.sign * (if Even n then 0 else 1) := by
  have hcard : (Finset.univ : Finset (Site n)).card = n ^ 4 := by
    rw [Finset.card_univ, Fintype.card_pi_const, ZMod.card]
  calc 2 * ((colour n q).card : ℤ)
      = ∑ x : Site n, 2 * (if Parity.ofSum x.height = q then 1 else 0) := by
        rw [← Finset.mul_sum, Finset.sum_boole, colour]
    _ = ∑ x : Site n, (1 + q.sign * (-1) ^ x.height) :=
        Finset.sum_congr rfl fun x _ => by rw [Parity.two_mul_ite_eq, Parity.sign_ofSum]
    _ = (n ^ 4 : ℕ) + q.sign * (if Even n then 0 else 1) := by
        rw [Finset.sum_add_distrib, ← Finset.mul_sum, sum_sign, Finset.sum_const, nsmul_one, hcard]

end Site

/-! ### Links -/

namespace Lattice

/-- A phase has as many links as there are points of its parity. -/
theorem length_phase (n : ℕ) [NeZero n] (μ : Fin 4) (q : Parity) :
    (phase n μ q).length = (Site.colour n q).card := by
  have hrange : (phase n μ q).length =
      ((Finset.range (n ^ 4)).filter fun i =>
        Parity.ofSum (Site.ofNumber n i).height = q).card := by
    rw [phase, List.length_map]
    rfl
  rw [hrange, Site.colour]
  refine Finset.card_nbij' (Site.ofNumber n) Site.number (fun i hi => ?_) (fun x hx => ?_)
    (fun i hi => ?_)
    fun x _ => Site.ofNumber_number x
  · simpa using (Finset.mem_filter.1 hi).2
  · simpa [Site.ofNumber_number, Site.number_lt] using hx
  · exact Site.number_ofNumber (Finset.mem_range.1 (Finset.mem_filter.1 hi).1)

/-- **Half of the links in a direction leave even points.**  As long as the number of points is a
word, the links in a direction that leave even points and those that leave odd ones are found, none
of them twice.  With an even size there are as many of the ones as of the others, and with an odd
size there is one more that leaves an even point. -/
theorem length_linksWithParity (l : Lattice) (hpos : 0 < l.dim.toNat)
    (hpoints : l.dim.toNat ^ 4 < 2 ^ 64) (μ : Fin 4) :
    ∃ evens odds, l.linksWithParity (.along μ) .even = .ok evens ∧
      l.linksWithParity (.along μ) .odd = .ok odds ∧
      evens.Nodup ∧ odds.Nodup ∧ evens.length + odds.length = l.dim.toNat ^ 4 ∧
      (2 ∣ l.dim.toNat → evens.length = l.dim.toNat ^ 4 / 2 ∧ odds.length = l.dim.toNat ^ 4 / 2) ∧
      (¬ 2 ∣ l.dim.toNat →
        evens.length = (l.dim.toNat ^ 4 + 1) / 2 ∧ odds.length = (l.dim.toNat ^ 4 - 1) / 2) := by
  have : NeZero l.dim.toNat := ⟨hpos.ne'⟩
  have h : l.Counted l.dim.toNat := ⟨rfl, hpoints⟩
  have hlt := h.periodic.lt
  have heven := Site.two_mul_card_colour l.dim.toNat .even
  have hodd := Site.two_mul_card_colour l.dim.toNat .odd
  simp only [← length_phase _ μ, Parity.sign_even, Parity.sign_odd, even_iff_two_dvd] at heven hodd
  have hsum : (phase l.dim.toNat μ .even).length + (phase l.dim.toNat μ .odd).length =
      l.dim.toNat ^ 4 := by omega
  refine ⟨_, _, h.linksWithParity_eq μ .even, h.linksWithParity_eq μ .odd, nodup_phase hlt μ .even,
    nodup_phase hlt μ .odd, hsum, fun hboard => ?_, fun hboard => ?_⟩
  · rw [if_pos hboard] at heven
    omega
  · rw [if_neg hboard] at heven
    omega

/-- The greatest sizes, odd and even, and a single point. -/
theorem length_linksWithParity_largest :
    (∃ evens odds, (Lattice.mk 65535).linksWithParity (.along 2) .even = .ok evens ∧
        (Lattice.mk 65535).linksWithParity (.along 2) .odd = .ok odds ∧
        evens.length = 9222809099786125313 ∧ odds.length = 9222809099786125312) ∧
      (∃ evens odds, (Lattice.mk 65534).linksWithParity (.along 2) .even = .ok evens ∧
        (Lattice.mk 65534).linksWithParity (.along 2) .odd = .ok odds ∧
        evens.length = 9222246188486492168 ∧ odds.length = 9222246188486492168) ∧
      ∃ evens odds, (Lattice.mk 1).linksWithParity (.along 2) .even = .ok evens ∧
        (Lattice.mk 1).linksWithParity (.along 2) .odd = .ok odds ∧ evens.length = 1 ∧
          odds.length = 0 := by
  obtain ⟨evens, odds, heven, hodd, -, -, -, -, hlength⟩ :=
    length_linksWithParity ⟨65535⟩ (by decide) (by decide) 2
  obtain ⟨evens', odds', heven', hodd', -, -, -, hlength', -⟩ :=
    length_linksWithParity ⟨65534⟩ (by decide) (by decide) 2
  obtain ⟨evens'', odds'', heven'', hodd'', -, -, -, -, hlength''⟩ :=
    length_linksWithParity ⟨1⟩ (by decide) (by decide) 2
  exact ⟨⟨evens, odds, heven, hodd, hlength (by decide)⟩,
    ⟨evens', odds', heven', hodd', hlength' (by decide)⟩,
    ⟨evens'', odds'', heven'', hodd'', hlength'' (by decide)⟩⟩

end Lattice

end PureGauge
