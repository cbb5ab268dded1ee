/-
**Parities of points.**

The parity of a point is that of the sum of its wrapped coordinates.  A step ahead adds one to this
sum, unless it leads from the last point of a line to the first one: then it takes away one less
than the number of points in a line.  If that number is even the parity changes in both cases.  If
it is odd, also if there is only one point, a step across the end of a line keeps the parity, and
the lattice has no checkerboard.

With an even number of points wrapping changes a coordinate by an even amount.  So the parity of a
point is that of the sum of its coordinates as they are, and a shift keeps it or changes it as the
amount is even or odd.

Main definitions:

* `PureGauge.Parity.ofInt` — the parity of an integer;
* `PureGauge.Lattice.ParityLaws` — what shifts do to parities.

Main results:

* `PureGauge.Site.height_step` — the sum of the residues after a step;
* `PureGauge.Lattice.Periodic.parity_eq_ofInt` — the parity of the sum of the coordinates;
* `PureGauge.Lattice.parity_shifts` — shifts and parities.
-/
import PureGauge.Proofs.Lattice.Shifts

namespace PureGauge

/-! ### Parities of numbers -/

namespace Parity

/-- The parity of an integer. -/
def ofInt (z : ℤ) : Parity := if 2 ∣ z then even else odd

theorem opposite_ne (q : Parity) : q.opposite ≠ q := by
  cases q with
  | even => decide
  | odd => decide

theorem ofSum_eq_ofInt (a : ℕ) : ofSum a = ofInt a := if_congr (by omega) rfl rfl

/-- Integers have the same parity if and only if they have the same residue. -/
theorem ofInt_eq_iff {a b : ℤ} : ofInt a = ofInt b ↔ (a : ZMod 2) = b := by
  have hresidue : (a : ZMod 2) = b ↔ a % 2 = b % 2 := ZMod.intCast_eq_intCast_iff a b 2
  rw [hresidue]
  rcases Int.emod_two_eq_zero_or_one a with ha | ha
  · rcases Int.emod_two_eq_zero_or_one b with hb | hb
    · simp [ofInt, Int.dvd_iff_emod_eq_zero, ha, hb]
    · simp [ofInt, Int.dvd_iff_emod_eq_zero, ha, hb]
  · rcases Int.emod_two_eq_zero_or_one b with hb | hb
    · simp [ofInt, Int.dvd_iff_emod_eq_zero, ha, hb]
    · simp [ofInt, Int.dvd_iff_emod_eq_zero, ha, hb]

/-- Adding an even integer keeps the parity, and adding an odd one changes it. -/
theorem ofInt_add (z k : ℤ) : ofInt (z + k) = if 2 ∣ k then ofInt z else (ofInt z).opposite := by
  by_cases hk : 2 ∣ k
  · have hsum : 2 ∣ z + k ↔ 2 ∣ z := (Int.dvd_add_left hk)
    rw [if_pos hk, ofInt, ofInt, if_congr hsum rfl rfl]
  · rw [if_neg hk, ofInt, ofInt]
    by_cases hz : 2 ∣ z
    · rw [if_pos hz, if_neg (by omega), opposite]
    · rw [if_neg hz, if_pos (by omega), opposite]

end Parity

/-! ### Heights -/

namespace Site

variable {n : ℕ} [NeZero n]

/-- The residue after a step: after the last residue comes zero. -/
theorem val_add_one (a : ZMod n) : (a + 1).val + (if a = -1 then n else 0) = a.val + 1 := by
  obtain ⟨m, rfl⟩ := Nat.exists_eq_succ_of_ne_zero (NeZero.ne n)
  by_cases ha : a = -1
  · rw [if_pos ha, ha, neg_add_cancel, ZMod.val_zero, ZMod.val_neg_one, Nat.zero_add]
  · have hlast : a.val ≠ m :=
      fun hval => ha (ZMod.val_injective _ (hval.trans (ZMod.val_neg_one m).symm))
    have hlt := ZMod.val_lt a
    have hone : (1 : ZMod m.succ).val = 1 := ZMod.val_one'' (by omega)
    rw [if_neg ha, Nat.add_zero, ZMod.val_add_of_lt (by omega), hone]

/-- The sum of the residues after a step: it is larger by one, less the number of points in a line
if the step leads across its end. -/
theorem height_step (x : Site n) (μ : Fin 4) :
    (x + step n μ).height + (if x μ = -1 then n else 0) = x.height + 1 := by
  have hsum : ∀ y : Site n, y.height = (y μ).val + ∑ ν ∈ Finset.univ.erase μ, (y ν).val := by
    intro y
    rw [Finset.add_sum_erase Finset.univ (fun ν => (y ν).val) (Finset.mem_univ μ),
      Fin.sum_univ_four, height]
  have hothers : ∑ ν ∈ Finset.univ.erase μ, ((x + step n μ) ν).val =
      ∑ ν ∈ Finset.univ.erase μ, (x ν).val := by
    refine Finset.sum_congr rfl fun ν hν => ?_
    rw [Pi.add_apply, step_of_ne (Finset.ne_of_mem_erase hν), add_zero]
  have hstep := val_add_one (x μ)
  rw [hsum, hsum, hothers, Pi.add_apply, step_self]
  omega

/-- A step keeps the parity if and only if it leads across the end of a line with an odd number of
points. -/
theorem ofSum_height_step (x : Site n) (μ : Fin 4) :
    Parity.ofSum (x + step n μ).height =
      if ¬ 2 ∣ n ∧ x μ = -1 then Parity.ofSum x.height else (Parity.ofSum x.height).opposite := by
  have hstep := height_step x μ
  rw [Parity.ofSum_eq_ofInt, Parity.ofSum_eq_ofInt]
  by_cases hx : x μ = -1
  · rw [if_pos hx] at hstep
    have hsum : ((x + step n μ).height : ℤ) = x.height + (1 - n) := by omega
    rw [hsum, Parity.ofInt_add]
    exact if_congr (by rw [and_iff_left hx]; omega) rfl rfl
  · rw [if_neg hx] at hstep
    have hsum : ((x + step n μ).height : ℤ) = x.height + 1 := by omega
    rw [hsum, Parity.ofInt_add, if_neg (by decide), if_neg fun hlast => hx hlast.2]

end Site

/-! ### Points -/

/-- With an even number of points the wrapped coordinates have a sum of the same parity as the
coordinates. -/
theorem Point.height_site {n : ℕ} [NeZero n] (h : 2 ∣ n) (p : Point) :
    ((p.site n).height : ZMod 2) = ((∑ μ, p.ints μ : ℤ) : ZMod 2) := by
  rw [Site.height_cast h, Int.cast_sum]
  refine Finset.sum_congr rfl fun μ _ => ?_
  rw [site_apply, map_intCast]

namespace Lattice

theorem hasCheckerboard_iff {l : Lattice} : l.hasCheckerboard = true ↔ 2 ∣ l.dim.toNat := by
  rw [hasCheckerboard, decide_eq_true_iff, Nat.dvd_iff_mod_eq_zero]

/-- What shifts do to the parities of points. -/
structure ParityLaws (l : Lattice) : Prop where
  /-- The lattice has a checkerboard if and only if a step ahead always leads to the other parity,
  from every point that can be moved ahead. -/
  checkerboard_iff : l.hasCheckerboard = true ↔
    ∀ (p : Point) (μ : Fin 4), Word.IsSigned (p.ints μ + 1) →
      ∃ q a, l.neighbour p (.along μ) 1 = .ok q ∧ l.parity p = .ok a ∧ l.parity q = .ok a.opposite
  /-- A step ahead keeps the parity exactly if the number of points in a line is odd and the step
  leads across the end of a line. -/
  step : ∀ (p : Point) (μ : Fin 4), Word.IsSigned (p.ints μ + 1) →
    ∃ q a, l.neighbour p (.along μ) 1 = .ok q ∧ l.parity p = .ok a ∧
      l.parity q = .ok (if ¬ 2 ∣ l.dim.toNat ∧ (l.dim.toNat : ℤ) ∣ p.ints μ + 1 then a
        else a.opposite)
  /-- On a checkerboard a shift keeps the parity if the amount is even, and changes it if the amount
  is odd. -/
  shift : 2 ∣ l.dim.toNat → ∀ (p : Point) (μ : Fin 4) (k : Int64),
    Word.IsSigned (p.ints μ + k.toInt) →
    ∃ q a, l.neighbour p (.along μ) k = .ok q ∧ l.parity p = .ok a ∧
      l.parity q = .ok (if 2 ∣ k.toInt then a else a.opposite)
  /-- On a checkerboard the parity of a point is that of the sum of its coordinates, which need not
  be wrapped. -/
  sum : 2 ∣ l.dim.toNat → ∀ p : Point, l.parity p = .ok (.ofInt (∑ μ, p.ints μ))

variable {l : Lattice} {n : ℕ} [NeZero n]

namespace Periodic

/-- With an even number of points the parity of a point is that of the sum of its coordinates. -/
theorem parity_eq_ofInt (h : l.Periodic n) (hn : n ≤ 2 ^ 62) (heven : 2 ∣ n) (p : Point) :
    l.parity p = .ok (.ofInt (∑ μ, p.ints μ)) := by
  rw [h.parity_eq hn, Parity.ofSum_eq_ofInt, Except.ok.injEq, Parity.ofInt_eq_iff, Int.cast_natCast,
    Point.height_site heven]

/-- The parity after a step. -/
theorem parity_step (h : l.Periodic n) (hn : n ≤ 2 ^ 62) {p : Point} {μ : Fin 4}
    (hp : Word.IsSigned (p.ints μ + 1)) :
    ∃ q a, l.neighbour p (.along μ) 1 = .ok q ∧ l.parity p = .ok a ∧
      l.parity q = .ok (if ¬ 2 ∣ n ∧ (n : ℤ) ∣ p.ints μ + 1 then a else a.opposite) := by
  have hlast : (p.site n) μ = -1 ↔ (n : ℤ) ∣ p.ints μ + 1 := by
    rw [← ZMod.intCast_zmod_eq_zero_iff_dvd, Int.cast_add, Int.cast_one, ← eq_neg_iff_add_eq_zero]
    rfl
  have hq := h.neighbour_eq_ok_iff.2 (⟨hp, rfl⟩ : Word.IsSigned (p.ints μ + (1 : Int64).toInt) ∧ _)
  refine ⟨_, _, hq, h.parity_eq hn p, ?_⟩
  rw [h.parity_eq hn, h.site_of_neighbour hq, show (1 : Int64).toInt = 1 from rfl, one_zsmul,
    Site.ofSum_height_step]
  exact congrArg Except.ok (if_congr (and_congr_right' hlast) rfl rfl)

/-- The parity after a shift, if the number of points is even. -/
theorem parity_shift (h : l.Periodic n) (hn : n ≤ 2 ^ 62) (heven : 2 ∣ n) {p : Point} {μ : Fin 4}
    {k : Int64} (hp : Word.IsSigned (p.ints μ + k.toInt)) :
    ∃ q a, l.neighbour p (.along μ) k = .ok q ∧ l.parity p = .ok a ∧
      l.parity q = .ok (if 2 ∣ k.toInt then a else a.opposite) := by
  have hq := h.neighbour_eq_ok_iff.2 ⟨hp, rfl⟩
  refine ⟨_, _, hq, h.parity_eq hn p, ?_⟩
  rw [h.parity_eq hn, h.site_of_neighbour hq, Parity.ofSum_eq_ofInt (p.site n).height,
    ← Parity.ofInt_add, Parity.ofSum_eq_ofInt, Except.ok.injEq, Parity.ofInt_eq_iff,
    Int.cast_natCast, Site.height_add_shift heven, Int.cast_add, Int.cast_natCast]

end Periodic

omit [NeZero n] in
/-- **Steps and shifts change parities as their lengths do.**  Let the size be at most `2 ^ 62`, so
that four wrapped coordinates have a word as their sum.  Every point has a parity.  A step ahead
always leads to the other parity if and only if the lattice has a checkerboard, and otherwise it
keeps the parity across the ends of the lines.  On a checkerboard a shift keeps the parity if the
amount is even and changes it if the amount is odd, and the parity of a point is that of the sum of
its coordinates, wrapped or not. -/
theorem parity_shifts (l : Lattice) (hpos : 0 < l.dim.toNat) (hle : l.dim.toNat ≤ 2 ^ 62) :
    l.ParityLaws := by
  have : NeZero l.dim.toNat := ⟨hpos.ne'⟩
  have h : l.Periodic l.dim.toNat := ⟨rfl, by omega⟩
  refine ⟨⟨fun hboard p μ hp => ?_, fun hstep => ?_⟩, fun p μ hp => h.parity_step hle hp,
    fun heven p μ k hp => h.parity_shift hle heven hp, fun heven p => h.parity_eq_ofInt hle heven p⟩
  · have heven := hasCheckerboard_iff.1 hboard
    obtain ⟨q, a, hq, ha, hparity⟩ := h.parity_step hle hp
    rw [if_neg fun hodd => hodd.1 heven] at hparity
    exact ⟨q, a, hq, ha, hparity⟩
  · -- from the last point of a line to the first one
    by_contra hboard
    have hodd : ¬ 2 ∣ l.dim.toNat := fun heven => hboard (hasCheckerboard_iff.2 heven)
    have hp : Word.IsSigned ((⟨#v[-1, 0, 0, 0]⟩ : Point).ints 0 + 1) := by decide
    obtain ⟨q, a, hq, ha, hkept⟩ := h.parity_step hle hp
    obtain ⟨r, b, hr, hb, hchanged⟩ := hstep _ 0 hp
    rw [if_pos ⟨hodd, dvd_zero _⟩] at hkept
    rw [hq, Except.ok.injEq] at hr
    rw [ha, Except.ok.injEq] at hb
    rw [← hr, ← hb, hkept, Except.ok.injEq] at hchanged
    exact a.opposite_ne hchanged.symm

/-- The greatest size with a checkerboard, where the least coordinate is moved by the greatest
amount, the greatest size without one, and a single point. -/
theorem parity_shifts_largest :
    (Lattice.mk 4611686018427387904).parity ⟨#v[-3, .maxValue, 0, .minValue]⟩ = .ok .even ∧
      (∃ q a, (Lattice.mk 4611686018427387904).neighbour ⟨#v[-3, .maxValue, 0, .minValue]⟩
        (.along 3) .maxValue =
          .ok q ∧
        (Lattice.mk 4611686018427387904).parity ⟨#v[-3, .maxValue, 0, .minValue]⟩ = .ok a ∧
        (Lattice.mk 4611686018427387904).parity q = .ok a.opposite) ∧
      (¬ ∀ (p : Point) (μ : Fin 4), Word.IsSigned (p.ints μ + 1) →
        ∃ q a, (Lattice.mk 4611686018427387903).neighbour p (.along μ) 1 = .ok q ∧
          (Lattice.mk 4611686018427387903).parity p = .ok a ∧
          (Lattice.mk 4611686018427387903).parity q = .ok a.opposite) ∧
      ¬ ∀ (p : Point) (μ : Fin 4), Word.IsSigned (p.ints μ + 1) →
        ∃ q a, (Lattice.mk 1).neighbour p (.along μ) 1 = .ok q ∧ (Lattice.mk 1).parity p = .ok a ∧
          (Lattice.mk 1).parity q = .ok a.opposite := by
  have heven := parity_shifts ⟨4611686018427387904⟩ (by decide) (by decide)
  have hodd := parity_shifts ⟨4611686018427387903⟩ (by decide) (by decide)
  have hsingle := parity_shifts ⟨1⟩ (by decide) (by decide)
  exact ⟨heven.sum (by decide) _, heven.shift (by decide) _ 3 .maxValue (by decide),
    fun hall => absurd (hodd.checkerboard_iff.2 hall) (by decide),
    fun hall => absurd (hsingle.checkerboard_iff.2 hall) (by decide)⟩

end Lattice

end PureGauge
