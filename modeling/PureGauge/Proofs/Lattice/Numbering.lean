/-
**The operations of a lattice, read on its sites.**

A lattice whose links can be numbered by words never stops with a fault when it is asked for a
number, and every answer depends on the site of a point alone.  The lemmas of this module replace
each checked operation by what it does to sites.

Main definitions:

* `PureGauge.Direction.along` — the four directions, counted;
* `PureGauge.Point.site`, `PureGauge.Site.point` — the site of a point, and the point of a site
  whose coordinates are wrapped;
* `PureGauge.Lattice.Periodic` — a lattice with `n` points in each direction;
* `PureGauge.Lattice.Counted`, `PureGauge.Lattice.Numbered` — one whose points can be numbered
  besides, and one whose links can.

Main results:

* `PureGauge.Lattice.Periodic.pointIndex_eq_ok_iff`,
  `PureGauge.Lattice.Periodic.linkIndex_eq_ok_iff` — the numbers of points and links are those of
  their sites, and are found exactly when they are words;
* `PureGauge.Lattice.Periodic.wrapPoint_eq`, `PureGauge.Point.site_of_shift` — wrapping and moving;
* `PureGauge.Lattice.Periodic.parity_eq`, `PureGauge.Lattice.Counted.phases_eq` — the checkerboard;
* `PureGauge.Lattice.exists_phases_iff` — when there are phases.
-/
import PureGauge.Lattice.Basic
import PureGauge.Proofs.Checked
import PureGauge.Proofs.Lattice.Site
import Mathlib.Tactic.IntervalCases

namespace PureGauge

/-! ### Directions -/

namespace Direction

/-- The direction with number `μ`. -/
def along (μ : Fin 4) : Direction := ⟨UInt64.ofNat μ⟩

@[simp] theorem toNat_index_along (μ : Fin 4) : (along μ).index.toNat = μ := by
  have hμ := μ.2
  simp only [along, UInt64.toNat_ofNat']
  omega

theorem along_inj {μ ν : Fin 4} : along μ = along ν ↔ μ = ν := by
  constructor
  · intro h
    have := congrArg (fun d => d.index.toNat) h
    simpa [Fin.ext_iff] using this
  · rintro rfl
    rfl

/-- The directions with an index below four are the four that are counted. -/
theorem exists_along {d : Direction} (h : d.index.toNat < count) : ∃ μ, d = along μ := by
  refine ⟨⟨d.index.toNat, h⟩, ?_⟩
  rw [along, UInt64.ofNat_toNat]

theorem all_eq : all = (List.finRange 4).map along := rfl

/-- The six pairs of different directions, the first before the second. -/
def pairs : List (Fin 4 × Fin 4) :=
  (List.finRange 4).flatMap fun μ => ((List.finRange 4).filter (μ < ·)).map fun ν => (μ, ν)

theorem planes_eq : planes = pairs.map fun μν => (along μν.1, along μν.2) := rfl

theorem ne_of_mem_pairs {μν : Fin 4 × Fin 4} (h : μν ∈ pairs) : μν.1 ≠ μν.2 := by
  revert μν
  decide

theorem mem_pairs_or {μ ν : Fin 4} (h : μ ≠ ν) : (μ, ν) ∈ pairs ∨ (ν, μ) ∈ pairs := by
  revert μ ν
  decide

/-- The directions different from `μ`. -/
def others (μ : Fin 4) : List (Fin 4) := (List.finRange 4).filter (· ≠ μ)

@[simp] theorem mem_others {μ ν : Fin 4} : ν ∈ others μ ↔ ν ≠ μ := by simp [others]

theorem length_others (μ : Fin 4) : (others μ).length = 3 := by
  revert μ
  decide

theorem orthogonal_along (μ : Fin 4) : (along μ).orthogonal = .ok ((others μ).map along) := by
  revert μ
  decide

end Direction

/-! ### Points -/

namespace Point

/-- The site of a point on a lattice with `n` points in each direction. -/
def site (n : ℕ) (p : Point) : Site n := fun μ => ((p.coords[μ.val]).toInt : ZMod n)

theorem coords_toList (p : Point) :
    p.coords.toList = [p.coords[0], p.coords[1], p.coords[2], p.coords[3]] := by
  refine List.ext_getElem (by simp) ?_
  intro i h₁ h₂
  have hi : i < 4 := by simpa using h₁
  interval_cases i <;> simp

/-- The coordinates of a point, as integers. -/
def ints (p : Point) : Fin 4 → ℤ := fun μ => (p.coords[μ.val]).toInt

/-- What holds of the coordinates holds of each of the four. -/
theorem forall_mem_coords {p : Point} {P : Int64 → Prop} :
    (∀ c ∈ p.coords.toList, P c) ↔ ∀ μ : Fin 4, P p.coords[μ.val] := by
  rw [coords_toList]
  simp [Fin.forall_fin_succ]

/-- The point with `k` added to one of its coordinates. -/
def moved (p : Point) (μ : Fin 4) (k : Int64) : Point :=
  ⟨p.coords.set μ (Int64.ofInt ((p.coords[μ.val]).toInt + k.toInt))⟩

/-- Moving a point fails only if the sum is not a signed word. -/
theorem shift_along (p : Point) (μ : Fin 4) (k : Int64) :
    p.shift (.along μ) k =
      if Int64.minValue.toInt ≤ (p.coords[μ.val]).toInt + k.toInt ∧
          (p.coords[μ.val]).toInt + k.toInt ≤ Int64.maxValue.toInt then .ok (p.moved μ k)
      else .error .sumTooLarge := by
  simp only [shift, coordinate, setCoordinate, Direction.toNat_index_along, μ.2, dif_pos,
    Checked.ok_bind, Word.shift, moved]
  by_cases hrange : Int64.minValue.toInt ≤ (p.coords[μ.val]).toInt + k.toInt ∧
      (p.coords[μ.val]).toInt + k.toInt ≤ Int64.maxValue.toInt
  · rw [if_pos hrange, if_pos hrange, Checked.ok_bind]
  · rw [if_neg hrange, if_neg hrange, Checked.error_bind]

/-- A point that is moved has its site moved. -/
theorem site_of_shift {n : ℕ} {p q : Point} {μ : Fin 4} {k : Int64}
    (h : p.shift (.along μ) k = .ok q) : q.site n = p.site n + k.toInt • Site.step n μ := by
  rw [shift_along] at h
  split at h
  case isFalse => simp at h
  case isTrue hrange =>
    rw [Except.ok.injEq] at h
    subst h
    funext ν
    have hsum : (Int64.ofInt ((p.coords[μ.val]).toInt + k.toInt)).toInt
        = (p.coords[μ.val]).toInt + k.toInt :=
      Int64.toInt_ofInt_of_le hrange.1 (Int.lt_add_one_of_le hrange.2)
    by_cases hν : ν = μ
    · subst hν
      simp only [site, moved, Vector.getElem_set_self, hsum, Pi.add_apply, Pi.smul_apply,
        Site.step_self, zsmul_one, Int.cast_add]
    · have hne : (μ : ℕ) ≠ ν := fun hval => hν (Fin.ext hval.symm)
      simp [site, moved, Site.step_of_ne hν, Vector.getElem_set_ne _ _ hne]

theorem site_of_shift_one {n : ℕ} {p q : Point} {μ : Fin 4} (h : p.shift (.along μ) 1 = .ok q) :
    q.site n = p.site n + Site.step n μ := by
  rw [site_of_shift h, show (1 : Int64).toInt = 1 from rfl, one_zsmul]

theorem site_of_shift_neg_one {n : ℕ} {p q : Point} {μ : Fin 4}
    (h : p.shift (.along μ) (-1) = .ok q) : q.site n = p.site n - Site.step n μ := by
  rw [site_of_shift h, show (-1 : Int64).toInt = -1 from rfl, neg_one_zsmul, sub_eq_add_neg]

/-- A point none of whose coordinates is the least or the greatest signed word. -/
def Inner (p : Point) : Prop :=
  ∀ μ : Fin 4, Int64.minValue.toInt < (p.coords[μ.val]).toInt ∧
    (p.coords[μ.val]).toInt < Int64.maxValue.toInt

instance (p : Point) : Decidable p.Inner :=
  inferInstanceAs (Decidable (∀ μ : Fin 4, Int64.minValue.toInt < (p.coords[μ.val]).toInt ∧
    (p.coords[μ.val]).toInt < Int64.maxValue.toInt))

/-- A point around which the squares of its link along `μ` can be followed: it can be moved by one
ahead along `μ`, and by one either way along the other directions. -/
def Clear (p : Point) (μ : Fin 4) : Prop :=
  (p.coords[μ.val]).toInt < Int64.maxValue.toInt ∧
    ∀ ν : Fin 4, ν ≠ μ → Int64.minValue.toInt < (p.coords[ν.val]).toInt ∧
      (p.coords[ν.val]).toInt < Int64.maxValue.toInt

instance (p : Point) (μ : Fin 4) : Decidable (p.Clear μ) :=
  inferInstanceAs (Decidable (_ ∧ ∀ ν : Fin 4, ν ≠ μ →
    Int64.minValue.toInt < (p.coords[ν.val]).toInt ∧
      (p.coords[ν.val]).toInt < Int64.maxValue.toInt))

theorem Inner.clear {p : Point} (h : p.Inner) (μ : Fin 4) : p.Clear μ := ⟨(h μ).2, fun ν _ => h ν⟩

theorem moved_coord_of_ne (p : Point) {μ ν : Fin 4} (k : Int64) (h : ν ≠ μ) :
    (p.moved μ k).coords[ν.val] = p.coords[ν.val] :=
  Vector.getElem_set_ne μ.2 ν.2 fun hval => h (Fin.ext hval.symm)

/-- A point can be moved by one along a direction in which it has room. -/
theorem shift_one {p : Point} {μ : Fin 4} (h : (p.coords[μ.val]).toInt < Int64.maxValue.toInt) :
    p.shift (.along μ) 1 = .ok (p.moved μ 1) := by
  have hmin : Int64.minValue.toInt ≤ (p.coords[μ.val]).toInt := Int64.minValue_le_toInt _
  rw [shift_along, if_pos]
  rw [show (1 : Int64).toInt = 1 from rfl]
  omega

theorem shift_neg_one {p : Point} {μ : Fin 4}
    (h : Int64.minValue.toInt < (p.coords[μ.val]).toInt) :
    p.shift (.along μ) (-1) = .ok (p.moved μ (-1)) := by
  have hmax : (p.coords[μ.val]).toInt ≤ Int64.maxValue.toInt := Int64.toInt_le _
  rw [shift_along, if_pos]
  rw [show (-1 : Int64).toInt = -1 from rfl]
  omega

theorem toInt_moved_neg_one {p : Point} {μ : Fin 4}
    (h : Int64.minValue.toInt < (p.coords[μ.val]).toInt) :
    ((p.moved μ (-1)).coords[μ.val]).toInt = (p.coords[μ.val]).toInt - 1 := by
  have hmin : Int64.minValue.toInt = -2 ^ 63 := rfl
  have hmax := Int64.toInt_lt (p.coords[μ.val])
  have hsum : (p.coords[μ.val]).toInt + (-1 : Int64).toInt = (p.coords[μ.val]).toInt - 1 := rfl
  simp only [moved, Vector.getElem_set_self, hsum]
  exact Int64.toInt_ofInt_of_le (by omega) (by omega)

/-- Behind a point around which the squares of its link can be followed, the square that leads back
to it can be followed: in its own direction because of the step just made, in the other one as the
coordinate is the same. -/
theorem Clear.shift_behind {p : Point} {μ ν : Fin 4} (h : p.Clear μ) (hν : ν ≠ μ) :
    (p.moved ν (-1)).shift (.along μ) 1 = .ok ((p.moved ν (-1)).moved μ 1) ∧
      (p.moved ν (-1)).shift (.along ν) 1 = .ok ((p.moved ν (-1)).moved ν 1) := by
  obtain ⟨hmin, hmax⟩ := h.2 ν hν
  refine ⟨shift_one ?_, shift_one ?_⟩
  · rw [moved_coord_of_ne p (-1) hν.symm]
    exact h.1
  · rw [toInt_moved_neg_one hmin]
    omega

/-- The square ahead can be followed as well. -/
theorem Clear.shift_ahead {p : Point} {μ ν : Fin 4} (h : p.Clear μ) (hν : ν ≠ μ) :
    p.shift (.along μ) 1 = .ok (p.moved μ 1) ∧ p.shift (.along ν) 1 = .ok (p.moved ν 1) :=
  ⟨shift_one h.1, shift_one (h.2 ν hν).2⟩

theorem Inner.shift_one {p : Point} (h : p.Inner) (μ : Fin 4) :
    p.shift (.along μ) 1 = .ok (p.moved μ 1) :=
  Point.shift_one (h μ).2

end Point

namespace Site

variable {n : ℕ}

/-- The point of a site whose coordinates are wrapped. -/
def point (x : Site n) : Point := ⟨.ofFn fun μ => Int64.ofNat (x μ).val⟩

theorem coord_point (x : Site n) (μ : Fin 4) :
    (point x).coords[μ.val] = Int64.ofNat (x μ).val := by
  fin_cases μ <;> rfl

theorem toInt_coord_point [NeZero n] (h : n < 2 ^ 63) (x : Site n) (μ : Fin 4) :
    ((point x).coords[μ.val]).toInt = (x μ).val := by
  have hval := ZMod.val_lt (x μ)
  rw [coord_point, Int64.toInt_ofNat_of_lt (by omega)]

theorem site_point [NeZero n] (h : n < 2 ^ 63) (x : Site n) : (point x).site n = x := by
  funext μ
  rw [Point.site, toInt_coord_point h, Int.cast_natCast, ZMod.natCast_zmod_val]

theorem point_injective [NeZero n] (h : n < 2 ^ 63) :
    Function.Injective (point : Site n → Point) := by
  intro x y hxy
  rw [← site_point h x, hxy, site_point h]

/-- The points of a lattice can be moved by one. -/
theorem point_inner [NeZero n] (h : n < 2 ^ 62) (x : Site n) : (point x).Inner := by
  intro μ
  have hval := ZMod.val_lt (x μ)
  rw [toInt_coord_point (by omega), show Int64.minValue.toInt = -2 ^ 63 from rfl,
    show Int64.maxValue.toInt = 2 ^ 63 - 1 from rfl]
  omega

theorem point_ofNumber (i : ℕ) : (ofNumber n i).point = Lattice.pointOfDigits n i := by
  rw [point, Lattice.pointOfDigits]
  congr 1
  ext k hk
  interval_cases k <;> simp [ofNumber, ZMod.val_natCast]

end Site

/-! ### Lattices -/

namespace Lattice

/-- A lattice with `n` points in each direction, a number that is also a signed word. -/
structure Periodic (l : Lattice) (n : ℕ) : Prop where
  dim_eq : l.dim.toNat = n
  lt : n < 2 ^ 63

/-- A lattice with `n` points in each direction, few enough that their number is a word. -/
structure Counted (l : Lattice) (n : ℕ) : Prop where
  dim_eq : l.dim.toNat = n
  points_lt : n ^ 4 < 2 ^ 64

/-- A lattice with `n` points in each direction, few enough that every link has a word as its
number. -/
structure Numbered (l : Lattice) (n : ℕ) : Prop where
  dim_eq : l.dim.toNat = n
  links_lt : 4 * n ^ 4 < 2 ^ 64

variable {l : Lattice} {n : ℕ}

/-! ### Numbers digit by digit -/

/-- Read as digits, no number exceeds the ones that continue it. -/
private theorem le_foldl_wrapped (hn : 0 < n) (w : Int64 → ℕ) (cs : List Int64) (i : ℕ) :
    i ≤ cs.foldl (fun i c => i * n + w c) i := by
  induction cs generalizing i with
  | nil => exact le_rfl
  | cons c cs ih => exact ((Nat.le_mul_of_pos_right i hn).trans (Nat.le_add_right ..)).trans (ih _)

/-- A number is continued by wrapped coordinates as its digits, exactly when the coordinates can be
wrapped and the result is a word. -/
theorem foldlM_digits_eq_ok_iff (hn : 0 < l.dim.toNat) {P : Int64 → Prop} {w : Int64 → ℕ}
    (hw : ∀ c a, l.wrap c = .ok a ↔ P c ∧ a = w c) {cs : List Int64} {i j : ℕ} (hi : i < 2 ^ 64) :
    cs.foldlM (fun i c => do Word.add (← Word.mul i l.dim.toNat) (← l.wrap c)) i = .ok j ↔
      (∀ c ∈ cs, P c) ∧ j = cs.foldl (fun i c => i * l.dim.toNat + w c) i ∧ j < 2 ^ 64 := by
  have hsize : UInt64.size = 2 ^ 64 := rfl
  induction cs generalizing i with
  | nil =>
      rw [List.foldlM_nil, Checked.pure_eq, Except.ok.injEq]
      constructor
      · rintro rfl
        exact ⟨by simp, rfl, hi⟩
      · exact fun hj => hj.2.1.symm
  | cons c cs ih =>
      -- one more digit is the exact one, and is found exactly when the result is a word
      have hdigit : ∀ a, (do Word.add (← Word.mul i l.dim.toNat) (← l.wrap c)) = Except.ok a ↔
          P c ∧ a = i * l.dim.toNat + w c ∧ a < 2 ^ 64 := by
        intro a
        simp only [Checked.bind_eq_ok_iff, Word.mul_eq_ok_iff, Word.add_eq_ok_iff, hw, hsize]
        constructor
        · rintro ⟨_, ⟨-, rfl⟩, _, ⟨hc, rfl⟩, hlt, rfl⟩
          exact ⟨hc, rfl, hlt⟩
        · rintro ⟨hc, rfl, hlt⟩
          exact ⟨_, ⟨by omega, rfl⟩, _, ⟨hc, rfl⟩, hlt, rfl⟩
      rw [List.foldlM_cons, Checked.bind_eq_ok_iff, List.foldl_cons, List.forall_mem_cons]
      constructor
      · rintro ⟨a, ha, hrest⟩
        obtain ⟨hc, rfl, hlt⟩ := (hdigit a).1 ha
        obtain ⟨hcs, hj⟩ := (ih hlt).1 hrest
        exact ⟨⟨hc, hcs⟩, hj⟩
      · rintro ⟨⟨hc, hcs⟩, rfl, hlt⟩
        have hnext := (le_foldl_wrapped hn w cs (i * l.dim.toNat + w c)).trans_lt hlt
        exact ⟨_, (hdigit _).2 ⟨hc, rfl, hnext⟩, (ih hnext).2 ⟨hcs, rfl, hlt⟩⟩

namespace Periodic

theorem toInt_dim (h : l.Periodic n) : l.dim.toInt64.toInt = n := by
  have hdim : l.dim = UInt64.ofNat n := by rw [← h.dim_eq, UInt64.ofNat_toNat]
  rw [hdim, UInt64.toInt64_ofNat', Int64.toInt_ofNat_of_lt h.lt]

variable [NeZero n]

/-- Wrapping a coordinate takes its residue. -/
theorem wrap_eq (h : l.Periodic n) (c : Int64) : l.wrap c = .ok (c.toInt : ZMod n).val := by
  have hn : 0 < n := NeZero.pos n
  have hdim := h.toInt_dim
  have hzero : l.dim.toInt64 ≠ 0 := by
    intro h0
    rw [h0, Int64.toInt_zero] at hdim
    omega
  have hminus : l.dim.toInt64 ≠ -1 := by
    intro h1
    rw [h1, show (-1 : Int64).toInt = -1 from rfl] at hdim
    omega
  rw [wrap, Word.remainder, if_neg hzero, if_neg fun hm => hminus hm.1, hdim]
  congr 1
  have hval := ZMod.val_intCast (n := n) c.toInt
  have hmod : c.toInt.emod n = c.toInt % n := rfl
  omega

/-- Wrapping a point gives the point of its site. -/
theorem wrapPoint_eq (h : l.Periodic n) (p : Point) : l.wrapPoint p = .ok (p.site n).point := by
  have hwrap : (fun c => do return Int64.ofNat (← l.wrap c) : Int64 → Checked Int64)
      = fun c => pure (Int64.ofNat (c.toInt : ZMod n).val) := by
    funext c
    rw [h.wrap_eq, Checked.ok_bind]
  rw [wrapPoint, hwrap, Vector.mapM_pure, Checked.pure_eq, Checked.ok_bind]
  congr 2
  ext i hi
  rw [Vector.getElem_map]
  interval_cases i <;> rfl

/-- The points that wrapping does not change are those of the sites. -/
theorem eq_point_of_wrapPoint (h : l.Periodic n) {p : Point} (hp : l.wrapPoint p = .ok p) :
    p = (p.site n).point := by
  rw [h.wrapPoint_eq, Except.ok.injEq] at hp
  exact hp.symm

/-- A neighbour is the point of the neighbouring site. -/
theorem neighbour_eq (h : l.Periodic n) {p q : Point} {μ : Fin 4} {k : Int64}
    (hq : p.shift (.along μ) k = .ok q) :
    l.neighbour p (.along μ) k = .ok (p.site n + k.toInt • Site.step n μ).point := by
  rw [neighbour, hq, Checked.ok_bind, h.wrapPoint_eq, Point.site_of_shift hq]

theorem neighbour_one (h : l.Periodic n) {p q : Point} {μ : Fin 4}
    (hq : p.shift (.along μ) 1 = .ok q) :
    l.neighbour p (.along μ) 1 = .ok (p.site n + Site.step n μ).point := by
  rw [h.neighbour_eq hq, show (1 : Int64).toInt = 1 from rfl, one_zsmul]

/-- The parity of a point is that of the height of its site, if the heights are words. -/
theorem parity_eq (h : l.Periodic n) (hn : n ≤ 2 ^ 62) (p : Point) :
    l.parity p = .ok (Parity.ofSum (p.site n).height) := by
  have h0 := ZMod.val_lt (p.coords[0].toInt : ZMod n)
  have h1 := ZMod.val_lt (p.coords[1].toInt : ZMod n)
  have h2 := ZMod.val_lt (p.coords[2].toInt : ZMod n)
  -- each partial sum of four residues is a word
  have hadd : ∀ s c, s < 3 * 2 ^ 62 →
      (do Word.add s (← l.wrap c)) = Except.ok (s + (c.toInt : ZMod n).val) := by
    intro s c hs
    have hc := ZMod.val_lt (c.toInt : ZMod n)
    rw [h.wrap_eq, Checked.ok_bind, Word.add_eq_ok_iff]
    exact ⟨by simp only [UInt64.size]; omega, rfl⟩
  simp only [parity, Point.coords_toList, List.foldlM_cons, List.foldlM_nil]
  rw [hadd _ _ (by omega), Checked.ok_bind, hadd _ _ (by omega), Checked.ok_bind,
    hadd _ _ (by omega), Checked.ok_bind, hadd _ _ (by omega), Checked.ok_bind, Nat.zero_add]
  rfl

/-- The number of a point is that of its site, and is found exactly when it is a word. -/
theorem pointIndex_eq_ok_iff (h : l.Periodic n) {p : Point} {i : ℕ} :
    l.pointIndex p = .ok i ↔ i = (p.site n).number ∧ i < 2 ^ 64 := by
  have hwrap : ∀ c a, l.wrap c = .ok a ↔ True ∧ a = (c.toInt : ZMod n).val := by
    intro c a
    rw [h.wrap_eq, Except.ok.injEq, true_and, eq_comm]
  have hnumber : p.coords.toList.foldl (fun i c => i * n + (c.toInt : ZMod n).val) 0 =
      (p.site n).number := by
    rw [Point.coords_toList, List.foldl_cons, Nat.zero_mul, Nat.zero_add]
    rfl
  rw [← hnumber, pointIndex, foldlM_digits_eq_ok_iff (h.dim_eq ▸ NeZero.pos n) hwrap (by norm_num),
    h.dim_eq]
  exact and_iff_right fun _ _ => trivial

/-- The number of a link is that of its site and direction, and is found exactly when it is a
word. -/
theorem linkIndex_eq_ok_iff (h : l.Periodic n) {p : Point} {μ : Fin 4} {i : ℕ} :
    l.linkIndex ⟨p, .along μ⟩ = .ok i ↔ i = (p.site n).linkNumber μ ∧ i < 2 ^ 64 := by
  have hsize : UInt64.size = 2 ^ 64 := rfl
  simp only [linkIndex, Direction.count, Checked.bind_eq_ok_iff, h.pointIndex_eq_ok_iff,
    Word.mul_eq_ok_iff, Word.add_eq_ok_iff, Direction.toNat_index_along, hsize, Site.linkNumber]
  constructor
  · rintro ⟨_, ⟨rfl, -⟩, _, ⟨-, rfl⟩, hlt, rfl⟩
    exact ⟨rfl, hlt⟩
  · rintro ⟨rfl, hlt⟩
    exact ⟨_, ⟨rfl, by omega⟩, _, ⟨by omega, rfl⟩, hlt, rfl⟩

end Periodic

/-- The number of points is the fourth power of the size, if it is found. -/
theorem pointCount_eq_of_ok {m : ℕ} (h : l.pointCount = .ok m) :
    m = l.dim.toNat ^ 4 ∧ m < 2 ^ 64 := by
  obtain ⟨_, h2, h⟩ := Checked.bind_eq_ok_iff.1 h
  obtain ⟨_, h3, h⟩ := Checked.bind_eq_ok_iff.1 h
  obtain ⟨-, rfl⟩ := Word.mul_eq_ok_iff.1 h2
  obtain ⟨-, rfl⟩ := Word.mul_eq_ok_iff.1 h3
  obtain ⟨hlt, rfl⟩ := Word.mul_eq_ok_iff.1 h
  exact ⟨by ring, hlt⟩

namespace Counted

theorem lt_65536 (h : l.Counted n) : n < 65536 := by
  by_contra hn
  have hpow : 65536 ^ 4 ≤ n ^ 4 := Nat.pow_le_pow_left (by omega) 4
  have hlt := h.points_lt
  omega

theorem periodic (h : l.Counted n) : l.Periodic n :=
  ⟨h.dim_eq, h.lt_65536.trans (by norm_num)⟩

theorem pointCount_eq (h : l.Counted n) : l.pointCount = .ok (n ^ 4) := by
  have hn := h.lt_65536
  -- none of the partial products leaves the words
  have h2 : n * n ≤ 65535 * 65535 := Nat.mul_le_mul (by omega) (by omega)
  have h3 : n * n * n ≤ 65535 * 65535 * 65535 := Nat.mul_le_mul h2 (by omega)
  have h4 : n * n * n * n = n ^ 4 := by ring
  have hlt := h.points_lt
  rw [pointCount, h.dim_eq, Word.mul, if_pos (by simp only [UInt64.size]; omega), Checked.ok_bind,
    Word.mul, if_pos (by simp only [UInt64.size]; omega), Checked.ok_bind, Word.mul,
    if_pos (by simp only [UInt64.size]; omega), h4]

theorem points_eq (h : l.Counted n) :
    l.points = .ok ((List.range (n ^ 4)).map (pointOfDigits n)) := by
  rw [points, h.pointCount_eq, Checked.ok_bind, h.dim_eq]
  rfl

end Counted

namespace Numbered

theorem counted (h : l.Numbered n) : l.Counted n := by
  have hlt := h.links_lt
  exact ⟨h.dim_eq, by omega⟩

theorem lt_65536 (h : l.Numbered n) : n < 65536 := h.counted.lt_65536

theorem periodic (h : l.Numbered n) : l.Periodic n := h.counted.periodic

theorem pointCount_eq (h : l.Numbered n) : l.pointCount = .ok (n ^ 4) := h.counted.pointCount_eq

theorem linkCount_eq (h : l.Numbered n) : l.linkCount = .ok (4 * n ^ 4) := by
  have hlt := h.links_lt
  rw [linkCount, h.pointCount_eq, Checked.ok_bind, Word.mul_eq_ok_iff, Direction.count]
  exact ⟨by simp only [UInt64.size]; omega, by ring⟩

theorem points_eq (h : l.Numbered n) :
    l.points = .ok ((List.range (n ^ 4)).map (pointOfDigits n)) := h.counted.points_eq

/-- There are no links with other numbers. -/
theorem linkAt_of_le (h : l.Numbered n) {i : ℕ} (hi : 4 * n ^ 4 ≤ i) : l.linkAt i = .ok none := by
  have hpoint : ¬ i / 4 < n ^ 4 := by omega
  rw [linkAt, pointAt, Direction.count, h.pointCount_eq, Checked.ok_bind, if_neg hpoint]
  rfl

variable [NeZero n]

/-- The number of a point is that of its site. -/
theorem pointIndex_eq (h : l.Numbered n) (p : Point) :
    l.pointIndex p = .ok (p.site n).number :=
  h.periodic.pointIndex_eq_ok_iff.2 ⟨rfl, (Site.number_lt _).trans h.counted.points_lt⟩

/-- The number of a link is that of its site and direction. -/
theorem linkIndex_eq (h : l.Numbered n) (p : Point) (μ : Fin 4) :
    l.linkIndex ⟨p, .along μ⟩ = .ok ((p.site n).linkNumber μ) :=
  h.periodic.linkIndex_eq_ok_iff.2 ⟨rfl, (Site.linkNumber_lt _ μ).trans h.links_lt⟩

/-- The link with the number of a site and a direction. -/
theorem linkAt_linkNumber (h : l.Numbered n) (x : Site n) (μ : Fin 4) :
    l.linkAt (x.linkNumber μ) = .ok (some ⟨x.point, .along μ⟩) := by
  have hdir : Direction.ofIndex? (UInt64.ofNat μ) = some (.along μ) := by
    revert μ
    decide
  rw [linkAt, pointAt, Direction.count, Site.linkNumber_div, Site.linkNumber_mod, h.pointCount_eq,
    Checked.ok_bind, if_pos (Site.number_lt x), Checked.pure_eq, Checked.ok_bind, hdir, h.dim_eq,
    ← Site.point_ofNumber, Site.ofNumber_number]
  rfl

end Numbered

/-! ### Phases -/

/-- The links in one direction that leave the points of one parity, in the order of their
numbers. -/
def phase (n : ℕ) (μ : Fin 4) (q : Parity) : List Link :=
  ((List.range (n ^ 4)).filter fun i =>
    decide (Parity.ofSum (Site.ofNumber n i).height = q)).map fun i =>
      ⟨pointOfDigits n i, .along μ⟩

/-- The eight pairs of a direction and a parity, in the order in which a sweep visits them. -/
def phaseOrder : List (Fin 4 × Parity) :=
  (List.finRange 4).flatMap fun μ => Parity.order.map fun q => (μ, q)

section

variable [NeZero n]

theorem mem_phase {μ : Fin 4} {q : Parity} {k : Link} :
    k ∈ phase n μ q ↔
      ∃ x : Site n, Parity.ofSum x.height = q ∧ k = ⟨x.point, .along μ⟩ := by
  simp only [phase, List.mem_map, List.mem_filter, List.mem_range, decide_eq_true_eq]
  constructor
  · rintro ⟨i, ⟨-, hq⟩, rfl⟩
    exact ⟨Site.ofNumber n i, hq, by rw [Site.point_ofNumber]⟩
  · rintro ⟨x, hq, rfl⟩
    refine ⟨x.number, ⟨Site.number_lt x, ?_⟩, ?_⟩
    · rwa [Site.ofNumber_number]
    · rw [← Site.point_ofNumber, Site.ofNumber_number]

/-- Points determine their numbers below `n ^ 4`. -/
theorem pointOfDigits_inj (h : n < 2 ^ 63) {i j : ℕ} (hi : i < n ^ 4) (hj : j < n ^ 4)
    (hij : pointOfDigits n i = pointOfDigits n j) : i = j := by
  rw [← Site.point_ofNumber, ← Site.point_ofNumber] at hij
  rw [← Site.number_ofNumber hi, Site.point_injective h hij, Site.number_ofNumber hj]

/-- A phase visits no link twice. -/
theorem nodup_phase (h : n < 2 ^ 63) (μ : Fin 4) (q : Parity) : (phase n μ q).Nodup := by
  refine (List.nodup_range.filter _).map_on ?_
  intro i hi j hj hij
  have hi' : i < n ^ 4 := List.mem_range.1 (List.mem_filter.1 hi).1
  have hj' : j < n ^ 4 := List.mem_range.1 (List.mem_filter.1 hj).1
  exact pointOfDigits_inj h hi' hj' (congrArg Link.pos hij)

namespace Counted

theorem linksWithParity_eq (h : l.Counted n) (μ : Fin 4) (q : Parity) :
    l.linksWithParity (.along μ) q = .ok (phase n μ q) := by
  have hn := h.lt_65536
  have hparity : ∀ p : Point, (do return decide ((← l.parity p) = q) : Checked Bool)
      = .ok (decide (Parity.ofSum (p.site n).height = q)) := by
    intro p
    rw [h.periodic.parity_eq (by omega), Checked.ok_bind, Checked.pure_eq]
  rw [linksWithParity, h.points_eq, Checked.ok_bind,
    Checked.filterM_eq_ok fun p _ => hparity p, Checked.ok_bind, List.filter_map, List.map_map,
    Checked.pure_eq, phase]
  congr 2
  refine List.filter_congr fun i _ => ?_
  rw [Function.comp_apply, ← Site.point_ofNumber, Site.site_point (by omega)]

/-- The phases of a sweep are the links of each direction, sorted by parity. -/
theorem phases_eq (h : l.Counted n) :
    l.phases = .ok (phaseOrder.map fun μq => phase n μq.1 μq.2) := by
  have hpairs : (Direction.all.flatMap fun d => Parity.order.map fun q => (d, q))
      = phaseOrder.map fun μq => (Direction.along μq.1, μq.2) := by
    rw [Direction.all_eq]
    rfl
  rw [phases, hpairs, List.mapM_map]
  exact Checked.mapM_eq_ok fun μq _ => h.linksWithParity_eq μq.1 μq.2

end Counted

theorem Numbered.phases_eq (h : l.Numbered n) :
    l.phases = .ok (phaseOrder.map fun μq => phase n μq.1 μq.2) := h.counted.phases_eq

end

/-- There are phases exactly when the number of points is a word. -/
theorem exists_phases_iff (h : 0 < l.dim.toNat) :
    (∃ phases, l.phases = .ok phases) ↔ l.dim.toNat ^ 4 < 2 ^ 64 := by
  have : NeZero l.dim.toNat := ⟨h.ne'⟩
  constructor
  · rintro ⟨phases, hphases⟩
    cases hcount : l.pointCount with
    | ok m =>
        obtain ⟨rfl, hlt⟩ := pointCount_eq_of_ok hcount
        exact hlt
    | error fault =>
        have hlinks : l.linksWithParity ⟨0⟩ .even = .error fault := by
          rw [linksWithParity, points, hcount]
          rfl
        exact absurd hphases (Checked.mapM_ne_ok (a := (⟨0⟩, .even)) (by decide) hlinks phases)
  · intro hlt
    exact ⟨_, (⟨rfl, hlt⟩ : l.Counted l.dim.toNat).phases_eq⟩

end Lattice

end PureGauge
