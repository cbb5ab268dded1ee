/-
**Bounds of what can be measured.**

If all matrices of a field are unitary, so is the product around every square, and its value lies
between minus one and one.  The six squares of a link then bound its local action, and the average
plaquette lies between minus one and one as well.  It is one only if it is one for every square, and
the product around a square has this value only if it is the identity, as for the field of
identities.

Main results:

* `PureGauge.LinkField.abs_plaquette_le`, `PureGauge.LatticeState.abs_localAction_le` — a single
  square, and the squares of a link;
* `PureGauge.LatticeState.average_eq_one_iff` — the average plaquette is one for flat configurations
  only;
* `PureGauge.LatticeState.Complete.measured_bounds` — the bounds of all three.
-/
import PureGauge.Proofs.SU3.Unitary
import PureGauge.Proofs.State.Energy
import PureGauge.Proofs.State.Queries
import Mathlib.Algebra.Order.BigOperators.Group.Finset
import Mathlib.Algebra.Order.BigOperators.Group.List
import Mathlib.Algebra.Order.Field.Basic

namespace PureGauge

section

variable {F : Type} [Field F]

/-! ### The squares of a lattice -/

namespace LinkField

variable {f : LinkField F} {l : Lattice}

/-- The product around a square of unitary matrices is unitary. -/
theorem isUnitary_of_plaquetteMatrix (hf : ∀ m ∈ f.data, m.IsUnitary) {x : Point} {μ ν : Direction}
    {m : Mat3 F} (h : f.plaquetteMatrix l x μ ν = .ok m) : m.IsUnitary := by
  rw [plaquetteMatrix] at h
  split at h
  · cases h
  · obtain ⟨a, ha, h⟩ := Checked.bind_eq_ok_iff.1 h
    obtain ⟨ahead, -, h⟩ := Checked.bind_eq_ok_iff.1 h
    obtain ⟨b, hb, h⟩ := Checked.bind_eq_ok_iff.1 h
    obtain ⟨aside, -, h⟩ := Checked.bind_eq_ok_iff.1 h
    obtain ⟨c, hc, h⟩ := Checked.bind_eq_ok_iff.1 h
    obtain ⟨d, hd, h⟩ := Checked.bind_eq_ok_iff.1 h
    cases h
    exact .square (hf a (mem_data_of_link ha)) (hf b (mem_data_of_link hb))
      (hf c (mem_data_of_link hc))
      (hf d (mem_data_of_link hd))

/-- The matrices of a configuration are those of the field. -/
theorem Fills.configuration_mem {n : ℕ} [NeZero n] (h : f.Fills l n) (x : Site n) (μ : Fin 4) :
    f.configuration n x μ ∈ f.data :=
  Array.mem_of_getElem? (h.getElem?_eq x μ)

/-- The field of identities has one matrix for each link, and is not larger than what can be
stored. -/
theorem eq_replicate_of_cold {n : ℕ} (h : l.Numbered n) (hf : LinkField.cold l = .ok f) :
    f = ⟨Array.replicate (4 * n ^ 4) 1⟩ ∧ 6 * n ^ 4 < 2 ^ 64 := by
  rw [cold, h.linkCount_eq, Checked.ok_bind] at hf
  obtain ⟨_, hroom, hf⟩ := Checked.bind_eq_ok_iff.1 hf
  cases hf
  have hfits : ((144 * (4 * n ^ 4) : ℕ) : ℤ) ≤ 2 ^ 63 - 1 := Storage.room_eq_ok_iff.1 hroom
  exact ⟨rfl, by omega⟩

end LinkField

namespace Configuration

variable {n : ℕ} {U : Configuration F n}

theorem isUnitary_plaquetteMatrix (hU : ∀ x μ, (U x μ).IsUnitary) (x : Site n) (μ ν : Fin 4) :
    (U.plaquetteMatrix x μ ν).IsUnitary :=
  .square (hU _ _) (hU _ _) (hU _ _) (hU _ _)

/-- The products around a square both ways are identities together. -/
theorem plaquetteMatrix_eq_one_comm {x : Site n} {μ ν : Fin 4} (h : U.plaquetteMatrix x μ ν = 1) :
    U.plaquetteMatrix x ν μ = 1 := by
  rw [← adjoint_plaquetteMatrix, h, Mat3.adjoint_one]

variable [NeZero n]

/-- The squares of a lattice: for each site the six pairs of directions. -/
def squares (n : ℕ) [NeZero n] : Finset (Site n × Fin 4 × Fin 4) :=
  Finset.univ ×ˢ Direction.pairs.toFinset

theorem card_squares : (squares n).card = 6 * n ^ 4 := by
  have hpairs : Direction.pairs.toFinset.card = 6 := by decide
  rw [squares, Finset.card_product, hpairs, Finset.card_univ, Fintype.card_pi, Finset.prod_const,
    ZMod.card, Finset.card_univ, Fintype.card_fin, Nat.mul_comm]

/-- A third of the sum of all traces is the sum of the values of the squares. -/
theorem sum_squares (U : Configuration F n) :
    ∑ q ∈ squares n, LinkField.meanTrace (U.plaquetteMatrix q.1 q.2.1 q.2.2) =
      U.total / ((3 : ℕ) : F) := by
  have hnodup : Direction.pairs.Nodup := by decide
  rw [total_div_three, squares, Finset.sum_product]
  exact Finset.sum_congr rfl fun x _ => List.sum_toFinset _ hnodup

end Configuration

/-- The average plaquette is the mean of the values of all squares. -/
theorem LatticeState.eq_mean_of_averagePlaquette {s : LatticeState F} {n : ℕ} [NeZero n] {r : F}
    (h : s.links.Fills s.lattice n) (hr : s.averagePlaquette = .ok r) :
    r = (∑ q ∈ Configuration.squares n, LinkField.meanTrace
      ((s.links.configuration n).plaquetteMatrix q.1 q.2.1 q.2.2)) /
        ((Configuration.squares n).card : F) := by
  rw [eq_of_averagePlaquette h hr, Configuration.sum_squares, Configuration.card_squares]

end

variable {F : Type} [Field F] [LinearOrder F] [IsStrictOrderedRing F]

/-! ### Sums and means of bounded values -/

theorem abs_sum_le {vs : List F} {c : F} (h : ∀ v ∈ vs, |v| ≤ c) : |vs.sum| ≤ vs.length • c := by
  refine abs_le.2 ⟨?_, List.sum_le_card_nsmul vs c fun v hv => (abs_le.1 (h v hv)).2⟩
  rw [← neg_nsmul]
  exact List.card_nsmul_le_sum vs (-c) fun v hv => (abs_le.1 (h v hv)).1

theorem abs_mean_le {ι : Type} {S : Finset ι} {f : ι → F} (h : ∀ i ∈ S, |f i| ≤ 1) :
    |(∑ i ∈ S, f i) / (S.card : F)| ≤ 1 := by
  have hsum : |∑ i ∈ S, f i| ≤ S.card := by
    calc |∑ i ∈ S, f i| ≤ ∑ i ∈ S, |f i| := Finset.abs_sum_le_sum_abs f S
      _ ≤ S.card • (1 : F) := Finset.sum_le_card_nsmul S _ 1 h
      _ = S.card := nsmul_one _
  rw [abs_div, Nat.abs_cast]
  exact div_le_one_of_le₀ hsum (Nat.cast_nonneg _)

/-- A mean of values that are at most one is one only if all of them are. -/
theorem mean_eq_one_iff {ι : Type} {S : Finset ι} {f : ι → F} (hS : S.Nonempty)
    (h : ∀ i ∈ S, f i ≤ 1) :
    (∑ i ∈ S, f i) / (S.card : F) = 1 ↔ ∀ i ∈ S, f i = 1 := by
  have hcard : (S.card : F) = ∑ i ∈ S, 1 := by rw [Finset.sum_const, nsmul_one]
  rw [div_eq_one_iff_eq (Nat.cast_ne_zero.2 hS.card_ne_zero), hcard, Finset.sum_eq_sum_iff_of_le h]

/-! ### Bounds -/

namespace LinkField

/-- The value of a unitary product. -/
theorem abs_meanTrace_le {m : Mat3 F} (h : m.IsUnitary) : |meanTrace m| ≤ 1 := by
  rw [meanTrace, abs_div, Nat.abs_cast]
  exact div_le_one_of_le₀ h.abs_re_trace_le (Nat.cast_nonneg _)

theorem meanTrace_eq_one_iff {m : Mat3 F} (h : m.IsUnitary) : meanTrace m = 1 ↔ m = 1 := by
  rw [meanTrace, div_eq_one_iff_eq (Nat.cast_ne_zero.2 (by decide)), ← h.re_trace_eq_three_iff,
    Nat.cast_ofNat]

variable {f : LinkField F} {l : Lattice}

theorem abs_plaquette_le (hf : ∀ m ∈ f.data, m.IsUnitary) {x : Point} {μ ν : Direction} {r : F}
    (h : f.plaquette l x μ ν = .ok r) : |r| ≤ 1 := by
  obtain ⟨m, hm, h⟩ := Checked.bind_eq_ok_iff.1 h
  cases h
  exact abs_meanTrace_le (isUnitary_of_plaquetteMatrix hf hm)

/-- There are at most three other directions, and two squares for each. -/
theorem abs_plaquetteSum_le (hf : ∀ m ∈ f.data, m.IsUnitary) {k : Link} {r : F}
    (h : f.plaquetteSum l k = .ok r) : |r| ≤ 6 := by
  obtain ⟨ds, hds, h⟩ := Checked.bind_eq_ok_iff.1 h
  obtain ⟨values, hvalues, h⟩ := Checked.bind_eq_ok_iff.1 h
  cases h
  have htwo : ∀ v ∈ values, |v| ≤ 2 := by
    refine Checked.forall_of_mapM_eq_ok (fun ν _ v hv => ?_) hvalues
    obtain ⟨ahead, hahead, hv⟩ := Checked.bind_eq_ok_iff.1 hv
    obtain ⟨p, -, hv⟩ := Checked.bind_eq_ok_iff.1 hv
    obtain ⟨behind, hbehind, hv⟩ := Checked.bind_eq_ok_iff.1 hv
    cases hv
    calc |ahead + behind| ≤ |ahead| + |behind| := abs_add_le ahead behind
      _ ≤ 1 + 1 := add_le_add (abs_plaquette_le hf hahead) (abs_plaquette_le hf hbehind)
      _ = 2 := one_add_one_eq_two
  have hthree : values.length ≤ 3 := by
    rw [← (Checked.forall₂_of_mapM_eq_ok hvalues).length_eq]
    exact Direction.length_le_of_orthogonal hds
  rw [realSum_eq_sum]
  calc |values.sum| ≤ values.length • (2 : F) := abs_sum_le htwo
    _ ≤ 3 • (2 : F) := nsmul_le_nsmul_left zero_le_two hthree
    _ = 6 := by norm_num

end LinkField

/-- A mean of one over all squares makes the products around all squares identities. -/
theorem Configuration.mean_squares_eq_one_iff {n : ℕ} [NeZero n] {U : Configuration F n}
    (hU : ∀ x μ, (U x μ).IsUnitary) :
    (∑ q ∈ squares n, LinkField.meanTrace (U.plaquetteMatrix q.1 q.2.1 q.2.2)) /
      ((squares n).card : F) = 1 ↔
      ∀ (x : Site n) (μ ν : Fin 4), μ ≠ ν → U.plaquetteMatrix x μ ν = 1 := by
  have hvalue : ∀ q : Site n × Fin 4 × Fin 4,
      LinkField.meanTrace (U.plaquetteMatrix q.1 q.2.1 q.2.2) = 1 ↔
        U.plaquetteMatrix q.1 q.2.1 q.2.2 = 1 :=
    fun q => LinkField.meanTrace_eq_one_iff (isUnitary_plaquetteMatrix hU ..)
  have hnonempty : (squares n).Nonempty := by
    rw [← Finset.card_pos, card_squares]
    exact Nat.mul_pos (by decide) (Nat.pow_pos (NeZero.pos n))
  rw [mean_eq_one_iff hnonempty fun q _ =>
    (abs_le.1 (LinkField.abs_meanTrace_le (isUnitary_plaquetteMatrix hU ..))).2]
  simp only [hvalue, squares, Finset.mem_product, Finset.mem_univ, true_and, List.mem_toFinset]
  constructor
  · intro hpairs x μ ν hμν
    rcases Direction.mem_pairs_or hμν with hmem | hmem
    · exact hpairs (x, μ, ν) hmem
    · exact plaquetteMatrix_eq_one_comm (hpairs (x, ν, μ) hmem)
  · intro hall q hq
    exact hall q.1 q.2.1 q.2.2 (Direction.ne_of_mem_pairs hq)

namespace LatticeState

variable {s : LatticeState F} {r : F}

theorem abs_localAction_le (hbeta : 0 ≤ s.beta) (hs : ∀ m ∈ s.links.data, m.IsUnitary) {k : Link}
    (h : s.localAction k = .ok r) : |r| ≤ 6 * s.beta := by
  obtain ⟨sum, hsum, h⟩ := Checked.bind_eq_ok_iff.1 h
  cases h
  rw [abs_mul, abs_neg, abs_of_nonneg hbeta, mul_comm]
  exact mul_le_mul_of_nonneg_right (LinkField.abs_plaquetteSum_le hs hsum) hbeta

section

variable {n : ℕ} [NeZero n]

theorem abs_average_le (h : s.links.Fills s.lattice n) (hs : ∀ m ∈ s.links.data, m.IsUnitary)
    (hr : s.averagePlaquette = .ok r) : |r| ≤ 1 := by
  rw [eq_mean_of_averagePlaquette h hr]
  exact abs_mean_le fun q _ => LinkField.abs_meanTrace_le
    (Configuration.isUnitary_plaquetteMatrix (fun x μ => hs _ (h.configuration_mem x μ)) ..)

/-- The average plaquette is one exactly if the product around every square is the identity. -/
theorem average_eq_one_iff (h : s.links.Fills s.lattice n) (hs : ∀ m ∈ s.links.data, m.IsUnitary)
    (hr : s.averagePlaquette = .ok r) :
    r = 1 ↔ ∀ (p : Point) (μ ν : Fin 4) (m : Mat3 F),
      s.links.plaquetteMatrix s.lattice p (.along μ) (.along ν) = .ok m → m = 1 := by
  have hlt := h.numbered.lt_65536
  rw [eq_mean_of_averagePlaquette h hr,
    Configuration.mean_squares_eq_one_iff fun x μ => hs _ (h.configuration_mem x μ)]
  constructor
  · intro hall p μ ν m hm
    obtain ⟨hμν, rfl⟩ := h.eq_of_plaquetteMatrix hm
    exact hall (p.site n) μ ν hμν
  · intro hall x μ ν hμν
    have hinner := Site.point_inner (n := n) (by omega) x
    have hx := h.plaquetteMatrix_eq hμν (hinner.shift_one μ) (hinner.shift_one ν)
    rw [Site.site_point (by omega)] at hx
    exact hall x.point μ ν _ hx

end

/-- With the field of identities the average plaquette is one. -/
theorem averagePlaquette_cold (h : s.Complete) {f : LinkField F}
    (hf : LinkField.cold s.lattice = .ok f) :
    ({ s with links := f } : LatticeState F).averagePlaquette = .ok 1 := by
  have : NeZero s.lattice.dim.toNat := ⟨h.dim_pos.ne'⟩
  obtain ⟨hdata, hcount⟩ := LinkField.eq_replicate_of_cold h.fills.numbered hf
  have hone : ∀ m ∈ f.data, m = 1 := by
    rintro m hm
    rw [hdata] at hm
    exact (Array.mem_replicate.1 hm).2
  have hcomplete : ({ s with links := f } : LatticeState F).Complete :=
    ⟨h.dim_pos, h.links_lt, by rw [hdata]; exact Array.size_replicate ..⟩
  obtain ⟨r, hr⟩ := hcomplete.exists_average hcount
  rw [hr, (average_eq_one_iff hcomplete.fills (fun m hm => hone m hm ▸ Mat3.IsUnitary.one) hr).2]
  intro p μ ν m hm
  obtain ⟨-, rfl⟩ := hcomplete.fills.eq_of_plaquetteMatrix hm
  simp only [Configuration.plaquetteMatrix, hone _ (hcomplete.fills.configuration_mem ..), mul_one,
    Mat3.adjoint_one]

/-- **Bounds of what can be measured.**  Let all matrices be unitary and the coupling not negative.
Every plaquette that can be asked for lies between minus one and one, every local action between
`-6 β` and `6 β`, and the average plaquette between minus one and one.  The average is one exactly
if every product around a square is the identity, as it is for the field of identities.  At the
points of the lattice all plaquettes and local actions can be asked for, and the average if the
number of plaquettes is a word. -/
theorem Complete.measured_bounds (h : s.Complete) (hbeta : 0 ≤ s.beta)
    (hs : ∀ m ∈ s.links.data, m.IsUnitary) :
    (∀ p μ ν r, s.links.plaquette s.lattice p μ ν = .ok r → |r| ≤ 1) ∧
      (∀ k r, s.localAction k = .ok r → |r| ≤ 6 * s.beta) ∧
      (∀ r, s.averagePlaquette = .ok r → |r| ≤ 1 ∧
        (r = 1 ↔ ∀ (p : Point) (μ ν : Fin 4) (m : Mat3 F),
          s.links.plaquetteMatrix s.lattice p (.along μ) (.along ν) = .ok m → m = 1)) ∧
      (∀ f, LinkField.cold s.lattice = .ok f →
        ({ s with links := f } : LatticeState F).averagePlaquette = .ok 1) ∧
      (∃ points, s.lattice.points = .ok points ∧ ∀ p ∈ points, ∀ μ : Fin 4,
        (∀ ν ≠ μ, ∃ r, s.links.plaquette s.lattice p (.along μ) (.along ν) = .ok r) ∧
          ∃ r, s.localAction ⟨p, .along μ⟩ = .ok r) ∧
      (6 * s.lattice.dim.toNat ^ 4 < 2 ^ 64 → ∃ r, s.averagePlaquette = .ok r) := by
  have : NeZero s.lattice.dim.toNat := ⟨h.dim_pos.ne'⟩
  have hlt := h.fills.numbered.lt_65536
  refine ⟨fun p μ ν r => LinkField.abs_plaquette_le hs, fun k r => abs_localAction_le hbeta hs,
    fun r hr => ⟨abs_average_le h.fills hs hr, average_eq_one_iff h.fills hs hr⟩,
    fun f => averagePlaquette_cold h, ⟨_, h.fills.numbered.points_eq, ?_⟩, h.exists_average⟩
  intro p hp μ
  obtain ⟨i, -, rfl⟩ := List.mem_map.1 hp
  have hinner := Site.point_inner (by omega) (Site.ofNumber s.lattice.dim.toNat i)
  rw [Site.point_ofNumber] at hinner
  exact ⟨fun ν hν => h.fills.exists_plaquette hν.symm (hinner.shift_one μ) (hinner.shift_one ν),
    ⟨_, localAction_eq h.fills (hinner.clear μ)⟩⟩

/-- A state on a single point with two matrices that do not commute. -/
def twistedState : LatticeState ℚ :=
  ⟨⟨1⟩, 5, ⟨#[.diagonal ⟨1, -1, -1⟩, ⟨⟨0, 1, 0⟩, ⟨0, 0, 1⟩, ⟨1, 0, 0⟩⟩, 1, 1]⟩⟩

theorem measured_bounds_twistedState :
    ∃ r, twistedState.averagePlaquette = .ok r ∧ |r| ≤ 1 ∧ r ≠ 1 ∧
      ∀ k a, twistedState.localAction k = .ok a → |a| ≤ 6 * 5 := by
  have hcomplete : twistedState.Complete := ⟨by decide, by decide, by decide⟩
  have hunitary : ∀ m ∈ twistedState.links.data, m.IsUnitary := by decide +kernel
  obtain ⟨-, hlocal, haverage, -, -, hexists⟩ :=
    hcomplete.measured_bounds (by decide +kernel) hunitary
  obtain ⟨r, hr⟩ := hexists (by decide)
  obtain ⟨hbound, hone⟩ := haverage r hr
  have htwist :
      twistedState.links.plaquetteMatrix twistedState.lattice .origin (.along 0) (.along 1) =
      .ok (.diagonal ⟨-1, -1, 1⟩) := by decide +kernel
  have hne : (.diagonal ⟨-1, -1, 1⟩ : Mat3 ℚ) ≠ 1 := by decide +kernel
  exact ⟨r, hr, hbound, fun h => hne (hone.1 h _ _ _ _ htwist), hlocal⟩

end LatticeState

end PureGauge
