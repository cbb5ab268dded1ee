/-
**The local actions of all links.**

The local action of a link is `-β` times the sum of its plaquettes, and the average plaquette is the
mean of all plaquettes of the lattice.  As all links together name every square four times, the
local actions add up to four times the action, so that either can be found from the other.  This
holds on lattices of every size, also on those with one or two points in each direction, where a
link meets the same square more than once.

Main definitions:

* `PureGauge.LinkField.squareValue` — the value of a square.

Main results:

* `PureGauge.LinkField.Fills.plaquetteSum_squares` — a link adds up the values of its squares;
* `PureGauge.Configuration.sum_plaquetteSum` — all links add up four times the values of all
  squares;
* `PureGauge.LatticeState.Complete.sum_localAction` — the local actions and the average plaquette.
-/
import PureGauge.Proofs.Lattice.Squares
import PureGauge.Proofs.State.Queries
import PureGauge.Proofs.State.Replacement

namespace PureGauge

/-! ### Values of squares -/

namespace LinkField

section

variable {R : Type} {f : LinkField R} {l : Lattice} {n : ℕ} [NeZero n] [Zero R] [One R] [Add R]
  [Sub R] [Mul R] [Neg R] [Div R] [NatCast R] {p : Point} {μ : Fin 4} {q : Square}

/-- The value of a square. -/
def squareValue (f : LinkField R) (l : Lattice) (q : Square) : Checked R :=
  f.plaquette l q.pos q.first q.second

/-- The value of a square of a link is found in the configuration. -/
theorem Fills.squareValue_of_mem_around (h : f.Fills l n) (hp : p.Clear μ)
    (hq : q ∈ Square.around p μ) :
    ∃ ν, q.first = .along μ ∧ q.second = .along ν ∧
      f.squareValue l q =
        .ok (meanTrace ((f.configuration n).plaquetteMatrix (q.pos.site n) μ ν)) := by
  obtain ⟨ν, hν, rfl | rfl⟩ := Square.mem_around.1 hq
  · exact ⟨ν, rfl, rfl, h.plaquette_eq hν.symm (hp.shift_ahead hν).1 (hp.shift_ahead hν).2⟩
  · exact ⟨ν, rfl, rfl, h.plaquette_eq hν.symm (hp.shift_behind hν).1 (hp.shift_behind hν).2⟩

end

end LinkField

variable {F : Type} [Field F] {n : ℕ} [NeZero n]

omit [NeZero n] in
theorem Configuration.meanTrace_comm (U : Configuration F n) (x : Site n) (μ ν : Fin 4) :
    LinkField.meanTrace (U.plaquetteMatrix x μ ν) =
      LinkField.meanTrace (U.plaquetteMatrix x ν μ) := by
  rw [LinkField.meanTrace, LinkField.meanTrace, ← adjoint_plaquetteMatrix U x ν μ,
    Mat3.re_trace_adjoint]

namespace LinkField.Fills

variable {f : LinkField F} {l : Lattice} {p : Point} {μ : Fin 4}

/-- A link adds up the values of its squares. -/
theorem plaquetteSum_squares (h : f.Fills l n) (hp : p.Clear μ) :
    ∃ values, (Square.around p μ).mapM (f.squareValue l) = .ok values ∧
      f.plaquetteSum l ⟨p, .along μ⟩ = .ok values.sum := by
  have hpair : ∀ ν ∈ Direction.others μ,
      [⟨p, .along μ, .along ν⟩, ⟨p.moved ν (-1), .along μ, .along ν⟩].mapM (f.squareValue l) =
        .ok [meanTrace ((f.configuration n).plaquetteMatrix (p.site n) μ ν),
          meanTrace ((f.configuration n).plaquetteMatrix (p.site n - Site.step n ν) μ ν)] := by
    intro ν hν
    have hνμ : ν ≠ μ := Direction.mem_others.1 hν
    rw [List.mapM_cons, squareValue,
      h.plaquette_eq hνμ.symm (hp.shift_ahead hνμ).1 (hp.shift_ahead hνμ).2, Checked.ok_bind,
      List.mapM_cons, squareValue, h.plaquette_behind_eq hp hνμ]
    rfl
  refine ⟨_, Checked.mapM_flatMap_eq_ok hpair, ?_⟩
  rw [h.plaquetteSum_eq hp, Configuration.plaquetteSum, realSum_eq_sum, List.flatMap_def,
    List.sum_flatten, List.map_map]
  simp only [Function.comp_def, List.sum_cons, List.sum_nil, add_zero]

/-- Squares with the same place have the same value. -/
theorem squareValue_eq_of_place (h : f.Fills l n) {p p' : Point} {μ μ' : Fin 4} (hp : p.Clear μ)
    (hp' : p'.Clear μ') {q q' : Square} (hq : q ∈ Square.around p μ)
    (hq' : q' ∈ Square.around p' μ') (hplace : q.place n = q'.place n) :
    f.squareValue l q = f.squareValue l q' := by
  obtain ⟨ν, hfirst, hsecond, hvalue⟩ := h.squareValue_of_mem_around hp hq
  obtain ⟨ν', hfirst', hsecond', hvalue'⟩ := h.squareValue_of_mem_around hp' hq'
  rw [Square.place, Square.place, Prod.mk.injEq, Sym2.eq_iff, hfirst, hsecond, hfirst',
    hsecond'] at hplace
  obtain ⟨hsite, hdirs⟩ := hplace
  simp only [Direction.along_inj] at hdirs
  rw [hvalue, hvalue', hsite]
  rcases hdirs with ⟨rfl, rfl⟩ | ⟨rfl, rfl⟩
  · rfl
  · rw [Configuration.meanTrace_comm]

end LinkField.Fills

/-! ### Sums -/

/-- All links add up four times the values of all squares. -/
theorem Configuration.sum_plaquetteSum (U : Configuration F n) :
    ∑ x, ∑ μ, U.plaquetteSum x μ = 4 * (U.total / ((3 : ℕ) : F)) := by
  have hsum : ∀ x μ, U.plaquetteSum x μ = ((Direction.others μ).map fun ν =>
      LinkField.meanTrace (U.plaquetteMatrix x μ ν) +
        LinkField.meanTrace (U.plaquetteMatrix (x - Site.step n ν) μ ν)).sum :=
    fun x μ => realSum_eq_sum _
  simp only [hsum]
  rw [Site.sum_around fun x μ ν => U.meanTrace_comm x μ ν, ← total_div_three, nsmul_eq_mul,
    Nat.cast_ofNat]

namespace LatticeState

variable {s : LatticeState F}

/-- The local actions add up to four times the action. -/
theorem exists_localActions (h : s.links.Fills s.lattice n) :
    ∃ actions, (Lattice.linkList n).mapM s.localAction = .ok actions ∧
      actions.sum = 4 * s.energy n := by
  have hlt := h.numbered.lt_65536
  have haction : ∀ xμ : Site n × Fin 4, s.localAction (Site.link xμ) =
      .ok (-s.beta * (s.links.configuration n).plaquetteSum xμ.1 xμ.2) := by
    intro xμ
    rw [Site.link, localAction_eq h ((Site.point_inner (by omega) xμ.1).clear xμ.2),
      Site.site_point (by omega)]
  refine ⟨_, Lattice.mapM_linkList haction, ?_⟩
  rw [Lattice.sum_alongLinks]
  simp only [← Finset.mul_sum, Configuration.sum_plaquetteSum, energy]
  ring

/-- The action is found from the average plaquette, if that can be divided by the number of
squares. -/
theorem energy_eq_average (h : s.links.Fills s.lattice n) {average : F}
    (haverage : s.averagePlaquette = .ok average) (hcount : ((6 * n ^ 4 : ℕ) : F) ≠ 0) :
    s.energy n = -s.beta * (6 * n ^ 4 * average) := by
  have hcast : (6 * n ^ 4 : F) = ((6 * n ^ 4 : ℕ) : F) := by push_cast; rfl
  rw [energy, eq_of_averagePlaquette h haverage, hcast, mul_div_cancel₀ _ hcount]

/-- **The local actions and the average plaquette agree.**  The links of the lattice name `6 n ^ 4`
different squares, each of them four times, under whichever point and order of its directions: names
of one place have one value, and the plaquettes of a link are the values of the squares that it
names.  So the local actions of all links add up to `-24 β n ^ 4` times the average plaquette,
whatever the size of the lattice is, over every field in which the average can be divided by the
number of squares. -/
theorem Complete.sum_localAction (h : s.Complete) :
    ∃ links squares actions,
      s.lattice.links = .ok links ∧ links.mapM Link.squares = .ok squares ∧
      links.mapM s.localAction = .ok actions ∧
      (∀ k ∈ links, ∃ names values, k.squares = .ok names ∧
        names.mapM (s.links.squareValue s.lattice) = .ok values ∧
        s.links.plaquetteSum s.lattice k = .ok values.sum) ∧
      (∀ q ∈ squares.flatten, ∀ q' ∈ squares.flatten,
        q.place s.lattice.dim.toNat = q'.place s.lattice.dim.toNat →
          s.links.squareValue s.lattice q = s.links.squareValue s.lattice q') ∧
      (squares.flatten.map (Square.place s.lattice.dim.toNat)).toFinset.card =
        6 * s.lattice.dim.toNat ^ 4 ∧
      (∀ (x : Site s.lattice.dim.toNat) (μ ν : Fin 4), μ ≠ ν →
        (squares.flatten.map (Square.place s.lattice.dim.toNat)).count (x, s(.along μ, .along ν)) =
          4) ∧
      (6 * s.lattice.dim.toNat ^ 4 < 2 ^ 64 → ∃ average, s.averagePlaquette = .ok average) ∧
      ∀ average, s.averagePlaquette = .ok average → ((6 * s.lattice.dim.toNat ^ 4 : ℕ) : F) ≠ 0 →
        actions.sum = -24 * s.beta * s.lattice.dim.toNat ^ 4 * average := by
  have : NeZero s.lattice.dim.toNat := ⟨h.dim_pos.ne'⟩
  have hfills := h.fills
  have hlt := hfills.numbered.lt_65536
  have hclear : ∀ (x : Site s.lattice.dim.toNat) (μ : Fin 4), x.point.Clear μ :=
    fun x μ => (Site.point_inner (by omega) x).clear μ
  obtain ⟨actions, hactions, hsum⟩ := exists_localActions hfills
  refine ⟨_, _, actions, hfills.numbered.links_eq, Lattice.mapM_squares (by omega), hactions, ?_,
    ?_, Lattice.card_places (by omega), fun x μ ν hμν => Lattice.count_places (by omega) x hμν,
    h.exists_average, ?_⟩
  · intro k hk
    obtain ⟨x, μ, rfl⟩ := Lattice.mem_linkList.1 hk
    obtain ⟨values, hvalues, hvalue⟩ := hfills.plaquetteSum_squares (hclear x μ)
    exact ⟨_, values, Link.squares_eq (hclear x μ), hvalues, hvalue⟩
  · intro q hq q' hq' hplace
    obtain ⟨x, μ, hq⟩ := Lattice.mem_flatten_squareList.1 hq
    obtain ⟨x', μ', hq'⟩ := Lattice.mem_flatten_squareList.1 hq'
    exact hfills.squareValue_eq_of_place (hclear x μ) (hclear x' μ') hq hq' hplace
  · intro average haverage hcount
    rw [hsum, energy_eq_average hfills haverage hcount]
    ring

theorem sum_localAction_gradedState :
    ∃ links actions average, gradedState.lattice.links = .ok links ∧
      links.mapM gradedState.localAction = .ok actions ∧
        gradedState.averagePlaquette = .ok average ∧
      actions.sum = -24 * 5 * 2 ^ 4 * average := by
  have hcomplete : gradedState.Complete := ⟨by decide, by decide, by decide⟩
  obtain ⟨links, -, actions, hlinks, -, hactions, -, -, -, -, hexists, hsum⟩ :=
    hcomplete.sum_localAction
  obtain ⟨average, haverage⟩ := hexists (by decide)
  have hcount : ((6 * gradedState.lattice.dim.toNat ^ 4 : ℕ) : ℚ) ≠ 0 :=
    Nat.cast_ne_zero.2 (by decide)
  exact ⟨links, actions, average, hlinks, hactions, haverage, hsum average haverage hcount⟩

end LatticeState

end PureGauge
