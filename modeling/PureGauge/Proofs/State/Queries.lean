/-
**Whatever can be asked of a state has an answer.**

A state that holds one matrix for each link of its lattice can be asked for its average plaquette,
for single plaquettes, and for what surrounds a link.  None of the questions that name directions of
space-time and points that can be moved by one either way stops with a fault, and the points of the
lattice are such points.  The average needs in addition that the number of plaquettes, six for each
point, is a word.

Main definitions:

* `PureGauge.Query` — the questions, with `PureGauge.Query.Within` and `PureGauge.Query.ask`.

Main results:

* `PureGauge.LatticeState.Complete.exists_average` — the average plaquette can be computed;
* `PureGauge.LatticeState.Complete.exists_answer` — every question has an answer;
* `PureGauge.Lattice.Numbered.mapM_pointAt` — no point is missing among the points of a lattice.
-/
import PureGauge.Proofs.State.Change

namespace PureGauge

variable {R : Type} [Zero R] [One R] [Add R] [Sub R] [Mul R] [Neg R] [Div R] [NatCast R]

/-- A plaquette can be computed at a point that can be moved along its sides. -/
theorem LinkField.Fills.exists_plaquette {f : LinkField R} {l : Lattice} {n : ℕ} [NeZero n]
    (h : f.Fills l n) {x y z : Point} {μ ν : Fin 4} (hμν : μ ≠ ν)
    (hy : x.shift (.along μ) 1 = .ok y) (hz : x.shift (.along ν) 1 = .ok z) :
    ∃ r, f.plaquette l x (.along μ) (.along ν) = .ok r :=
  ⟨_, h.plaquette_eq hμν hy hz⟩

/-- No point is missing: each number below the number of points has a point, and these are the
points of the lattice. -/
theorem Lattice.Numbered.mapM_pointAt {l : Lattice} {n : ℕ} (h : l.Numbered n) :
    ∃ points, l.points = .ok points ∧ points.length = n ^ 4 ∧
      (List.range (n ^ 4)).mapM l.pointAt = .ok (points.map some) := by
  refine ⟨_, h.points_eq, by rw [List.length_map, List.length_range], ?_⟩
  have hpoint : ∀ i ∈ List.range (n ^ 4), l.pointAt i = .ok (some (pointOfDigits n i)) := by
    intro i hi
    rw [pointAt, h.pointCount_eq, Checked.ok_bind, if_pos (List.mem_range.1 hi), h.dim_eq]
    rfl
  rw [Checked.mapM_eq_ok hpoint, List.map_map]
  rfl

/-! ### Questions -/

/-- What a state can be asked for. -/
inductive Query (R : Type) where
  /-- The average plaquette. -/
  | average
  /-- The plaquette at a point in two directions. -/
  | plaquette (x : Point) (μ ν : Direction)
  /-- The sum over the six plaquettes of a link. -/
  | plaquetteSum (k : Link)
  /-- The local action of a link. -/
  | localAction (k : Link)
  /-- The local action of a link with another matrix in its place. -/
  | localActionReplacing (k : Link) (m : Mat3 R)
  /-- The staple of a link. -/
  | staple (k : Link)

/-- A link leaves its point in one of the four directions, and the point can be moved by one either
way. -/
def Link.Within (k : Link) : Prop := k.dir.index.toNat < Direction.count ∧ k.pos.Inner

instance (k : Link) : Decidable k.Within := inferInstanceAs (Decidable (_ ∧ _))

theorem Link.Within.exists_along {k : Link} (h : k.Within) :
    ∃ p μ, k = ⟨p, .along μ⟩ ∧ p.Inner := by
  obtain ⟨p, d⟩ := k
  obtain ⟨hd, hp⟩ := h
  obtain ⟨μ, rfl⟩ := Direction.exists_along hd
  exact ⟨p, μ, rfl, hp⟩

/-- The links of a lattice are within it. -/
theorem Lattice.Numbered.within_of_linkAt {l : Lattice} {n : ℕ} [NeZero n] (h : l.Numbered n)
    {i : ℕ} {k : Link} (hk : l.linkAt i = .ok (some k)) : k.Within := by
  have hi : i < 4 * n ^ 4 := by
    by_contra hi
    have hdiv : ¬ i / 4 < n ^ 4 := by omega
    rw [linkAt, pointAt, Direction.count, h.pointCount_eq, Checked.ok_bind, if_neg hdiv] at hk
    cases hk
  obtain ⟨x, μ, rfl⟩ := Site.exists_linkNumber hi
  rw [h.linkAt_linkNumber, Except.ok.injEq, Option.some.injEq] at hk
  subst hk
  have hlt := h.lt_65536
  refine ⟨?_, Site.point_inner (by omega) x⟩
  rw [Direction.toNat_index_along]
  exact μ.2

namespace Query

omit [Zero R] [One R] [Add R] [Sub R] [Mul R] [Neg R] [Div R] [NatCast R] in
/-- A question names directions of space-time, two different ones for a plaquette, and points that
can be moved by one either way. -/
def Within : Query R → Prop
  | average => True
  | plaquette x μ ν => (⟨x, μ⟩ : Link).Within ∧ (⟨x, ν⟩ : Link).Within ∧ μ ≠ ν
  | plaquetteSum k => k.Within
  | localAction k => k.Within
  | localActionReplacing k _ => k.Within
  | staple k => k.Within

omit [Zero R] [One R] [Add R] [Sub R] [Mul R] [Neg R] [Div R] [NatCast R] in
instance decidableWithin (q : Query R) : Decidable q.Within :=
  match q with
  | average => .isTrue trivial
  | plaquette x μ ν =>
      inferInstanceAs (Decidable ((⟨x, μ⟩ : Link).Within ∧ (⟨x, ν⟩ : Link).Within ∧ μ ≠ ν))
  | plaquetteSum k => inferInstanceAs (Decidable k.Within)
  | localAction k => inferInstanceAs (Decidable k.Within)
  | localActionReplacing k _ => inferInstanceAs (Decidable k.Within)
  | staple k => inferInstanceAs (Decidable k.Within)

/-- The answer of a state. -/
def ask (s : LatticeState R) : Query R → Checked (R ⊕ Mat3 R)
  | average => return .inl (← s.averagePlaquette)
  | plaquette x μ ν => return .inl (← s.links.plaquette s.lattice x μ ν)
  | plaquetteSum k => return .inl (← s.links.plaquetteSum s.lattice k)
  | localAction k => return .inl (← s.localAction k)
  | localActionReplacing k m => return .inl (← s.localActionReplacing k m)
  | staple k => return .inr (← s.staple k)

end Query

namespace LatticeState.Complete

variable {s : LatticeState R}

/-- The average plaquette can be computed. -/
theorem exists_average (h : s.Complete) (hcount : 6 * s.lattice.dim.toNat ^ 4 < 2 ^ 64) :
    ∃ r, s.averagePlaquette = .ok r := by
  have : NeZero s.lattice.dim.toNat := ⟨h.dim_pos.ne'⟩
  have hnumbered := h.fills.numbered
  have hlt := hnumbered.lt_65536
  have hpoint : ∀ i ∈ List.range (s.lattice.dim.toNat ^ 4),
      ∃ r, s.pointSum (Lattice.pointOfDigits s.lattice.dim.toNat i) = .ok r := by
    intro i _
    rw [← Site.point_ofNumber, pointSum, Direction.planes_eq, List.mapM_map]
    have hinner := Site.point_inner (by omega) (Site.ofNumber s.lattice.dim.toNat i)
    have hplane : ∀ μν ∈ Direction.pairs, ∃ r, s.links.plaquette s.lattice
        (Site.ofNumber s.lattice.dim.toNat i).point (.along μν.1) (.along μν.2) = .ok r :=
      fun μν hμν => h.fills.exists_plaquette (Direction.ne_of_mem_pairs hμν) (hinner.shift_one μν.1)
        (hinner.shift_one μν.2)
    obtain ⟨values, hvalues⟩ := Checked.exists_mapM_eq_ok hplane
    exact ⟨realSum values, by rw [Function.comp_def, hvalues]; rfl⟩
  obtain ⟨sums, hsums⟩ := Checked.exists_mapM_eq_ok hpoint
  have hsix : Word.mul 6 (s.lattice.dim.toNat ^ 4) = .ok (6 * s.lattice.dim.toNat ^ 4) :=
    Word.mul_eq_ok_iff.2 ⟨hcount, rfl⟩
  change ∃ r, (s.lattice.points >>= fun points => points.mapM s.pointSum >>= _) = .ok r
  rw [hnumbered.points_eq, Checked.ok_bind, List.mapM_map, Function.comp_def, hsums,
    Checked.ok_bind, hnumbered.pointCount_eq, Checked.ok_bind, hsix, Checked.ok_bind]
  exact ⟨_, rfl⟩

/-- Every question has an answer. -/
theorem exists_answer (h : s.Complete) (hcount : 6 * s.lattice.dim.toNat ^ 4 < 2 ^ 64) {q : Query R}
    (hq : q.Within) : ∃ a, q.ask s = .ok a := by
  have : NeZero s.lattice.dim.toNat := ⟨h.dim_pos.ne'⟩
  have hfills := h.fills
  cases q with
  | average =>
      obtain ⟨r, hr⟩ := h.exists_average hcount
      exact ⟨.inl r, by rw [Query.ask, hr]; rfl⟩
  | plaquette x μ ν =>
      obtain ⟨⟨hμ, hx⟩, ⟨hν, -⟩, hμν⟩ := hq
      obtain ⟨μ, rfl⟩ := Direction.exists_along hμ
      obtain ⟨ν, rfl⟩ := Direction.exists_along hν
      have hne : μ ≠ ν := fun heq => hμν (congrArg _ heq)
      obtain ⟨r, hr⟩ := hfills.exists_plaquette hne (hx.shift_one μ) (hx.shift_one ν)
      exact ⟨.inl r, by rw [Query.ask, hr]; rfl⟩
  | plaquetteSum k =>
      obtain ⟨p, μ, rfl, hp⟩ := Link.Within.exists_along hq
      exact ⟨_, by rw [Query.ask, hfills.plaquetteSum_eq (hp.clear μ)]; rfl⟩
  | localAction k =>
      obtain ⟨p, μ, rfl, hp⟩ := Link.Within.exists_along hq
      exact ⟨_, by rw [Query.ask, localAction_eq hfills (hp.clear μ)]; rfl⟩
  | localActionReplacing k m =>
      obtain ⟨p, μ, rfl, hp⟩ := Link.Within.exists_along hq
      exact ⟨_, by rw [Query.ask, localActionReplacing_eq hfills (hp.clear μ)]; rfl⟩
  | staple k =>
      obtain ⟨p, μ, rfl, hp⟩ := Link.Within.exists_along hq
      exact ⟨_, by rw [Query.ask, staple_eq hfills hp μ]; rfl⟩

end LatticeState.Complete

end PureGauge
