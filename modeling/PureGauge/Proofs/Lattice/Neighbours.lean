/-
**The links around a link.**

A link is a side of six squares: for each other direction of the one at its point and of the one a
step behind.  The three other sides of these squares are the links that stand around it, eighteen in
all, of which some coincide on a small lattice.  The coordinates of their points are not wrapped, so
that at the edge of the signed words some of them cannot be named.

Main definitions:

* `PureGauge.Link.sides`, `PureGauge.Link.neighbours` — the other sides of the squares of a link.

Main results:

* `PureGauge.Link.length_neighbours` — there are eighteen around a link whose squares can be
  followed;
* `PureGauge.Link.neighbours_cases` — none of them has the direction and the site of the link,
  unless a step leads nowhere.
-/
import PureGauge.Proofs.Lattice.Numbering

namespace PureGauge

/-! ### Directions -/

namespace Direction

/-- The orthogonal directions, if there is room for them, are the other ones of the four. -/
theorem eq_filter_of_orthogonal {d : Direction} {ds : List Direction} (h : d.orthogonal = .ok ds) :
    ds = all.filter (· ≠ d) := by
  rw [orthogonal] at h
  split at h
  · rw [Except.ok.injEq] at h
    exact h.symm
  · cases h

/-- There is room for three orthogonal directions. -/
theorem length_le_of_orthogonal {d : Direction} {ds : List Direction} (h : d.orthogonal = .ok ds) :
    ds.length ≤ 3 := by
  rw [orthogonal] at h
  split at h
  case isTrue hlength =>
    cases h
    exact hlength
  case isFalse => cases h

theorem filter_ne_along (μ : Fin 4) : all.filter (· ≠ along μ) = (others μ).map along := by
  revert μ
  decide

end Direction

/-! ### Sides of squares -/

namespace Link

/-- The other sides of the squares of a link and a second direction: three of the square at its
point, three of the one a step behind. -/
def sides (k : Link) (ν : Direction) : List (Checked Link) :=
  let ahead := k.pos.shift k.dir 1
  let behind := k.pos.shift ν (-1)
  [ahead.map (⟨·, ν⟩), (k.pos.shift ν 1).map (⟨·, k.dir⟩), .ok ⟨k.pos, ν⟩,
    (ahead >>= (·.shift ν (-1))).map (⟨·, ν⟩), behind.map (⟨·, k.dir⟩), behind.map (⟨·, ν⟩)]

/-- The links that stand around a link, as far as they can be named. -/
def neighbours (k : Link) : List Link :=
  (Direction.all.filter (· ≠ k.dir)).flatMap fun ν => (k.sides ν).filterMap Except.toOption

theorem mem_neighbours {j k : Link} :
    j ∈ k.neighbours ↔ ∃ ν ∈ Direction.all.filter (· ≠ k.dir), .ok j ∈ k.sides ν := by
  have hok : ∀ side : Checked Link, side.toOption = some j ↔ .ok j = side := by
    intro side
    cases side with
    | error fault => simp [Except.toOption]
    | ok i => simp [Except.toOption, eq_comm]
  simp only [neighbours, List.mem_flatMap, List.mem_filterMap, hok, exists_eq_right']

/-- There are eighteen links around a link whose squares can be followed. -/
theorem length_neighbours {p : Point} {μ : Fin 4} (h : p.Clear μ) :
    (⟨p, .along μ⟩ : Link).neighbours.length = 18 := by
  have hsix : ∀ ν ∈ Direction.others μ,
      (((⟨p, .along μ⟩ : Link).sides (.along ν)).filterMap Except.toOption).length = 6 := by
    intro ν hν
    have hνμ : ν ≠ μ := Direction.mem_others.1 hν
    have ahead := Point.shift_one h.1
    have aside := Point.shift_one (h.2 ν hνμ).2
    have behind := Point.shift_neg_one (h.2 ν hνμ).1
    have across : (p.moved μ 1).shift (.along ν) (-1) = .ok ((p.moved μ 1).moved ν (-1)) := by
      refine Point.shift_neg_one ?_
      rw [Point.moved_coord_of_ne p 1 hνμ]
      exact (h.2 ν hνμ).1
    simp only [sides, ahead, aside, behind, across, Checked.ok_bind, Checked.map_ok]
    rfl
  rw [neighbours, Direction.filter_ne_along, List.length_flatMap, List.map_map, Function.comp_def,
    List.map_congr_left hsix, List.map_const', Direction.length_others]
  rfl

/-- A link around a link has another direction, or it has the same one and is a step away in
another. -/
theorem neighbours_cases {p : Point} {μ : Fin 4} {j : Link} (n : ℕ)
    (h : j ∈ (⟨p, .along μ⟩ : Link).neighbours) :
    ∃ (q : Point) (ν : Fin 4), ν ≠ μ ∧ (j = ⟨q, .along ν⟩ ∨ j = ⟨q, .along μ⟩ ∧
      (q.site n = p.site n + Site.step n ν ∨ q.site n = p.site n - Site.step n ν)) := by
  obtain ⟨d, hd, hj⟩ := mem_neighbours.1 h
  rw [Direction.filter_ne_along, List.mem_map] at hd
  obtain ⟨ν, hν, rfl⟩ := hd
  have hνμ : ν ≠ μ := Direction.mem_others.1 hν
  have hmap : ∀ (e : Direction) (x : Checked Point), .ok j = x.map (⟨·, e⟩ : Point → Link) →
      ∃ q, x = .ok q ∧ j = ⟨q, e⟩ := by
    intro e x hx
    cases x with
    | error fault => cases hx
    | ok q => exact ⟨q, rfl, Except.ok.inj hx⟩
  simp only [sides, List.mem_cons, List.not_mem_nil, or_false] at hj
  rcases hj with hj | hj | hj | hj | hj | hj
  · obtain ⟨q, -, rfl⟩ := hmap _ _ hj
    exact ⟨q, ν, hνμ, Or.inl rfl⟩
  · obtain ⟨q, hq, rfl⟩ := hmap _ _ hj
    exact ⟨q, ν, hνμ, Or.inr ⟨rfl, Or.inl (Point.site_of_shift_one hq)⟩⟩
  · exact ⟨p, ν, hνμ, Or.inl (Except.ok.inj hj)⟩
  · obtain ⟨q, -, rfl⟩ := hmap _ _ hj
    exact ⟨q, ν, hνμ, Or.inl rfl⟩
  · obtain ⟨q, hq, rfl⟩ := hmap _ _ hj
    exact ⟨q, ν, hνμ, Or.inr ⟨rfl, Or.inr (Point.site_of_shift_neg_one hq)⟩⟩
  · obtain ⟨q, -, rfl⟩ := hmap _ _ hj
    exact ⟨q, ν, hνμ, Or.inl rfl⟩

end Link

end PureGauge
