/-
**The squares of a lattice, counted from their links.**

Each link names six squares: for each other direction the one at its point and the one a step
behind.  All links together name each square of the lattice four times, as a square has two sides in
each of its two directions, and stands ahead of the one and behind the other.  Nothing is lost on a
small lattice: with a single point in each direction the sides coincide, and so do the names that a
link gives to the square.

Main definitions:

* `PureGauge.Square`, `PureGauge.Square.place` — squares, and what squares with different names have
  in common if they are the same;
* `PureGauge.Link.squares` — the squares of a link.

Main results:

* `PureGauge.Site.sum_around` — a sum over the squares of all links is four times the sum over all
  squares;
* `PureGauge.Lattice.count_places` — every square is named four times.
-/
import PureGauge.Proofs.Lattice.Links
import Mathlib.Algebra.BigOperators.GroupWithZero.Action
import Mathlib.Data.Sym.Sym2
import Mathlib.Tactic.Abel

namespace PureGauge

/-- A square, named by a point and two directions. -/
structure Square where
  pos : Point
  first : Direction
  second : Direction
deriving DecidableEq

namespace Square

/-- The site of a square and its two directions in no order. -/
def place (n : ℕ) (q : Square) : Site n × Sym2 Direction := (q.pos.site n, s(q.first, q.second))

/-- The squares of the link of a point in a direction: for each other direction the one at the point
and the one a step behind. -/
def around (p : Point) (μ : Fin 4) : List Square :=
  (Direction.others μ).flatMap fun ν =>
    [⟨p, .along μ, .along ν⟩, ⟨p.moved ν (-1), .along μ, .along ν⟩]

end Square

/-- The squares of a link. -/
def Link.squares (k : Link) : Checked (List Square) := do
  let squares ← (← k.dir.orthogonal).mapM fun ν => do
    return [⟨k.pos, k.dir, ν⟩, ⟨← k.pos.shift ν (-1), k.dir, ν⟩]
  return squares.flatten

/-- The squares of a link are found where they can be followed. -/
theorem Link.squares_eq {p : Point} {μ : Fin 4} (hp : p.Clear μ) :
    (⟨p, .along μ⟩ : Link).squares = .ok (Square.around p μ) := by
  have hpair : ∀ ν ∈ Direction.others μ,
      (do return [⟨p, .along μ, .along ν⟩, ⟨← p.shift (.along ν) (-1), .along μ, .along ν⟩] :
        Checked (List Square)) =
        .ok [⟨p, .along μ, .along ν⟩, ⟨p.moved ν (-1), .along μ, .along ν⟩] := by
    intro ν hν
    rw [Point.shift_neg_one (hp.2 ν (Direction.mem_others.1 hν)).1, Checked.ok_bind,
      Checked.pure_eq]
  rw [squares, Direction.orthogonal_along, Checked.ok_bind, List.mapM_map, Function.comp_def,
    Checked.mapM_eq_ok hpair, Checked.ok_bind, Checked.pure_eq, Square.around, List.flatMap_def]

/-! ### Sums over squares -/

section

variable {M : Type} [AddCommMonoid M]

theorem Direction.sum_others {f : Fin 4 → Fin 4 → M} (hcomm : ∀ μ ν, f μ ν = f ν μ) :
    ∑ μ, ((others μ).map (f μ)).sum = 2 • (pairs.map fun μν => f μν.1 μν.2).sum := by
  have hpairs : pairs = [(0, 1), (0, 2), (0, 3), (1, 2), (1, 3), (2, 3)] := by decide
  have h0 : others 0 = [1, 2, 3] := by decide
  have h1 : others 1 = [0, 2, 3] := by decide
  have h2 : others 2 = [0, 1, 3] := by decide
  have h3 : others 3 = [0, 1, 2] := by decide
  rw [Fin.sum_univ_four, hpairs, h0, h1, h2, h3]
  simp only [List.map_cons, List.map_nil, List.sum_cons, List.sum_nil, hcomm 1 0, hcomm 2 0,
    hcomm 3 0, hcomm 2 1, hcomm 3 1, hcomm 3 2]
  abel

namespace Site

variable {n : ℕ} [NeZero n]

/-- A sum over the squares of all links is four times the sum over all squares.  A square is ahead
of a link and behind one in each of its two directions. -/
theorem sum_around {f : Site n → Fin 4 → Fin 4 → M} (hcomm : ∀ x μ ν, f x μ ν = f x ν μ) :
    ∑ x, ∑ μ, ((Direction.others μ).map fun ν => f x μ ν + f (x - step n ν) μ ν).sum =
      4 • ∑ x, (Direction.pairs.map fun μν => f x μν.1 μν.2).sum := by
  have hbehind : ∀ μ ν, ∑ x, (f x μ ν + f (x - step n ν) μ ν) = 2 • ∑ x, f x μ ν := by
    intro μ ν
    have hshift : ∑ x, f (x - step n ν) μ ν = ∑ x, f x μ ν :=
      Equiv.sum_comp (Equiv.subRight (step n ν)) fun x => f x μ ν
    rw [Finset.sum_add_distrib, hshift, two_nsmul]
  calc ∑ x, ∑ μ, ((Direction.others μ).map fun ν => f x μ ν + f (x - step n ν) μ ν).sum
      = ∑ μ, ((Direction.others μ).map fun ν => 2 • ∑ x, f x μ ν).sum := by
        rw [Finset.sum_comm]
        simp only [sum_list_comm, hbehind]
    _ = 2 • ∑ μ, ((Direction.others μ).map fun ν => ∑ x, f x μ ν).sum := by
        simp only [Finset.smul_sum, List.smul_sum, List.map_map, Function.comp_def]
    _ = 2 • 2 • (Direction.pairs.map fun μν => ∑ x, f x μν.1 μν.2).sum := by
        rw [Direction.sum_others fun μ ν => Finset.sum_congr rfl fun x _ => hcomm x μ ν]
    _ = 4 • ∑ x, (Direction.pairs.map fun μν => f x μν.1 μν.2).sum := by
        rw [sum_list_comm, smul_smul]
        rfl

end Site

end

/-! ### Counting -/

namespace Square

variable {n : ℕ} {p : Point} {μ : Fin 4}

theorem length_around (p : Point) (μ : Fin 4) : (around p μ).length = 6 := by
  rw [around, List.length_flatMap]
  simp only [List.length_cons, List.length_nil, List.map_const', Direction.length_others]
  rfl

theorem mem_around {q : Square} :
    q ∈ around p μ ↔ ∃ ν ≠ μ,
      q = ⟨p, .along μ, .along ν⟩ ∨ q = ⟨p.moved ν (-1), .along μ, .along ν⟩ := by
  simp only [around, List.mem_flatMap, Direction.mem_others, List.mem_cons, List.not_mem_nil,
    or_false]

/-- How often a place is that of a square of a link. -/
theorem count_around (hp : p.Clear μ) (a : Site n × Sym2 Direction) :
    ((around p μ).map (place n)).count a = ((Direction.others μ).map fun ν =>
      (if (p.site n, s(.along μ, .along ν)) = a then 1 else 0) +
        if (p.site n - Site.step n ν, s(.along μ, .along ν)) = a then 1 else 0).sum := by
  rw [around, List.map_flatMap, List.count_flatMap]
  refine congrArg List.sum (List.map_congr_left fun ν hν => ?_)
  have hsite := Point.site_of_shift_neg_one (n := n)
    (Point.shift_neg_one (hp.2 ν (Direction.mem_others.1 hν)).1)
  simp only [Function.comp_apply, List.map_cons, List.map_nil, place, hsite, List.count_cons,
    List.count_nil, beq_iff_eq, zero_add]
  exact Nat.add_comm ..

end Square

/-- Of the six pairs of directions one is a given one. -/
theorem Direction.sum_pairs_ite {μ ν : Fin 4} (h : μ ≠ ν) :
    (pairs.map fun κι => if s(along κι.1, along κι.2) = s(along μ, along ν) then 1 else 0).sum =
      1 := by
  simp only [Sym2.eq_iff, along_inj]
  revert μ ν
  decide

namespace Lattice

variable {n : ℕ} [NeZero n]

/-- The squares that the links of a lattice name, link by link. -/
def squareList (n : ℕ) [NeZero n] : List (List Square) :=
  alongLinks fun xμ : Site n × Fin 4 => Square.around xμ.1.point xμ.2

theorem mapM_squares (h : n < 2 ^ 62) : (linkList n).mapM Link.squares = .ok (squareList n) :=
  mapM_linkList fun xμ => Link.squares_eq ((Site.point_inner h xμ.1).clear xμ.2)

theorem mem_flatten_squareList {q : Square} :
    q ∈ (squareList n).flatten ↔ ∃ (x : Site n) (μ : Fin 4), q ∈ Square.around x.point μ := by
  simp only [List.mem_flatten, squareList, mem_alongLinks, Prod.exists]
  constructor
  · rintro ⟨_, ⟨x, μ, rfl⟩, hq⟩
    exact ⟨x, μ, hq⟩
  · rintro ⟨x, μ, hq⟩
    exact ⟨_, ⟨x, μ, rfl⟩, hq⟩

theorem length_flatten_squareList : (squareList n).flatten.length = 4 * (6 * n ^ 4) := by
  rw [List.length_flatten, squareList, map_alongLinks, sum_alongLinks]
  simp only [Square.length_around, Finset.sum_const, Finset.card_univ, Fintype.card_fin,
    Fintype.card_pi, ZMod.card, Finset.prod_const, smul_eq_mul]
  ring

/-- A place is named four times as often as it is that of a square. -/
theorem count_places_eq (h : n < 2 ^ 62) (a : Site n × Sym2 Direction) :
    ((squareList n).flatten.map (Square.place n)).count a =
      4 • ∑ x, (Direction.pairs.map fun κι =>
        if (x, s(.along κι.1, .along κι.2)) = a then 1 else 0).sum := by
  have hlink : ∀ (x : Site n) (κ : Fin 4),
      ((Square.around x.point κ).map (Square.place n)).count a = ((Direction.others κ).map fun ι =>
        (if (x, s(.along κ, .along ι)) = a then 1 else 0) +
          if (x - Site.step n ι, s(.along κ, .along ι)) = a then 1 else 0).sum := by
    intro x κ
    rw [Square.count_around ((Site.point_inner h x).clear κ), Site.site_point (by omega)]
  have hcomm : ∀ (x : Site n) (κ ι : Fin 4), (if (x, s(.along κ, .along ι)) = a then 1 else 0) =
      if (x, s(.along ι, .along κ)) = a then 1 else 0 := by
    intro x κ ι
    rw [Sym2.eq_swap]
  rw [List.map_flatten, List.count_flatten, List.map_map, squareList, map_alongLinks,
    sum_alongLinks]
  simp only [Function.comp_apply, hlink]
  exact Site.sum_around hcomm

/-- **Every square is named four times** by the links of the lattice. -/
theorem count_places (h : n < 2 ^ 62) (y : Site n) {μ ν : Fin 4} (hμν : μ ≠ ν) :
    ((squareList n).flatten.map (Square.place n)).count (y, s(.along μ, .along ν)) = 4 := by
  have hone : ∀ x, (Direction.pairs.map fun κι =>
      if (x, s(Direction.along κι.1, .along κι.2)) = (y, s(.along μ, .along ν)) then 1 else 0).sum =
        if x = y then 1 else 0 := by
    intro x
    by_cases hx : x = y
    · simp only [Prod.mk.injEq, hx, true_and, if_true]
      exact Direction.sum_pairs_ite hμν
    · simp [hx]
  rw [count_places_eq h]
  simp only [hone, Finset.sum_ite_eq', Finset.mem_univ, if_true, smul_eq_mul]

/-- The squares that are named are `6 n ^ 4` different ones. -/
theorem card_places (h : n < 2 ^ 62) :
    ((squareList n).flatten.map (Square.place n)).toFinset.card = 6 * n ^ 4 := by
  have hfour : ∀ a ∈ ((squareList n).flatten.map (Square.place n)).toFinset,
      ((squareList n).flatten.map (Square.place n)).count a = 4 := by
    intro a ha
    rw [List.mem_toFinset, List.mem_map] at ha
    obtain ⟨q, hq, rfl⟩ := ha
    obtain ⟨x, μ, hq⟩ := mem_flatten_squareList.1 hq
    obtain ⟨ν, hν, rfl | rfl⟩ := Square.mem_around.1 hq
    · exact count_places h _ hν.symm
    · exact count_places h _ hν.symm
  have hcount : ∑ a ∈ ((squareList n).flatten.map (Square.place n)).toFinset,
      ((squareList n).flatten.map (Square.place n)).count a = 4 * (6 * n ^ 4) := by
    have hlength : ((squareList n).flatten.map (Square.place n)).length = 4 * (6 * n ^ 4) := by
      rw [List.length_map, length_flatten_squareList]
    rw [← hlength, ← List.sum_toFinset_count_eq_length]
    congr!
  rw [Finset.sum_congr rfl hfour, Finset.sum_const, smul_eq_mul] at hcount
  omega

end Lattice

end PureGauge
