/-
**The walks over a lattice are queues.**

The items of a walk over the points of a lattice are the points with the numbers from zero on, and
the same holds for its links.  Different numbers belong to different points and links, so that a
walk is a queue of its items, on every lattice whose points or links can be counted; a lattice
without points has the empty one.

Main definitions:

* `PureGauge.Lattice.pointList` — the points in the order of their numbers.

Main results:

* `PureGauge.Lattice.Counted.pointAt_eq` — the point with a number;
* `PureGauge.Lattice.isQueue_walks` — the walks over the points and the links of a lattice.
-/
import PureGauge.Proofs.Lattice.Links

namespace PureGauge

namespace Lattice

variable {l : Lattice} {n : ℕ}

/-! ### Points -/

/-- The points of a lattice with `n` points in each direction, in the order of their numbers. -/
def pointList (n : ℕ) : List Point := (List.range (n ^ 4)).map (pointOfDigits n)

theorem length_pointList : (pointList n).length = n ^ 4 := by
  rw [pointList, List.length_map, List.length_range]

theorem nodup_pointList (h : n < 2 ^ 63) : (pointList n).Nodup := by
  refine List.nodup_range.map_on fun i hi j hj hij => ?_
  rw [List.mem_range] at hi hj
  have : NeZero n := ⟨by rintro rfl; omega⟩
  exact pointOfDigits_inj h hi hj hij

namespace Counted

/-- The point with a number is the one at its place in the list. -/
theorem pointAt_eq (h : l.Counted n) (i : ℕ) : l.pointAt i = .ok (pointList n)[i]? := by
  rw [pointAt, h.pointCount_eq, Checked.ok_bind, h.dim_eq]
  by_cases hi : i < n ^ 4
  · rw [if_pos hi, List.getElem?_eq_getElem (by rwa [length_pointList])]
    simp [pointList]
  · rw [if_neg hi, List.getElem?_eq_none (by rw [length_pointList]; omega)]
    rfl

theorem walkPoints_eq (h : l.Counted n) :
    l.walkPoints = .ok ⟨l.pointAt, 0, (pointList n).length⟩ := by
  rw [walkPoints, h.pointCount_eq, length_pointList]
  rfl

end Counted

/-! ### Walks -/

/-- The walk over the links, whether there are any or not. -/
theorem Numbered.exists_walkLinks (h : l.Numbered n) :
    ∃ (w : Walk Link) (ks : List Link), l.walkLinks = .ok w ∧ ks.length = 4 * n ^ 4 ∧
      (∀ i, l.linkAt i = .ok ks[i]?) ∧ ks.Nodup ∧ w.Shows ks := by
  rcases Nat.eq_zero_or_pos n with rfl | hn
  · have hitem : ∀ i, l.linkAt i = .ok ([] : List Link)[i]? :=
      fun i => h.linkAt_of_le (Nat.zero_le i)
    refine ⟨⟨l.linkAt, 0, 0⟩, [], ?_, rfl, hitem, .nil, .whole hitem⟩
    rw [walkLinks, h.linkCount_eq]
    rfl
  · have : NeZero n := ⟨hn.ne'⟩
    exact ⟨_, linkList n, h.walkLinks_eq, length_linkList, h.linkAt_eq,
      nodup_linkList h.periodic.lt, .whole h.linkAt_eq⟩

/-- **The walks over a lattice are queues.**  If the number of points is a word, also if it is zero,
then the walk over the points answers like the list of the points with the numbers from zero on,
whatever calls are made at its two ends, and in whatever order; and likewise for the links. -/
theorem isQueue_walks (l : Lattice) :
    (l.dim.toNat ^ 4 < 2 ^ 64 → ∃ (w : Walk Point) (ps : List Point), l.walkPoints = .ok w ∧
      ps.length = l.dim.toNat ^ 4 ∧ (∀ i, l.pointAt i = .ok ps[i]?) ∧ w.IsQueue ps) ∧
      (4 * l.dim.toNat ^ 4 < 2 ^ 64 → ∃ (w : Walk Link) (ks : List Link), l.walkLinks = .ok w ∧
        ks.length = 4 * l.dim.toNat ^ 4 ∧ (∀ i, l.linkAt i = .ok ks[i]?) ∧ w.IsQueue ks) := by
  constructor
  · intro hlt
    have h : l.Counted l.dim.toNat := ⟨rfl, hlt⟩
    exact ⟨_, pointList l.dim.toNat, h.walkPoints_eq, length_pointList, h.pointAt_eq,
      (Walk.Shows.whole h.pointAt_eq).isQueue (nodup_pointList h.periodic.lt)⟩
  · intro hlt
    have h : l.Numbered l.dim.toNat := ⟨rfl, hlt⟩
    obtain ⟨w, ks, hw, hlength, hitem, hnodup, hshows⟩ := h.exists_walkLinks
    exact ⟨w, ks, hw, hlength, hitem, hshows.isQueue hnodup⟩

/-- Sixteen points of a small lattice, and no links where there are no points. -/
theorem isQueue_walks_small :
    (∃ (w : Walk Point) (ps : List Point),
      (⟨2⟩ : Lattice).walkPoints = .ok w ∧ ps.length = 16 ∧ w.IsQueue ps) ∧
      ∃ (w : Walk Link) (ks : List Link),
        (⟨0⟩ : Lattice).walkLinks = .ok w ∧ ks.length = 0 ∧ w.IsQueue ks := by
  obtain ⟨w, ps, hw, hps, -, hpoints⟩ := (isQueue_walks ⟨2⟩).1 (by decide)
  obtain ⟨v, ks, hv, hks, -, hlinks⟩ := (isQueue_walks ⟨0⟩).2 (by decide)
  exact ⟨⟨w, ps, hw, hps, hpoints⟩, ⟨v, ks, hv, hks, hlinks⟩⟩

end Lattice

end PureGauge
